import Mathlib.Data.List.TakeWhile
import Yans.Util.ObjtblRefinement
import Yans.Vulnspec.Interp
import Yans.Vulnspec.Parser

/-! The string table of the parser maps strings without zero bytes to offsets.
The comparison stops at the shorter string, but the zero at its end counts, so
that only equal strings compare equal. -/
namespace Yans.Vulnspec

open Library.Memory Library.Strings Util.Objtbl Util.TableSize

theorem CString.ext {left right : CString} (h : left.bytes = right.bytes) : left = right := by
  cases left
  cases right
  cases h
  rfl

def entryOf (text : CString) (val : ℕ) : StrtabEntry :=
  ⟨text.bytes ++ [0], text.bytes.length + 1, val⟩

theorem eq_of_memcmp {left right after after' : Bytes} {n : ℕ} (hleft : ∀ byte ∈ left, byte ≠ 0)
    (hright : ∀ byte ∈ right, byte ≠ 0) (hn : min (left.length + 1) (right.length + 1) ≤ n)
    (h : memcmp n (left ++ 0 :: after) (right ++ 0 :: after') = 0) : left = right := by
  induction left generalizing right n with
  | nil =>
    cases right with
    | nil => rfl
    | cons b right =>
      obtain ⟨n, rfl⟩ : ∃ k, n = k + 1 := ⟨n - 1, by simp only [List.length_nil] at hn; omega⟩
      have hb := hright b List.mem_cons_self
      have hnat : b.toNat ≠ 0 := fun hzero => hb (UInt8.toNat_inj.mp hzero)
      simp [memcmp, hb.symm, hnat] at h
  | cons a left ih =>
    have ha := hleft a List.mem_cons_self
    have hnat : a.toNat ≠ 0 := fun hzero => ha (UInt8.toNat_inj.mp hzero)
    cases right with
    | nil =>
      obtain ⟨n, rfl⟩ : ∃ k, n = k + 1 := ⟨n - 1, by simp only [List.length_nil] at hn; omega⟩
      simp [memcmp, ha, hnat] at h
    | cons b right =>
      simp only [List.length_cons] at hn
      obtain ⟨n, rfl⟩ : ∃ k, n = k + 1 := ⟨n - 1, by omega⟩
      rw [List.cons_append, List.cons_append, memcmp_cons] at h
      by_cases hab : a = b
      · subst hab
        rw [if_pos rfl] at h
        rw [ih (fun x hx => hleft x (List.mem_cons_of_mem _ hx))
          (fun x hx => hright x (List.mem_cons_of_mem _ hx)) (by omega) h]
      · have hne : a.toNat ≠ b.toNat := fun heq => hab (UInt8.toNat_inj.mp heq)
        rw [if_neg hab] at h
        omega

theorem memcmp_strings {left right : Bytes} (hleft : ∀ byte ∈ left, byte ≠ 0)
    (hright : ∀ byte ∈ right, byte ≠ 0) :
    memcmp (min (left.length + 1) (right.length + 1)) (left ++ [0]) (right ++ [0]) = 0 ↔
      left = right := by
  constructor
  · exact eq_of_memcmp hleft hright le_rfl
  · rintro rfl
    exact memcmp_self _ _

theorem strtabCmp_entryOf (left right : CString) (val val' : ℕ) :
    strtabCmp (entryOf left val) (entryOf right val') = 0 ↔ left = right :=
  (memcmp_strings left.no_zero right.no_zero).trans ⟨CString.ext, congrArg CString.bytes⟩

/-- The comparison and the hash agree on what the parser stores. -/
def strtabHashing : Hashing StrtabEntry where
  hashfunc := strtabHash
  cmpfunc := strtabCmp
  Valid entry := ∃ text val, entry = entryOf text val
  refl := by
    rintro _ ⟨text, val, rfl⟩
    exact (strtabCmp_entryOf text text val val).mpr rfl
  symm := by
    rintro _ _ ⟨left, val, rfl⟩ ⟨right, val', rfl⟩ h
    exact (strtabCmp_entryOf right left val' val).mpr ((strtabCmp_entryOf _ _ _ _).mp h).symm
  trans := by
    rintro _ _ _ ⟨first, val, rfl⟩ ⟨second, val', rfl⟩ ⟨third, val'', rfl⟩ h h'
    have h := (strtabCmp_entryOf _ _ _ _).mp h
    have h' := (strtabCmp_entryOf _ _ _ _).mp h'
    exact (strtabCmp_entryOf first third val val'').mpr (h.trans h')
  hash_eq := by
    rintro _ _ ⟨left, val, rfl⟩ ⟨right, val', rfl⟩ h seed
    obtain rfl := (strtabCmp_entryOf _ _ _ _).mp h
    rfl

/-- The strings of the table with their offsets, newest first. -/
abbrev Strings := List (CString × ℕ)

def entriesOf (strings : Strings) : List StrtabEntry :=
  strings.map fun string => entryOf string.1 string.2

def HoldsStrings (strtab : ObjtblCtx StrtabEntry) (strings : Strings) : Prop :=
  Represents strtabHashing strtab (entriesOf strings)

namespace HoldsStrings

variable {strtab : ObjtblCtx StrtabEntry} {strings : Strings}

theorem find_spec (text : CString) :
    (text ∉ strings.map Prod.fst ∧
      strtabHashing.liveGet (entryOf text 0) (entriesOf strings) = none) ∨
    ∃ val, (text, val) ∈ strings ∧
      strtabHashing.liveGet (entryOf text 0) (entriesOf strings) = some (entryOf text val) := by
  have hsame : ∀ other val,
      strtabHashing.same (entryOf text 0) (entryOf other val) = decide (text = other) := by
    intro other val
    rw [Hashing.same, Bool.eq_iff_iff, beq_iff_eq, decide_eq_true_iff]
    exact strtabCmp_entryOf text other 0 val
  induction strings with
  | nil => exact .inl ⟨by simp, rfl⟩
  | cons head strings ih =>
    obtain ⟨other, val⟩ := head
    have hcons : strtabHashing.liveGet (entryOf text 0) (entriesOf ((other, val) :: strings)) =
        if text = other then some (entryOf other val)
        else strtabHashing.liveGet (entryOf text 0) (entriesOf strings) := by
      unfold Hashing.liveGet entriesOf
      rw [List.map_cons, List.find?_cons, hsame]
      by_cases hother : text = other <;> simp [hother]
    rw [hcons]
    by_cases hother : text = other
    · subst hother
      exact .inr ⟨val, List.mem_cons_self, by simp⟩
    · rw [if_neg hother]
      obtain ⟨habsent, hnone⟩ | ⟨found, hmem, hsome⟩ := ih
      · exact .inl ⟨by simpa [hother] using habsent, hnone⟩
      · exact .inr ⟨found, List.mem_cons_of_mem _ hmem, hsome⟩

theorem get_spec (h : HoldsStrings strtab strings) (text : CString) :
    (text ∉ strings.map Prod.fst ∧
      objtblGet strtab (some (entryOf text 0)) = some (.enotfound, none)) ∨
    ∃ val, (text, val) ∈ strings ∧
      objtblGet strtab (some (entryOf text 0)) = some (.ok, some (entryOf text val)) := by
  have hget := @Represents.objtblGet_spec _ _ (entryOf text 0) _ _ _ h ⟨text, 0, rfl⟩
  obtain ⟨habsent, hnone⟩ | ⟨val, hmem, hsome⟩ := @find_spec strings text
  · rw [hnone] at hget
    exact .inl ⟨habsent, hget⟩
  · rw [hsome] at hget
    exact .inr ⟨val, hmem, hget⟩

theorem insert_spec (h : HoldsStrings strtab strings) {text : CString}
    (habsent : text ∉ strings.map Prod.fst) (hroom : strings.length < maxKeys) (val : ℕ) :
    ∃ after, objtblInsert strtab (some (entryOf text val)) = some (.ok, after) ∧
      HoldsStrings after ((text, val) :: strings) := by
  have hlength : (entriesOf strings).length < maxKeys := by
    rwa [entriesOf, List.length_map]
  obtain ⟨hfull, -⟩ | ⟨-, after, hinsert, hafter⟩ :=
    @Represents.objtblInsert_spec _ _ _ _ _ h (entryOf text val) ⟨text, val, rfl⟩
  · omega
  · refine ⟨after, hinsert, ?_⟩
    have hlive : strtabHashing.liveInsert (entryOf text val) (entriesOf strings) =
        entriesOf ((text, val) :: strings) := by
      rw [Hashing.liveInsert, entriesOf, entriesOf, List.map_cons, List.filter_eq_self.mpr]
      simp only [List.mem_map, Prod.exists, forall_exists_index, and_imp]
      rintro _ other val' hmem rfl
      rw [Hashing.same, Bool.not_eq_true', beq_eq_false_iff_ne]
      intro hcmp
      obtain rfl := (strtabCmp_entryOf text other val val').mp hcmp
      exact habsent (List.mem_map_of_mem hmem)
    rw [HoldsStrings, ← hlive]
    exact hafter

theorem init : ∃ strtab, objtblInit strtabOpts strtabEntries = some strtab ∧
    HoldsStrings strtab [] := by
  obtain ⟨hlarge, -⟩ | ⟨-, strtab, hinit, hrep⟩ :=
    @objtblInit_spec _ strtabHashing _ strtabEntries 0
  · exact absurd hlarge (by decide)
  · exact ⟨strtab, hinit, hrep⟩

end HoldsStrings

/-! Strings with zero bytes in them. An entry keeps the length that was read,
but its copy ends at the first zero, so a comparison may go on over whatever the
memory holds behind the copy. -/

/-- `strtab_cmp` where the memory behind a copy holds `behind` of it. -/
def strtabCmpIn (behind : Bytes → Bytes) (key entry : StrtabEntry) : ℤ :=
  memcmp (min key.len entry.len) (key.str ++ behind key.str) (entry.str ++ behind entry.str)

/-- Nothing but zeros behind the copies. -/
def bare : Bytes → Bytes := fun _ => []

theorem strtabCmpIn_bare : strtabCmpIn bare = strtabCmp := by
  funext key entry
  unfold strtabCmpIn bare strtabCmp
  rw [List.append_nil, List.append_nil]

def keyOf (text : Bytes) : StrtabEntry := ⟨text ++ [0], (text ++ [0]).length, 0⟩

/-- An entry as `strtab_new` makes it. -/
def IsCopy (entry : StrtabEntry) : Prop :=
  ∃ text : CString, entry.str = text.bytes ++ [0] ∧ text.bytes.length + 1 ≤ entry.len

structure MadeFor (entry : StrtabEntry) (text : Bytes) : Prop where
  str : entry.str = text.takeWhile (· ≠ 0) ++ [0]
  len : entry.len = text.length + 1

/-- What lies behind the copy of the one makes no difference to the other. -/
def Separate (text other : Bytes) : Prop :=
  0 ∈ text → 0 ∈ other → text.takeWhile (· ≠ 0) ≠ other.takeWhile (· ≠ 0)

instance (text other : Bytes) : Decidable (Separate text other) :=
  inferInstanceAs (Decidable (_ → _ → _))

theorem takeWhile_terminated (text : Bytes) :
    (text ++ [0]).takeWhile (· ≠ 0) = text.takeWhile (· ≠ 0) := by
  induction text with
  | nil => rfl
  | cons ch text ih =>
    rw [List.cons_append, List.takeWhile_cons, List.takeWhile_cons, ih]

theorem takeWhile_of_no_zero {text : Bytes} (h : 0 ∉ text) : text.takeWhile (· ≠ 0) = text := by
  apply List.takeWhile_eq_self_iff.mpr
  intro byte hbyte
  apply decide_eq_true
  rintro rfl
  exact h hbyte

theorem split_at_zero (text : Bytes) : ∃ (first : CString) (after : Bytes),
    first.bytes = text.takeWhile (· ≠ 0) ∧ text ++ [0] = first.bytes ++ 0 :: after := by
  induction text with
  | nil => exact ⟨⟨[], by simp⟩, [], rfl, rfl⟩
  | cons ch text ih =>
    by_cases hzero : ch = 0
    · subst hzero
      exact ⟨⟨[], by simp⟩, text ++ [0], by simp, rfl⟩
    · obtain ⟨first, after, hfirst, hsplit⟩ := ih
      refine ⟨⟨ch :: first.bytes, ?_⟩, after, ?_, ?_⟩
      · intro byte hbyte
        obtain rfl | hmem := List.mem_cons.mp hbyte
        · exact hzero
        · exact first.no_zero byte hmem
      · simp [hzero, hfirst]
      · rw [List.cons_append, hsplit]
        rfl

theorem madeFor_strtabNew (text : Bytes) (val : ℕ) :
    MadeFor (strtabNew (keyOf text).str (keyOf text).len val) text := by
  refine ⟨?_, List.length_append⟩
  unfold strtabNew keyOf
  dsimp only
  rw [takeWhile_terminated]

theorem MadeFor.isCopy {entry : StrtabEntry} {text : Bytes} (h : MadeFor entry text) :
    IsCopy entry := by
  obtain ⟨first, -, hfirst, -⟩ := split_at_zero text
  refine ⟨first, by rw [h.str, hfirst], ?_⟩
  rw [h.len, hfirst]
  exact Nat.succ_le_succ (List.takeWhile_prefix _).length_le

theorem isCopy_strtabNew (text : Bytes) (val : ℕ) :
    IsCopy (strtabNew (keyOf text).str (keyOf text).len val) := (madeFor_strtabNew text val).isCopy

section Comparison

variable {behind : Bytes → Bytes}

variable {entry : StrtabEntry}

theorem strtabCmp_copy {key : StrtabEntry} {left right : CString} {after : Bytes}
    (hkey : key.str = left.bytes ++ 0 :: after) (hlen : left.bytes.length + 1 ≤ key.len)
    (hentry : entry.str = right.bytes ++ [0]) (hlen' : right.bytes.length + 1 ≤ entry.len)
    (h : strtabCmpIn behind key entry = 0) : left = right := by
  unfold strtabCmpIn at h
  rw [hkey, hentry, List.append_assoc, List.append_assoc] at h
  exact CString.ext (eq_of_memcmp left.no_zero right.no_zero (by omega) h)

variable {left right : StrtabEntry}

theorem str_eq_of_cmp (hleft : IsCopy left) (hright : IsCopy right)
    (h : strtabCmpIn behind left right = 0) : left.str = right.str := by
  obtain ⟨text, hstr, hlen⟩ := hleft
  obtain ⟨other, hstr', hlen'⟩ := hright
  obtain rfl := strtabCmp_copy hstr hlen hstr' hlen' h
  exact hstr.trans hstr'.symm

theorem cmp_of_str_eq (h : left.str = right.str) :
    strtabCmpIn behind left right = 0 := by
  unfold strtabCmpIn
  rw [h]
  exact memcmp_self _ _

def copyHashing (behind : Bytes → Bytes) : Hashing StrtabEntry where
  hashfunc := strtabHash
  cmpfunc := strtabCmpIn behind
  Valid := IsCopy
  refl _ _ := cmp_of_str_eq rfl
  symm _ _ hleft hright h := cmp_of_str_eq (str_eq_of_cmp hleft hright h).symm
  trans _ _ _ hfirst hsecond hthird h h' :=
    cmp_of_str_eq ((str_eq_of_cmp hfirst hsecond h).trans (str_eq_of_cmp hsecond hthird h'))
  hash_eq _ _ hleft hright h seed := by
    unfold strtabHash
    rw [str_eq_of_cmp hleft hright h]

variable {text : Bytes}

theorem str_of_match (hentry : IsCopy entry)
    (h : strtabCmpIn behind (keyOf text) entry = 0) : entry.str = text.takeWhile (· ≠ 0) ++ [0] := by
  obtain ⟨first, after, hfirst, hsplit⟩ := split_at_zero text
  have hlen : first.bytes.length + 1 ≤ (keyOf text).len := by
    change _ ≤ (text ++ [0]).length
    rw [hsplit]
    simp
  obtain ⟨other, hstr, hlen'⟩ := hentry
  rw [hstr, ← hfirst, strtabCmp_copy hsplit hlen hstr hlen' h]

theorem strtabCmpIn_eq_zero_iff {origin : Bytes}
    (hentry : MadeFor entry origin) (hseparate : Separate text origin) :
    strtabCmpIn behind (keyOf text) entry = 0 ↔
      text.takeWhile (· ≠ 0) = origin.takeWhile (· ≠ 0) := by
  constructor
  · intro h
    exact (List.append_cancel_right (hentry.str.symm.trans (str_of_match hentry.isCopy h))).symm
  · intro hfront
    obtain ⟨first, after, hfirst, hsplit⟩ := split_at_zero text
    have hstr : entry.str = first.bytes ++ [0] := by rw [hentry.str, ← hfront, hfirst]
    -- one of the texts has no zero, so that the comparison ends with its copy
    have hshort : min (keyOf text).len entry.len ≤ (first.bytes ++ [0]).length := by
      have hkey : (keyOf text).len = text.length + 1 := List.length_append
      have hlen := hentry.len
      rw [List.length_append, List.length_singleton, hfirst]
      by_cases hzero : 0 ∈ text
      · rw [hfront, takeWhile_of_no_zero fun horigin => hseparate hzero horigin hfront]
        omega
      · rw [takeWhile_of_no_zero hzero]
        omega
    unfold strtabCmpIn
    rw [hstr, show (keyOf text).str = (first.bytes ++ [0]) ++ after by
      rw [List.append_assoc]; exact hsplit, List.append_assoc, memcmp_eq_zero_iff,
      List.take_append_of_le_length hshort, List.take_append_of_le_length hshort]
    · rw [List.length_append]
      omega
    · rw [List.length_append]
      omega

theorem same_keyOf {origin : Bytes} (hentry : MadeFor entry origin)
    (hseparate : behind = bare ∨ Separate text origin) :
    (copyHashing behind).same (keyOf text) entry = (copyHashing bare).same (keyOf text) entry := by
  obtain rfl | hseparate := hseparate
  · rfl
  · rw [Hashing.same, Hashing.same, Bool.eq_iff_iff, beq_iff_eq, beq_iff_eq]
    exact (strtabCmpIn_eq_zero_iff hentry hseparate).trans
      (strtabCmpIn_eq_zero_iff hentry hseparate).symm

theorem same_copy (hleft : IsCopy left) (hright : IsCopy right) :
    (copyHashing behind).same left right = decide (left.str = right.str) := by
  rw [Hashing.same, Bool.eq_iff_iff, beq_iff_eq, decide_eq_true_iff]
  exact ⟨str_eq_of_cmp hleft hright, cmp_of_str_eq⟩

end Comparison

section Copies

variable {behind : Bytes → Bytes} {strtab : ObjtblCtx StrtabEntry} {live : List StrtabEntry}

theorem objtblGet_copies (rep : Represents (copyHashing behind) strtab live) (text : Bytes) :
    objtblGet strtab (some (keyOf text)) =
      match live.find? ((copyHashing behind).same (keyOf text)) with
      | some entry => some (.ok, some entry)
      | none => some (.enotfound, none) := by
  cases hfind : live.find? ((copyHashing behind).same (keyOf text)) with
  | none =>
    apply rep.objtblGet_miss
    intro entry hentry hsame
    exact List.find?_eq_none.mp hfind entry hentry (beq_iff_eq.mpr hsame)
  | some entry =>
    have hentry : entry ∈ live := List.mem_of_find?_eq_some hfind
    have hsame : (copyHashing behind).same (keyOf text) entry = true := List.find?_some hfind
    have hmatch : strtabCmpIn behind (keyOf text) entry = 0 := beq_iff_eq.mp hsame
    have hcopy := rep.live_valid entry hentry
    -- the copy that was found stands for the key
    have hagree : ∀ other ∈ live,
        strtabCmpIn behind (keyOf text) other = 0 ↔ strtabCmpIn behind entry other = 0 := by
      intro other hother
      constructor
      · intro h
        apply cmp_of_str_eq
        rw [str_of_match hcopy hmatch, str_of_match (rep.live_valid other hother) h]
      · intro h
        have hkey : (copyHashing behind).keyOf other = (copyHashing behind).keyOf entry :=
          ((Hashing.keyOf_eq hcopy (rep.live_valid other hother)).mpr h).symm
        obtain rfl : other = entry :=
          List.inj_on_of_nodup_map rep.distinct hother hentry hkey
        exact hmatch
    have hhash : ∀ seed, strtabHash (keyOf text) seed = strtabHash entry seed := by
      intro seed
      have hstr := str_of_match hcopy hmatch
      unfold strtabHash objtblStrhash
      rw [hstr]
      dsimp only [keyOf]
      rw [takeWhile_terminated, takeWhile_terminated, List.takeWhile_idem]
    have hget := rep.objtblGet_spec hcopy
    have hlive : (copyHashing behind).liveGet entry live = some entry :=
      Hashing.liveGet_eq_some rep.live_valid hcopy rep.distinct hentry rfl
    rw [hlive] at hget
    exact (rep.objtblGet_congr hhash hagree).trans hget

end Copies

end Yans.Vulnspec
