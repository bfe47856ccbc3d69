import Yans.Library.Paths
import Yans.Library.Strings

/-! `lib/util/os.c`: `os_cleanpath` cleans a path in place. What has been written
never gets ahead of what is left to read. -/
namespace Yans.Util.Os

open Library.Memory Library.Strings Library.Paths

def slash : UInt8 := 47

def dot : UInt8 := 46

/-- The variables of `os_cleanpath`. -/
structure Cleaner where
  path : Bytes
  r : ℕ
  w : ℕ
  leftlim : ℕ

/-- `path[w++] = ch` -/
def Cleaner.put (s : Cleaner) (ch : UInt8) : Cleaner :=
  { s with path := s.path.set s.w ch, w := s.w + 1 }

def copyComponent (s : Cleaner) : Cleaner :=
  if _hmore : byteAt s.path s.r ≠ 0 ∧ byteAt s.path s.r ≠ slash then
    copyComponent { s.put (byteAt s.path s.r) with r := s.r + 1 }
  else s
termination_by s.path.length - s.r
decreasing_by
  have hlt : s.r < s.path.length := by
    by_contra hge
    refine _hmore.1 ?_
    unfold byteAt
    rw [List.getElem?_eq_none (Nat.le_of_not_lt hge)]
    rfl
  unfold Cleaner.put
  rw [List.length_set]
  omega

/-- The loop that takes back a component; it runs at least once. -/
def takeBack (path : Bytes) (leftlim : ℕ) : ℕ → ℕ
  | 0 => 0
  | w + 1 => if w > leftlim ∧ byteAt path w ≠ slash then takeBack path leftlim w else w

/-- The loop over the path; `none` is a loop that is not over after `fuel` rounds. -/
def cleanLoop (absolute : Bool) : ℕ → Cleaner → Option Cleaner
  | 0, _ => none
  | fuel + 1, s =>
    let ch := byteAt s.path s.r
    let next := byteAt s.path (s.r + 1)
    let third := byteAt s.path (s.r + 2)
    if ch = 0 then some s
    else if ch = slash then cleanLoop absolute fuel { s with r := s.r + 1 }
    else if ch = dot ∧ (next = 0 ∨ next = slash) then
      cleanLoop absolute fuel { s with r := s.r + 1 }
    else if ch = dot ∧ next = dot ∧ (third = 0 ∨ third = slash) then
      let s := { s with r := s.r + 2 }
      if s.w > s.leftlim then
        cleanLoop absolute fuel { s with w := takeBack s.path s.leftlim s.w }
      else if absolute = false then
        let s := if s.w > 0 then s.put slash else s
        let s := (s.put dot).put dot
        cleanLoop absolute fuel { s with leftlim := s.w }
      else cleanLoop absolute fuel s
    else
      let s := if absolute = true ∧ s.w ≠ 1 ∨ absolute = false ∧ s.w > 0 then s.put slash else s
      cleanLoop absolute fuel (copyComponent s)

/-- The string that is left in the array that holds this one. -/
def osCleanpath (path : Bytes) : Option Bytes :=
  let absolute := decide (byteAt path 0 = slash)
  let start := if absolute then 1 else 0
  (cleanLoop absolute (path.length + 1) ⟨path, start, start, start⟩).map fun s => s.path.take s.w

/-! The bytes that are read and written -/

theorem byteAt_drop (mem : Bytes) (off i : ℕ) : byteAt (mem.drop off) i = byteAt mem (off + i) := by
  unfold byteAt
  rw [List.getElem?_drop]

variable {ch : UInt8}

theorem byteAt_of_drop {mem : Bytes} {off : ℕ} {rest : Bytes}
    (h : mem.drop off = ch :: rest) : byteAt mem off = ch := by
  have hhead := byteAt_drop mem off 0
  rw [h, Nat.add_zero] at hhead
  exact hhead.symm

@[simp] theorem put_r (s : Cleaner) (ch : UInt8) : (s.put ch).r = s.r := rfl

@[simp] theorem put_w (s : Cleaner) (ch : UInt8) : (s.put ch).w = s.w + 1 := rfl

structure Holds (s : Cleaner) (written rest : Bytes) : Prop where
  written_eq : s.path.take s.w = written
  w_eq : s.w = written.length
  rest_eq : s.path.drop s.r = rest
  fits : s.r + rest.length = s.path.length
  behind : s.w ≤ s.r

variable {s : Cleaner} {written rest : Bytes}

theorem Holds.byte (h : Holds s written rest) (i : ℕ) :
    byteAt s.path (s.r + i) = byteAt rest i := by
  rw [← h.rest_eq, byteAt_drop]

theorem Holds.skip (skipped : Bytes) {rest' : Bytes} (h : Holds s written rest)
    (hrest : rest = skipped ++ rest') :
    Holds { s with r := s.r + skipped.length } written rest' := by
  subst hrest
  have hfits := h.fits
  rw [List.length_append] at hfits
  refine ⟨h.written_eq, h.w_eq, ?_, ?_, h.behind.trans (Nat.le_add_right _ _)⟩
  · dsimp only
    rw [← List.drop_drop, h.rest_eq, List.drop_left]
  · dsimp only
    omega

theorem Holds.put (h : Holds s written rest) (ch : UInt8) (hroom : s.w < s.r) :
    Holds (s.put ch) (written ++ [ch]) rest := by
  have hfits := h.fits
  have hlt : s.w < s.path.length := by omega
  refine ⟨?_, ?_, ?_, ?_, hroom⟩
  · unfold Cleaner.put
    rw [List.set_eq_take_append_cons_drop, if_pos hlt, h.written_eq]
    have hlen : s.w + 1 = (written ++ [ch]).length := by
      rw [List.length_append, h.w_eq]
      rfl
    rw [hlen, List.append_cons written ch (s.path.drop _), List.take_left]
  · rw [put_w, h.w_eq, List.length_append]
    rfl
  · unfold Cleaner.put
    rw [List.drop_set_of_lt hroom, h.rest_eq]
  · unfold Cleaner.put
    rw [List.length_set, hfits]

theorem Holds.copy (h : Holds s written (ch :: rest)) :
    Holds { s.put ch with r := s.r + 1 } (written ++ [ch]) rest := by
  have hskip := h.skip [ch] rfl
  exact hskip.put ch (Nat.lt_succ_of_le h.behind)

theorem copyComponent_spec {name : Bytes} (hname : ∀ ch ∈ name, ch ≠ 0 ∧ ch ≠ slash)
    (hrest : rest = [] ∨ rest.head? = some slash) : ∀ {s : Cleaner} {written : Bytes},
    Holds s written (name ++ rest) →
      Holds (copyComponent s) (written ++ name) rest ∧
        (copyComponent s).leftlim = s.leftlim := by
  induction name with
  | nil =>
    intro s written h
    have hstop : ¬ (byteAt s.path s.r ≠ 0 ∧ byteAt s.path s.r ≠ slash) := by
      have hbyte := h.byte 0
      rw [List.nil_append, Nat.add_zero] at hbyte
      rw [hbyte]
      cases hrest with
      | inl hnil => exact fun hmore => hmore.1 (by rw [hnil]; rfl)
      | inr hhead =>
        obtain ⟨tail, rfl⟩ := List.head?_eq_some_iff.mp hhead
        exact fun hmore => hmore.2 rfl
    rw [copyComponent, dif_neg hstop, List.append_nil]
    exact ⟨h, rfl⟩
  | cons ch name ih =>
    intro s written h
    have hbyte : byteAt s.path s.r = ch := byteAt_of_drop h.rest_eq
    have hch := hname ch List.mem_cons_self
    rw [copyComponent, dif_pos (hbyte ▸ hch), hbyte]
    have hnext := ih (fun other hother => hname other (List.mem_cons_of_mem _ hother)) h.copy
    rw [List.append_assoc, List.singleton_append] at hnext
    exact hnext

variable {path : Bytes}

theorem takeBack_spec {leftlim stop : ℕ} (hlimit : leftlim ≤ stop)
    (hstop : stop = leftlim ∨ byteAt path stop = slash) : ∀ {w : ℕ}, stop < w →
    (∀ i, stop < i → i < w → byteAt path i ≠ slash) → takeBack path leftlim w = stop := by
  intro w
  induction w with
  | zero => exact fun h => absurd h (Nat.not_lt_zero _)
  | succ w ih =>
    intro hlt hname
    unfold takeBack
    by_cases heq : w = stop
    · subst heq
      rw [if_neg]
      rintro ⟨habove, hbyte⟩
      cases hstop with
      | inl hlim => exact absurd hlim (Nat.ne_of_gt habove)
      | inr hslash => exact hbyte hslash
    · have habove : stop < w := by omega
      rw [if_pos ⟨hlimit.trans_lt habove, hname w habove (Nat.lt_succ_self _)⟩]
      exact ih habove fun i hlow hhigh => hname i hlow (hhigh.trans (Nat.lt_succ_self _))

def text (absolute : Bool) (stack : List Bytes) : Bytes := root slash absolute ++ spell slash stack

/-- What stands between these names and the next one. -/
def separator (stack : List Bytes) : Bytes := if stack = [] then [] else [slash]

theorem slash_ne_dot : slash ≠ dot := by decide

variable {absolute : Bool} {route : Route UInt8}

theorem text_cons (name : Bytes) (stack : List Bytes) :
    text absolute (name :: stack) = text absolute stack ++ separator stack ++ name := by
  unfold text separator
  by_cases hnil : stack = []
  · subst hnil
    rw [if_pos rfl, List.append_nil, spell, spell, if_pos rfl, List.append_nil]
  · rw [if_neg hnil, spell_cons_ne hnil]
    simp only [List.append_assoc, List.singleton_append]

theorem length_text_lt {name : Bytes} (stack : List Bytes) (hname : name ≠ []) :
    (text absolute stack).length < (text absolute (name :: stack)).length := by
  have hpos := List.length_pos_iff.mpr hname
  rw [text_cons, List.length_append, List.length_append]
  omega

theorem length_text_le (names stack : List Bytes) (hnames : ∀ name ∈ names, name ≠ []) :
    (text absolute stack).length ≤ (text absolute (names ++ stack)).length := by
  induction names with
  | nil => exact Nat.le_refl _
  | cons name below ih =>
    have hbelow := ih fun other hother => hnames other (List.mem_cons_of_mem _ hother)
    exact hbelow.trans (length_text_lt _ (hnames name List.mem_cons_self)).le

structure Cleans (absolute : Bool) (route : Route UInt8) (rest : Bytes) (s : Cleaner) : Prop where
  holds : Holds s (text absolute (route.stack dot)) rest
  plain : route.Plain slash dot absolute
  leftlim_eq : s.leftlim = (text absolute (List.replicate route.ups [dot, dot])).length
  room : s.w < s.r ∨ rest = [] ∨ rest.head? = some slash ∨ route.stack dot = []

theorem Cleans.w_gt_leftlim_iff (h : Cleans absolute route rest s) :
    s.w > s.leftlim ↔ route.names ≠ [] := by
  rw [h.holds.w_eq, h.leftlim_eq]
  have hnames := h.plain.isName
  obtain ⟨ups, names⟩ := route
  cases names with
  | nil => exact iff_of_false (Nat.lt_irrefl _) (not_not.mpr rfl)
  | cons name below =>
    refine iff_of_true ?_ (List.cons_ne_nil _ _)
    have hbelow : (text absolute (List.replicate ups [dot, dot])).length ≤
        (text absolute (below ++ List.replicate ups [dot, dot])).length :=
      length_text_le below _ fun other hother => (hnames other (List.mem_cons_of_mem _ hother)).1
    exact hbelow.trans_lt (length_text_lt _ (hnames name List.mem_cons_self).1)

theorem length_root (absolute : Bool) :
    (root slash absolute).length = if absolute then 1 else 0 := by
  cases absolute with
  | false => rfl
  | true => rfl

theorem Cleans.separates_iff (h : Cleans absolute route rest s) :
    (absolute = true ∧ s.w ≠ 1 ∨ absolute = false ∧ s.w > 0) ↔ route.stack dot ≠ [] := by
  have hspell := spell_eq_nil_iff (h.plain.stack_names slash_ne_dot)
  rw [← List.length_eq_zero_iff] at hspell
  change _ ↔ ¬ route.stack dot = []
  rw [h.holds.w_eq, text, List.length_append, length_root, ← hspell]
  cases absolute with
  | false => simp [Nat.pos_iff_ne_zero]
  | true => simp

theorem Holds.separate {stack : List Bytes} (h : Holds s (text absolute stack) rest) {p : Prop}
    [Decidable p] (hp : p ↔ stack ≠ []) (hroom : stack ≠ [] → s.w < s.r) :
    Holds (if p then s.put slash else s) (text absolute stack ++ separator stack) rest := by
  unfold separator
  by_cases hnil : stack = []
  · rw [if_neg fun hput => hp.mp hput hnil, if_pos hnil, List.append_nil]
    exact h
  · rw [if_pos (hp.mpr hnil), if_neg hnil]
    exact h.put slash (hroom hnil)

theorem Cleans.separator (h : Cleans absolute route (slash :: rest) s) :
    Cleans absolute route rest { s with r := s.r + 1 } :=
  ⟨h.holds.skip [slash] rfl, h.plain, h.leftlim_eq, .inl (Nat.lt_succ_of_le h.holds.behind)⟩

theorem Cleans.current (h : Cleans absolute route (dot :: rest) s) :
    Cleans absolute (route.follow dot absolute [dot]) rest { s with r := s.r + 1 } := by
  rw [Route.follow, if_pos rfl]
  exact ⟨h.holds.skip [dot] rfl, h.plain, h.leftlim_eq, .inl (Nat.lt_succ_of_le h.holds.behind)⟩

theorem text_tail {name : Bytes} (stack : List Bytes) (hname : IsName slash name) :
    ∃ tail, text absolute (name :: stack) = text absolute stack ++ tail ∧
      (∀ i, 0 < i → i < tail.length → byteAt tail i ≠ slash) ∧
      (stack = [] ∨ byteAt tail 0 = slash) := by
  have hslash : ∀ i, i < name.length → byteAt name i ≠ slash := by
    intro i hi heq
    refine hname.2 (heq ▸ ?_)
    unfold byteAt
    rw [List.getElem?_eq_getElem hi]
    exact List.getElem_mem hi
  rw [text_cons, List.append_assoc]
  unfold Os.separator
  by_cases hnil : stack = []
  · rw [if_pos hnil]
    exact ⟨name, rfl, fun i _ hi => hslash i hi, .inl hnil⟩
  · rw [if_neg hnil]
    refine ⟨slash :: name, rfl, fun i hpos hi => ?_, .inr rfl⟩
    cases i with
    | zero => exact absurd hpos (Nat.lt_irrefl _)
    | succ i => exact hslash i (Nat.lt_of_succ_lt_succ hi)

theorem Cleans.parent {name : Bytes} {below : List Bytes} {ups : ℕ} {skipped : Bytes}
    (h : Cleans absolute ⟨ups, name :: below⟩ (skipped ++ rest) s) :
    Cleans absolute ⟨ups, below⟩ rest
      { s with r := s.r + skipped.length, w := takeBack s.path s.leftlim s.w } := by
  have hname := h.plain.isName name List.mem_cons_self
  have hbelow : ∀ other ∈ below, IsName slash other := fun other hother =>
    h.plain.isName other (List.mem_cons_of_mem _ hother)
  have hleftlim := h.leftlim_eq
  have hwritten := h.holds.written_eq
  have hw := h.holds.w_eq
  have hlimit : (text absolute (List.replicate ups [dot, dot])).length ≤
      (text absolute ((⟨ups, below⟩ : Route UInt8).stack dot)).length :=
    length_text_le below _ fun other hother => (hbelow other hother).1
  have hlt : (text absolute ((⟨ups, below⟩ : Route UInt8).stack dot)).length < s.w := by
    rw [hw]
    exact length_text_lt _ hname.1
  obtain ⟨tail, htext, hafter, hfirst⟩ :=
    @text_tail absolute name ((⟨ups, below⟩ : Route UInt8).stack dot) hname
  have hstack : (⟨ups, name :: below⟩ : Route UInt8).stack dot =
      name :: (⟨ups, below⟩ : Route UInt8).stack dot := rfl
  rw [hstack, htext] at hwritten hw
  rw [List.length_append] at hw
  generalize hbase : text absolute ((⟨ups, below⟩ : Route UInt8).stack dot) = base at *
  have hbyte : ∀ i, i < tail.length → byteAt s.path (base.length + i) = byteAt tail i := by
    intro i hi
    have hin : base.length + i < s.w := by omega
    rw [← @byteAt_append_right base tail i, ← hwritten, byteAt_take, if_pos hin]
  have hstop : takeBack s.path s.leftlim s.w = base.length := by
    refine takeBack_spec ?_ ?_ hlt fun i hlow hhigh => ?_
    · rw [hleftlim]
      exact hlimit
    · cases hfirst with
      | inl hnil =>
        obtain ⟨-, hups⟩ := List.append_eq_nil_iff.mp hnil
        rw [hnil] at hbase
        rw [hleftlim, ← hbase, show List.replicate ups [dot, dot] = [] from hups]
        exact .inl rfl
      | inr hslash =>
        rw [← hslash, ← hbyte 0 (by omega), Nat.add_zero]
        exact .inr rfl
    · obtain ⟨j, rfl⟩ := Nat.exists_eq_add_of_lt hlow
      rw [Nat.add_assoc, hbyte (j + 1) (by omega)]
      exact hafter (j + 1) (Nat.succ_pos _) (by omega)
  have hskip := h.holds.skip skipped rfl
  rw [hstop]
  refine ⟨⟨?_, ?_, hskip.rest_eq, hskip.fits, hlt.le.trans hskip.behind⟩,
    ⟨hbelow, fun other hother => h.plain.ne_dots other (List.mem_cons_of_mem _ hother),
      h.plain.ups_eq⟩, hleftlim, .inl (hlt.trans_le hskip.behind)⟩
  · dsimp only
    rw [hbase, ← Nat.min_eq_left hlt.le, ← List.take_take, hwritten, List.take_left]
  · rw [hbase]

theorem Cleans.room_of (h : Cleans absolute route (ch :: rest) s)
    (hch : ch ≠ slash) (hstack : route.stack dot ≠ []) : s.w < s.r := by
  obtain hlt | hnil | hhead | hempty := h.room
  · exact hlt
  · exact absurd hnil (List.cons_ne_nil _ _)
  · exact absurd (Option.some.inj hhead) hch
  · exact absurd hempty hstack

theorem Cleans.separated_le (h : Cleans absolute route (ch :: rest) s)
    (hch : ch ≠ slash) {p : Prop} [Decidable p] (hp : p ↔ route.stack dot ≠ []) (r : ℕ) :
    (if p then { s with r := r }.put slash else { s with r := r }).w ≤ s.r := by
  by_cases hput : p
  · rw [if_pos hput]
    exact h.room_of hch (hp.mp hput)
  · rw [if_neg hput]
    exact h.holds.behind

theorem Cleans.above {ups : ℕ} (h : Cleans false ⟨ups, []⟩ (dot :: dot :: rest) s)
    (hends : rest = [] ∨ rest.head? = some slash) {s₁ : Cleaner}
    (hs₁ : s₁ = if s.w > 0 then { s with r := s.r + 2 }.put slash else { s with r := s.r + 2 }) :
    Cleans false ⟨ups + 1, []⟩ rest
      { (s₁.put dot).put dot with leftlim := ((s₁.put dot).put dot).w } := by
  have hseparates : s.w > 0 ↔ (⟨ups, []⟩ : Route UInt8).stack dot ≠ [] :=
    Iff.trans (by simp) h.separates_iff
  have hle := h.separated_le slash_ne_dot.symm hseparates (s.r + 2)
  have hseparated := (h.holds.skip [dot, dot] rfl).separate hseparates
    fun _ => Nat.lt_add_right 1 (Nat.lt_succ_of_le h.holds.behind)
  rw [List.length_cons, List.length_singleton, ← hs₁] at hseparated
  rw [← hs₁] at hle
  have hr : s₁.r = s.r + 2 := by
    rw [hs₁]
    split
    · rfl
    · rfl
  have hdots := (hseparated.put dot (by omega)).put dot (by rw [put_r, put_w]; omega)
  have htext : text false ((⟨ups + 1, []⟩ : Route UInt8).stack dot) =
      text false ((⟨ups, []⟩ : Route UInt8).stack dot) ++
        Os.separator ((⟨ups, []⟩ : Route UInt8).stack dot) ++ [dot] ++ [dot] := by
    rw [List.append_assoc _ [dot] [dot]]
    exact text_cons [dot, dot] _
  rw [← htext] at hdots
  exact ⟨⟨hdots.written_eq, hdots.w_eq, hdots.rest_eq, hdots.fits, hdots.behind⟩,
    ⟨nofun, nofun, nofun⟩, hdots.w_eq, .inr (hends.imp_right .inl)⟩

theorem Cleans.name {name : Bytes} (h : Cleans absolute route (name ++ rest) s)
    (hname : IsName slash name) (hnul : ∀ ch ∈ name, ch ≠ 0)
    (hdots : name ≠ [dot] ∧ name ≠ [dot, dot]) (hends : rest = [] ∨ rest.head? = some slash) :
    Cleans absolute (route.follow dot absolute name) rest
      (copyComponent (if absolute = true ∧ s.w ≠ 1 ∨ absolute = false ∧ s.w > 0 then
        s.put slash else s)) := by
  have hplain := h.plain.follow hname
  have hleftlim := h.leftlim_eq
  have hroom : route.stack dot ≠ [] → s.w < s.r := by
    obtain ⟨ch, tail, rfl⟩ := List.exists_cons_of_ne_nil hname.1
    exact h.room_of fun heq => hname.2 (heq ▸ List.mem_cons_self)
  have hseparated := h.holds.separate h.separates_iff hroom
  obtain ⟨hcopied, hlim⟩ := copyComponent_spec
    (fun ch hch => ⟨hnul ch hch, fun heq => hname.2 (heq ▸ hch)⟩) hends hseparated
  rw [Route.follow, if_neg hdots.1, if_neg hdots.2] at hplain ⊢
  rw [← text_cons] at hcopied
  refine ⟨hcopied, hplain, ?_, .inr (hends.imp_right .inl)⟩
  rw [hlim, ← hleftlim]
  split
  · rfl
  · rfl

structure Splits (rest name tail : Bytes) : Prop where
  rest_eq : rest = name ++ tail
  isName : IsName slash name
  name_nul : ∀ ch ∈ name, ch ≠ 0
  tail_nul : ∀ ch ∈ tail, ch ≠ 0
  ends : tail = [] ∨ tail.head? = some slash

theorem exists_splits (hnul : ∀ byte ∈ ch :: rest, byte ≠ 0) (hch : ch ≠ slash) :
    ∃ name tail, Splits (ch :: rest) name tail := by
  have hsplit := @List.takeWhile_append_dropWhile _ (fun byte => decide (byte ≠ slash)) (ch :: rest)
  refine ⟨_, _, hsplit.symm, ⟨?_, ?_⟩, fun byte hbyte => ?_, fun byte hbyte => ?_, ?_⟩
  · simp [hch]
  · intro hmem
    simpa using List.mem_takeWhile_imp hmem
  · exact hnul byte (hsplit ▸ List.mem_append_left _ hbyte)
  · exact hnul byte (hsplit ▸ List.mem_append_right _ hbyte)
  · cases hrest : (ch :: rest).dropWhile (· ≠ slash) with
    | nil => exact .inl rfl
    | cons first tail =>
      have hfirst := List.head?_dropWhile_not (fun byte => decide (byte ≠ slash)) (ch :: rest)
      rw [hrest] at hfirst
      exact .inr (by simpa using hfirst)

variable {tail : Bytes}

section

variable {name : Bytes} (h : Splits rest name tail)

include h

theorem Splits.end_byte :
    byteAt tail 0 = 0 ∨ byteAt tail 0 = slash := by
  cases h.ends with
  | inl hnil => exact .inl (by rw [hnil]; rfl)
  | inr hhead =>
    obtain ⟨after, rfl⟩ := List.head?_eq_some_iff.mp hhead
    exact .inr rfl

theorem Splits.not_end (hch : ch ∈ name) : ¬ (ch = 0 ∨ ch = slash) := by
  rintro (hzero | hslash)
  · exact h.name_nul ch hch hzero
  · exact h.isName.2 (hslash ▸ hch)

theorem Splits.dot_iff :
    (byteAt rest 0 = dot ∧ (byteAt rest 1 = 0 ∨ byteAt rest 1 = slash)) ↔ name = [dot] := by
  have hend := h.end_byte
  have hnot : ∀ ch ∈ name, ¬ (ch = 0 ∨ ch = slash) := fun ch hch => h.not_end hch
  rw [h.rest_eq]
  match name, h.isName.1, hnot with
  | [first], _, _ =>
    rw [List.cons.injEq, and_iff_left rfl]
    exact and_iff_left hend
  | first :: second :: name, _, hnot =>
    refine iff_of_false (fun hboth => ?_) (by simp)
    exact hnot second (List.mem_cons_of_mem _ List.mem_cons_self) hboth.2

theorem Splits.dots_iff :
    (byteAt rest 0 = dot ∧ byteAt rest 1 = dot ∧ (byteAt rest 2 = 0 ∨ byteAt rest 2 = slash)) ↔
      name = [dot, dot] := by
  have hend := h.end_byte
  have hnot : ∀ ch ∈ name, ¬ (ch = 0 ∨ ch = slash) := fun ch hch => h.not_end hch
  rw [h.rest_eq]
  match name, h.isName.1, hnot with
  | [first], _, _ =>
    refine iff_of_false (fun hboth => ?_) (by simp)
    have hsecond : byteAt tail 0 = dot := hboth.2.1
    rw [hsecond] at hend
    revert hend
    decide
  | [first, second], _, _ =>
    rw [List.cons.injEq, List.cons.injEq, and_iff_left rfl]
    exact and_congr_right fun _ => and_iff_left hend
  | first :: second :: third :: name, _, hnot =>
    refine iff_of_false (fun hboth => ?_) (by simp)
    exact hnot third (by simp) hboth.2.2

end

/-- The induction is on the rounds; each of them reads something. -/
theorem cleanLoop_spec (fuel : ℕ) : ∀ {s : Cleaner} {route : Route UInt8} {rest : Bytes},
    (∀ byte ∈ rest, byte ≠ 0) → rest.length < fuel → Cleans absolute route rest s →
      ∃ s', cleanLoop absolute fuel s = some s' ∧
        s'.path.take s'.w = text absolute
          (((components slash rest).foldl (Route.follow dot absolute) route).stack dot) := by
  induction fuel with
  | zero => exact fun _ h => absurd h (Nat.not_lt_zero _)
  | succ fuel ih =>
    intro s route rest hnul hfuel h
    have hbyte := h.holds.byte 0
    rw [Nat.add_zero] at hbyte
    unfold cleanLoop
    rw [hbyte, h.holds.byte 1, h.holds.byte 2]
    cases rest with
    | nil => exact ⟨s, if_pos rfl, h.holds.written_eq⟩
    | cons ch rest =>
      have hch : byteAt (ch :: rest) 0 = ch := rfl
      rw [hch, if_neg (hnul ch List.mem_cons_self)]
      rw [List.length_cons, Nat.succ_lt_succ_iff] at hfuel
      by_cases hslash : ch = slash
      · subst hslash
        rw [if_pos rfl, components_cons_self]
        exact ih (fun byte hmem => hnul byte (List.mem_cons_of_mem _ hmem)) hfuel h.separator
      · obtain ⟨name, tail, hsplits⟩ := exists_splits hnul hslash
        have hdot := hsplits.dot_iff
        have hdots := hsplits.dots_iff
        have hcomponents := components_name_append hsplits.isName hsplits.ends
        have hlen := congrArg List.length hsplits.rest_eq
        have hpos := List.length_pos_iff.mpr hsplits.isName.1
        rw [List.length_append, List.length_cons] at hlen
        rw [hch] at hdot hdots
        rw [if_neg hslash, hsplits.rest_eq, hcomponents, List.foldl_cons, ← hsplits.rest_eq]
        rw [hsplits.rest_eq] at h
        have hnext : ∀ {s : Cleaner}, Cleans absolute (route.follow dot absolute name) tail s → _ :=
          ih hsplits.tail_nul (by omega)
        by_cases hcurrent : name = [dot]
        · rw [if_pos (hdot.mpr hcurrent)]
          subst hcurrent
          exact hnext h.current
        · rw [if_neg (hdot.not.mpr hcurrent)]
          by_cases hparent : name = [dot, dot]
          · rw [if_pos (hdots.mpr hparent)]
            subst hparent
            rw [Route.follow, if_neg hcurrent, if_pos rfl] at hnext
            have habove := h.w_gt_leftlim_iff
            obtain ⟨ups, names⟩ := route
            cases names with
            | cons top below =>
              rw [if_pos (habove.mpr (List.cons_ne_nil _ _))]
              exact hnext h.parent
            | nil =>
              rw [if_neg fun hgt => habove.mp hgt rfl]
              cases absolute with
              | true =>
                have hskip := h.holds.skip [dot, dot] rfl
                exact hnext ⟨hskip, h.plain, h.leftlim_eq, .inr (hsplits.ends.imp_right .inl)⟩
              | false =>
                rw [if_pos rfl]
                exact hnext (h.above hsplits.ends rfl)
          · rw [if_neg (hdots.not.mpr hparent)]
            exact hnext (h.name hsplits.isName hsplits.name_nul ⟨hcurrent, hparent⟩ hsplits.ends)

theorem osCleanpath_eq (hnul : ∀ byte ∈ path, byte ≠ 0) :
    osCleanpath path = some (clean slash dot path) := by
  have hloop : ∀ {absolute : Bool} {rest : Bytes} {s : Cleaner}, isRooted slash path = absolute →
      path = root slash absolute ++ rest → s = ⟨path, (root slash absolute).length,
        (root slash absolute).length, (root slash absolute).length⟩ →
      (cleanLoop absolute (path.length + 1) s).map (fun s => s.path.take s.w) =
        some (clean slash dot path) := by
    intro absolute rest s hrooted hpath hs
    have htext : text absolute [] = root slash absolute := List.append_nil _
    have hcleans : Cleans absolute Route.start rest s := by
      subst hs
      refine ⟨⟨?_, ?_, ?_, ?_, Nat.le_refl _⟩, Route.Plain.start absolute, ?_, .inr (.inr (.inr rfl))⟩
      · change path.take _ = text absolute []
        rw [htext, hpath, List.take_left]
      · change _ = (text absolute []).length
        rw [htext]
      · change path.drop _ = rest
        rw [hpath, List.drop_left]
      · change (root slash absolute).length + rest.length = path.length
        rw [hpath, List.length_append]
      · change _ = (text absolute []).length
        rw [htext]
    have hlen := congrArg List.length hpath
    rw [List.length_append] at hlen
    obtain ⟨s', hrun, hwritten⟩ := cleanLoop_spec (path.length + 1)
      (fun byte hmem => hnul byte (hpath ▸ List.mem_append_right _ hmem)) (by omega) hcleans
    rw [hrun, Option.map_some, hwritten, clean, hrooted, hpath, components_root_append]
    rfl
  unfold osCleanpath
  cases path with
  | nil => exact @hloop false [] _ rfl rfl rfl
  | cons ch rest =>
    have hch : byteAt (ch :: rest) 0 = ch := rfl
    rw [hch]
    by_cases hslash : ch = slash
    · subst hslash
      exact @hloop true rest _ rfl rfl rfl
    · rw [decide_eq_false hslash]
      refine @hloop false (ch :: rest) _ ?_ rfl rfl
      exact decide_eq_false fun hhead => hslash (Option.some.inj hhead)

example : osCleanpath (ascii "foo/bar/../../../baz//.") = some (ascii "../baz") :=
  (osCleanpath_eq (by decide)).trans (by decide)

theorem osCleanpath_cstring (mem : Bytes) :
    osCleanpath (cstring mem) = some (clean slash dot (cstring mem)) :=
  osCleanpath_eq fun _ => ne_zero_of_mem_cstring

/-- The string that `os_cleanpath` leaves of the one in this memory. -/
def cleanpath (mem : Bytes) : Bytes :=
  (osCleanpath (cstring mem)).get (by rw [osCleanpath_cstring, Option.isSome_some])

theorem cleanpath_eq (mem : Bytes) : cleanpath mem = clean slash dot (cstring mem) :=
  Option.get_of_eq_some _ (osCleanpath_cstring mem)

end Yans.Util.Os

/-! `os_cleanpath` as a function on paths: the lexical normal form. -/
namespace Yans.Util.CleanPaths

open Library.Memory Library.Strings Library.Paths Os

theorem length_put (s : Cleaner) (ch : UInt8) : (s.put ch).path.length = s.path.length :=
  List.length_set

theorem length_copyComponent (s : Cleaner) : (copyComponent s).path.length = s.path.length := by
  fun_induction copyComponent s with
  | case1 s hmore ih =>
    rw [ih]
    exact length_put s _
  | case2 s hstop => rfl

theorem length_cleanLoop {absolute : Bool} (fuel : ℕ) : ∀ {s s' : Cleaner},
    cleanLoop absolute fuel s = some s' → s'.path.length = s.path.length := by
  induction fuel with
  | zero =>
    intro s s' h
    cases h
  | succ fuel ih =>
    intro s s' h
    unfold cleanLoop at h
    dsimp only at h
    split at h
    · cases h
      rfl
    · split at h
      · rw [ih h]
      · split at h
        · rw [ih h]
        · split at h
          · split at h
            · rw [ih h]
            · split at h
              · rw [ih h]
                rw [length_put, length_put]
                split
                · exact length_put _ _
                · rfl
              · rw [ih h]
          · rw [ih h, length_copyComponent]
            split
            · exact length_put _ _
            · rfl

theorem length_osCleanpath_le {result : Bytes} (h : osCleanpath path = some result) :
    result.length ≤ path.length := by
  obtain ⟨s, hrun, rfl⟩ := Option.map_eq_some_iff.mp h
  rw [← length_cleanLoop _ hrun]
  exact List.length_take_le' _ _

theorem normalForm_nul (hnul : ∀ byte ∈ path, byte ≠ 0) :
    ∀ byte ∈ normalForm slash dot path, byte ≠ 0 := by
  intro byte hbyte
  obtain hpath | rfl | rfl := mem_normalForm hbyte
  · exact hnul byte hpath
  · decide
  · decide

/-- `os_cleanpath` leaves the lexical normal form of its path, which is not
longer, is clean already, and has no two dots if it starts at the root. -/
theorem cleanpath_normalForm {path : Bytes} (hnul : ∀ byte ∈ path, byte ≠ 0) :
    ∃ result, osCleanpath path = some result ∧ result = normalForm slash dot path ∧
      result.length ≤ path.length ∧ osCleanpath result = some result ∧
      (isRooted slash result = true → ∀ name ∈ components slash result, name ≠ [dot, dot]) := by
  have hclean := osCleanpath_eq hnul
  refine ⟨clean slash dot path, hclean, clean_eq_normalForm path, length_osCleanpath_le hclean,
    ?_, ?_⟩
  · rw [osCleanpath_eq, clean_clean path slash_ne_dot]
    rw [clean_eq_normalForm]
    exact normalForm_nul hnul
  · intro hrooted name hname
    rw [isRooted_clean path slash_ne_dot] at hrooted
    exact (components_clean slash_ne_dot hrooted name hname).2

theorem cleanpath_normalForm_sample :
    ∃ result, osCleanpath (ascii "a/../../b//.") = some result ∧
      result = normalForm slash dot (ascii "a/../../b//.") ∧
      result.length ≤ (ascii "a/../../b//.").length ∧ osCleanpath result = some result ∧
      (isRooted slash result = true → ∀ name ∈ components slash result, name ≠ [dot, dot]) :=
  cleanpath_normalForm (by decide)

example : normalForm slash dot (ascii "a/../../b//.") = ascii "../b" := by decide

end Yans.Util.CleanPaths
