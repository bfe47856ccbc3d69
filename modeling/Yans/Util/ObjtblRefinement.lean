import Yans.Library.Refinement
import Yans.Library.RobinHood.Remove
import Yans.Util.Objtbl

/-! An object table refines the list of its live objects, newest first. Keys
are equivalence classes of the comparison function: two objects share a key
when they compare equal. -/
namespace Yans.Util.Objtbl

open Library.RobinHood Library.Refinement TableSize

/-- What the caller owes the table: on the objects it uses, comparing equal is
an equivalence, and equal objects hash alike under every seed. -/
structure Hashing (Obj : Type) where
  hashfunc : Obj → UInt32 → UInt32
  cmpfunc : Obj → Obj → ℤ
  Valid : Obj → Prop
  refl : ∀ a, Valid a → cmpfunc a a = 0
  symm : ∀ a b, Valid a → Valid b → cmpfunc a b = 0 → cmpfunc b a = 0
  trans : ∀ a b c, Valid a → Valid b → Valid c → cmpfunc a b = 0 → cmpfunc b c = 0 →
    cmpfunc a c = 0
  hash_eq : ∀ a b, Valid a → Valid b → cmpfunc a b = 0 →
    ∀ seed, hashfunc a seed = hashfunc b seed

structure Consistent {Obj : Type} (hashfunc : Obj → UInt32 → UInt32) (cmpfunc : Obj → Obj → ℤ)
    (Valid : Obj → Prop) : Prop where
  refl : ∀ a, Valid a → cmpfunc a a = 0
  symm : ∀ a b, Valid a → Valid b → cmpfunc a b = 0 → cmpfunc b a = 0
  trans : ∀ a b c, Valid a → Valid b → Valid c → cmpfunc a b = 0 → cmpfunc b c = 0 →
    cmpfunc a c = 0
  hash_eq : ∀ a b, Valid a → Valid b → cmpfunc a b = 0 →
    ∀ seed, hashfunc a seed = hashfunc b seed

theorem Consistent.of_key {Obj Key : Type} {hashfunc : Obj → UInt32 → UInt32}
    {cmpfunc : Obj → Obj → ℤ} {Valid : Obj → Prop} (key : Obj → Key)
    (hcmp : ∀ a b, Valid a → Valid b → (cmpfunc a b = 0 ↔ key a = key b))
    (hhash : ∀ a b, Valid a → Valid b → key a = key b →
      ∀ seed, hashfunc a seed = hashfunc b seed) :
    Consistent hashfunc cmpfunc Valid where
  refl a ha := (hcmp a a ha ha).mpr rfl
  symm a b ha hb h := (hcmp b a hb ha).mpr ((hcmp a b ha hb).mp h).symm
  trans a b c ha hb hc h h' :=
    (hcmp a c ha hc).mpr (((hcmp a b ha hb).mp h).trans ((hcmp b c hb hc).mp h'))
  hash_eq a b ha hb h := hhash a b ha hb ((hcmp a b ha hb).mp h)

def Consistent.hashing {Obj : Type} {hashfunc : Obj → UInt32 → UInt32} {cmpfunc : Obj → Obj → ℤ}
    {Valid : Obj → Prop} (h : Consistent hashfunc cmpfunc Valid) : Hashing Obj :=
  ⟨hashfunc, cmpfunc, Valid, h.refl, h.symm, h.trans, h.hash_eq⟩

theorem Consistent.mono {Obj : Type} {hashfunc : Obj → UInt32 → UInt32}
    {cmpfunc : Obj → Obj → ℤ} {Valid Few : Obj → Prop} (h : Consistent hashfunc cmpfunc Valid)
    (hfew : ∀ a, Few a → Valid a) : Consistent hashfunc cmpfunc Few where
  refl a ha := h.refl a (hfew a ha)
  symm a b ha hb := h.symm a b (hfew a ha) (hfew b hb)
  trans a b c ha hb hc := h.trans a b c (hfew a ha) (hfew b hb) (hfew c hc)
  hash_eq a b ha hb := h.hash_eq a b (hfew a ha) (hfew b hb)

/-! Strings, of which one or both may be missing -/

theorem nullcmp_eq_zero_iff {α κ : Type} {cmp : α → α → ℤ} {key : α → κ} {left right : Option α}
    (h : ∀ a ∈ left, ∀ b ∈ right, cmp a b = 0 ↔ key a = key b) :
    nullcmp cmp left right = 0 ↔ left.map key = right.map key := by
  cases left with
  | none => cases right <;> simp [nullcmp]
  | some a =>
    cases right with
    | none => simp [nullcmp]
    | some b => simpa [nullcmp] using h a rfl b rfl

theorem objtblStrcmp_eq_zero_iff {left right : Option (List UInt8)} :
    objtblStrcmp left right = 0 ↔
      left.map Library.Strings.cstring = right.map Library.Strings.cstring :=
  nullcmp_eq_zero_iff fun _ _ _ _ => Library.Strings.strcmp_eq_zero_iff

theorem objtblStrhash_congr {left right : Option (List UInt8)}
    (h : left.map Library.Strings.cstring = right.map Library.Strings.cstring) (seed : UInt32) :
    objtblStrhash left seed = objtblStrhash right seed := by
  cases left with
  | none =>
    cases right with
    | none => rfl
    | some b => cases h
  | some a =>
    cases right with
    | none => cases h
    | some b =>
      have hstring : a.takeWhile (· ≠ 0) = b.takeWhile (· ≠ 0) := Option.some.inj h
      rw [objtblStrhash, objtblStrhash, hstring]

variable {Obj : Type} (H : Hashing Obj)

namespace Hashing

def opts (seed : UInt32) : ObjtblOpts Obj := ⟨seed, H.hashfunc, H.cmpfunc⟩

def Equal (a b : Obj) : Prop := a = b ∨ H.Valid a ∧ H.Valid b ∧ H.cmpfunc a b = 0

def setoid : Setoid Obj where
  r := H.Equal
  iseqv :=
    { refl := fun _ => .inl rfl
      symm := by
        rintro a b (rfl | ⟨ha, hb, hab⟩)
        · exact .inl rfl
        · exact .inr ⟨hb, ha, H.symm a b ha hb hab⟩
      trans := by
        rintro a b c (rfl | ⟨ha, hb, hab⟩) (rfl | ⟨hb', hc, hbc⟩)
        · exact .inl rfl
        · exact .inr ⟨hb', hc, hbc⟩
        · exact .inr ⟨ha, hb, hab⟩
        · exact .inr ⟨ha, hc, H.trans a b c ha hb hc hab hbc⟩ }

/-- The key of an object: its class under the comparison. -/
abbrev Key : Type := Quotient H.setoid

def keyOf (obj : Obj) : H.Key := Quotient.mk H.setoid obj

variable {H}

theorem keyOf_eq {a b : Obj} (ha : H.Valid a) (hb : H.Valid b) :
    H.keyOf a = H.keyOf b ↔ H.cmpfunc a b = 0 := by
  have hclass : H.keyOf a = H.keyOf b ↔ H.Equal a b := Quotient.eq (r := H.setoid)
  rw [hclass]
  constructor
  · rintro (rfl | ⟨-, -, hab⟩)
    · exact H.refl a ha
    · exact hab
  · exact fun hab => .inr ⟨ha, hb, hab⟩

def home (header : ObjtblHeader Obj) (hopts : ∃ seed, header.opts = H.opts seed) : H.Key → ℕ :=
  Quotient.lift (startPos header) (by
    rintro a b (rfl | ⟨ha, hb, hab⟩)
    · rfl
    · obtain ⟨seed, hseed⟩ := hopts
      unfold startPos calchash
      rw [hseed]
      dsimp only [opts]
      rw [H.hash_eq a b ha hb hab])

end Hashing

variable {key : Obj}

/-! The abstract state is the list of live objects, newest first. -/

namespace Hashing

def same (a b : Obj) : Bool := H.cmpfunc a b == 0

/-- Inserting drops the equivalent object stored before, if any. -/
def liveInsert (obj : Obj) (live : List Obj) : List Obj :=
  obj :: live.filter fun other => !H.same obj other

def liveRemove (key : Obj) (live : List Obj) : List Obj :=
  live.filter fun other => !H.same key other

/-- The most recently inserted object equivalent to `key`. -/
def liveGet (key : Obj) (live : List Obj) : Option Obj :=
  live.find? (H.same key)

variable {H}

theorem same_iff {a b : Obj} (ha : H.Valid a) (hb : H.Valid b) :
    H.same a b = true ↔ H.keyOf b = H.keyOf a := by
  unfold same
  rw [beq_iff_eq, eq_comm (a := H.keyOf b), keyOf_eq ha hb]

section

variable {live : List Obj} (hvalid : ∀ x ∈ live, H.Valid x)

include hvalid

theorem liveGet_eq_none (hkey : H.Valid key)
    (h : H.keyOf key ∉ (live : Multiset Obj).map H.keyOf) :
    H.liveGet key live = none := by
  refine List.find?_eq_none.mpr fun other hother hsame => h ?_
  rw [← (same_iff hkey (hvalid other hother)).mp hsame]
  exact Multiset.mem_map_of_mem _ (Multiset.mem_coe.mpr hother)

theorem liveGet_eq_some {obj : Obj} (hvalidKey : H.Valid key)
    (hnodup : ((live : Multiset Obj).map H.keyOf).Nodup)
    (hmem : obj ∈ live) (hkey : H.keyOf obj = H.keyOf key) : H.liveGet key live = some obj := by
  induction live with
  | nil => simp at hmem
  | cons head tail ih =>
    have hhead := hvalid head List.mem_cons_self
    rw [← Multiset.cons_coe, Multiset.map_cons, Multiset.nodup_cons] at hnodup
    unfold liveGet
    rw [List.find?_cons]
    obtain rfl | htail := List.mem_cons.mp hmem
    · rw [(same_iff hvalidKey hhead).mpr hkey]
    · have hother : H.same key head = false := by
        rw [Bool.eq_false_iff]
        intro hsame
        apply hnodup.1
        rw [(same_iff hvalidKey hhead).mp hsame, ← hkey]
        exact Multiset.mem_map_of_mem _ (Multiset.mem_coe.mpr htail)
      rw [hother]
      exact ih (fun x hx => hvalid x (List.mem_cons_of_mem _ hx)) hnodup.2 htail

theorem liveRemove_of_not_mem (hkey : H.Valid key)
    (h : H.keyOf key ∉ (live : Multiset Obj).map H.keyOf) :
    H.liveRemove key live = live := by
  refine List.filter_eq_self.mpr fun other hother => ?_
  rw [Bool.not_eq_true', Bool.eq_false_iff]
  intro hsame
  apply h
  rw [← (same_iff hkey (hvalid other hother)).mp hsame]
  exact Multiset.mem_map_of_mem _ (Multiset.mem_coe.mpr hother)

theorem coe_liveRemove {old : Obj} {rest : Multiset Obj} (hkey : H.Valid key)
    (hlive : (live : Multiset Obj) = old ::ₘ rest) (hold : H.keyOf old = H.keyOf key)
    (hnodup : ((live : Multiset Obj).map H.keyOf).Nodup) :
    (H.liveRemove key live : Multiset Obj) = rest := by
  have hmem : ∀ x ∈ old ::ₘ rest, H.Valid x := by
    intro x hx
    rw [← hlive] at hx
    exact hvalid x (Multiset.mem_coe.mp hx)
  rw [hlive, Multiset.map_cons, Multiset.nodup_cons, hold] at hnodup
  have hfilter : (H.liveRemove key live : Multiset Obj) =
      Multiset.filter (fun other => (!H.same key other) = true) (live : Multiset Obj) := by
    rw [Multiset.filter_coe]
    simp [liveRemove]
  have hsame : ¬ (!H.same key old) = true := by
    rw [(same_iff hkey (hmem old (Multiset.mem_cons_self _ _))).mpr hold]
    decide
  rw [hfilter, hlive,
    Multiset.filter_cons_of_neg (p := fun other => (!H.same key other) = true) _ hsame,
    Multiset.filter_eq_self]
  intro other hother
  rw [Bool.not_eq_true', Bool.eq_false_iff]
  intro hother'
  apply hnodup.1
  rw [← (same_iff hkey (hmem other (Multiset.mem_cons_of_mem hother))).mp hother']
  exact Multiset.mem_map_of_mem _ hother

end

theorem pairwise_of_nodup {objects : List Obj} (hvalid : ∀ x ∈ objects, H.Valid x)
    (hnodup : ((objects : Multiset Obj).map H.keyOf).Nodup) :
    objects.Pairwise fun a b => H.cmpfunc a b ≠ 0 := by
  rw [Multiset.map_coe, Multiset.coe_nodup, List.nodup_iff_pairwise_ne, List.pairwise_map]
    at hnodup
  refine hnodup.imp_of_mem fun {a b} ha hb hne hsame => hne ?_
  exact (keyOf_eq (hvalid a ha) (hvalid b hb)).mpr hsame

end Hashing

variable {H} [Inhabited Obj]

omit [Inhabited Obj] in
theorem calchash_ne_zero (opts : ObjtblOpts Obj) (obj : Obj) : calchash opts obj ≠ 0 := by
  unfold calchash
  dsimp only
  split
  · rename_i hzero
    rw [hzero]
    decide
  · assumption

theorem findJudge_judges (seed : UInt32) {keyobj : Obj} (hkey : H.Valid keyobj)
    {table : List (ObjtblEntry Obj)} (hvalid : ∀ x ∈ entryLayout.items table, H.Valid x)
    (hpos : 0 < table.length) :
    Judges entryLayout H.keyOf table (H.keyOf keyobj) (findJudge (H.opts seed) keyobj) := by
  have hstored : ∀ n, entryLayout.isEmpty (entryLayout.slot table n) = false →
      (H.keyOf (entryLayout.slot table n).value = H.keyOf keyobj ↔
        H.cmpfunc keyobj (entryLayout.slot table n).value = 0) := by
    intro n hfull
    rw [eq_comm]
    exact Hashing.keyOf_eq hkey (hvalid _ (mem_items_slot hpos hfull))
  have hgo : ∀ n d, entryLayout.isEmpty (entryLayout.slot table n) = false →
      d ≤ (entryLayout.slot table n).distance →
      ¬((entryLayout.slot table n).hash = 0 ∨ (entryLayout.slot table n).distance < d) := by
    rintro n d hfull hle (hzero | hlt)
    · have hempty : entryLayout.isEmpty (entryLayout.slot table n) = true := beq_iff_eq.mpr hzero
      rw [hempty] at hfull
      contradiction
    · exact absurd hle (not_le.mpr hlt)
  refine ⟨?_, ?_, ?_⟩
  · intro n d h
    unfold findJudge at h
    split at h
    · contradiction
    · rename_i hgoes
      split at h
      · rename_i hsame
        have hfull : entryLayout.isEmpty (entryLayout.slot table n) = false := by
          simp only [entryLayout, beq_eq_false_iff_ne]
          exact fun hzero => hgoes (.inl hzero)
        exact ⟨hfull, (hstored n hfull).mpr hsame⟩
      · contradiction
  · intro n d hfull hsame hle
    unfold findJudge
    rw [if_neg (hgo n d hfull hle)]
    exact if_pos ((hstored n hfull).mp hsame)
  · intro n d hfull hother hle
    unfold findJudge
    rw [if_neg (hgo n d hfull hle)]
    exact if_neg fun hsame => hother ((hstored n hfull).mpr hsame)

variable (H)

structure WellFormed (tbl : ObjtblCtx Obj) : Prop where
  sized : Sized tbl.header.cap tbl.header.modmask tbl.header.rehashLimit
  opts_eq : ∃ seed, tbl.header.opts = H.opts seed
  length_eq : tbl.entries.length = tbl.header.cap.toNat
  inv : Inv entryLayout H.keyOf (H.home tbl.header opts_eq) tbl.entries
  valid : ∀ x ∈ entryLayout.items tbl.entries, H.Valid x
  size_eq : tbl.header.size.toNat = (entryLayout.items tbl.entries).card

variable {H}

namespace WellFormed

variable {tbl : ObjtblCtx Obj}

section

variable (wf : WellFormed H tbl)

include wf

theorem advances :
    Advances (nextIndex tbl.header) tbl.entries.length := by
  rw [wf.length_eq]
  exact wf.sized.advances

theorem startPos_lt (obj : Obj) :
    startPos tbl.header obj < tbl.entries.length := by
  rw [wf.length_eq]
  exact wf.sized.index_lt _

theorem card_le :
    (entryLayout.items tbl.entries).card ≤ tbl.header.cap.toNat := by
  rw [← wf.length_eq]
  exact card_items_le tbl.entries

theorem judges {keyobj : Obj} (hkey : H.Valid keyobj) :
    Judges entryLayout H.keyOf tbl.entries (H.keyOf keyobj)
      (findJudge tbl.header.opts keyobj) := by
  obtain ⟨seed, hseed⟩ := wf.opts_eq
  rw [hseed]
  exact findJudge_judges seed hkey wf.valid wf.inv.pos

theorem cmpfunc_eq : tbl.header.opts.cmpfunc = H.cmpfunc := by
  obtain ⟨seed, hseed⟩ := wf.opts_eq
  rw [hseed]
  rfl

theorem findTableEntry_spec {keyobj : Obj} (hkey : H.Valid keyobj) :
    (H.keyOf keyobj ∉ (entryLayout.items tbl.entries).map H.keyOf ∧
      findTableEntry tbl (some keyobj) = some none) ∨
    ∃ index < tbl.entries.length, findTableEntry tbl (some keyobj) = some (some index) ∧
      entryLayout.isEmpty (entryLayout.slot tbl.entries index) = false ∧
      H.keyOf (entryLayout.slot tbl.entries index).value = H.keyOf keyobj :=
  probe_spec wf.inv wf.advances (wf.judges hkey) (wf.startPos_lt keyobj) wf.length_eq.le

theorem remove_spec {index : ℕ} (hindex : index < tbl.entries.length)
    (hfull : entryLayout.isEmpty (entryLayout.slot tbl.entries index) = false) :
    ∃ entries, shift entryLayout (nextIndex tbl.header) tbl.header.cap.toNat tbl.entries index
        (nextIndex tbl.header (index + 1)) = some entries ∧
      WellFormed H ⟨{ tbl.header with size := tbl.header.size - 1 }, entries⟩ ∧
      entryLayout.items tbl.entries =
        (entryLayout.slot tbl.entries index).value ::ₘ entryLayout.items entries := by
  obtain ⟨entries, hshift, hlength, hinv, hitems⟩ := shift_spec wf.inv wf.advances hindex hfull
    wf.length_eq.le
  have hvalid : ∀ x ∈ entryLayout.items entries, H.Valid x := by
    intro x hx
    exact wf.valid x (hitems ▸ Multiset.mem_cons_of_mem hx)
  refine ⟨entries, hshift,
    ⟨wf.sized, wf.opts_eq, hlength.trans wf.length_eq, hinv, hvalid, ?_⟩, hitems⟩
  have hcard := congrArg Multiset.card hitems
  rw [Multiset.card_cons, ← wf.size_eq] at hcard
  have hone : (1 : UInt32) ≤ tbl.header.size := by
    rw [UInt32.le_iff_toNat_le, hcard]
    exact Nat.le_add_left _ _
  rw [UInt32.toNat_sub_of_le _ _ hone, hcard]
  rfl

theorem setTableValue_spec {obj : Obj} (hobj : H.Valid obj)
    (hroom : (entryLayout.items tbl.entries).card < tbl.header.cap.toNat) :
    ∃ after, setTableValue tbl (some obj) = some (.ok, after) ∧ WellFormed H after ∧
      after.header.cap = tbl.header.cap ∧
      (H.keyOf obj ∉ (entryLayout.items tbl.entries).map H.keyOf ∧
          entryLayout.items after.entries = obj ::ₘ entryLayout.items tbl.entries ∨
        ∃ old rest, entryLayout.items tbl.entries = old ::ₘ rest ∧ H.keyOf old = H.keyOf obj ∧
          entryLayout.items after.entries = obj ::ₘ rest) := by
  have hsize : ¬ tbl.header.size ≥ tbl.header.cap := by
    rw [ge_iff_le, UInt32.le_iff_toNat_le, wf.size_eq]
    omega
  set elem : ObjtblEntry Obj := ⟨calchash tbl.header.opts obj, 0, obj⟩ with helem
  have hused : entryLayout.isEmpty elem = false := by
    simpa [entryLayout, helem] using calchash_ne_zero tbl.header.opts obj
  obtain ⟨room, hempty⟩ := exists_empty (L := entryLayout) (by rw [wf.length_eq]; exact hroom)
  have hplace := place_spec wf.inv wf.advances
    (fun curr => tbl.header.opts.cmpfunc obj curr.value == 0)
    (by
      intro n hfull
      rw [wf.cmpfunc_eq, beq_iff_eq, eq_comm (a := H.keyOf _)]
      exact (Hashing.keyOf_eq hobj (wf.valid _ (mem_items_slot wf.inv.pos hfull))).symm)
    hused rfl (wf.startPos_lt obj) hempty wf.length_eq.le
  have hitem : entryLayout.item elem = obj := rfl
  have hhome : H.home tbl.header wf.opts_eq (H.keyOf obj) = startPos tbl.header obj := rfl
  simp only [hitem, hhome] at hplace
  obtain ⟨hfresh, entries, hrun, hlength, hinv, hitems⟩ |
      ⟨position, last, hposition, hrun, hinv, old, rest, hitems, hold, hafter⟩ := hplace
  · refine ⟨⟨{ tbl.header with size := tbl.header.size + 1 }, entries⟩,
      by simp [setTableValue, hsize, ← helem, hrun],
      ⟨wf.sized, wf.opts_eq, hlength.trans wf.length_eq, hinv, ?_, ?_⟩, rfl,
      .inl ⟨hfresh, hitems⟩⟩
    · intro x hx
      obtain rfl | hold := Multiset.mem_cons.mp (hitems ▸ hx)
      · exact hobj
      · exact wf.valid x hold
    have hle := wf.sized.cap_le
    have hcard := congrArg Multiset.card hitems
    rw [Multiset.card_cons] at hcard
    rw [hcard, UInt32.toNat_add, wf.size_eq]
    exact Nat.mod_eq_of_lt (by change _ + 1 < 2 ^ 32; omega)
  · refine ⟨⟨tbl.header, tbl.entries.set position last⟩,
      by simp [setTableValue, hsize, ← helem, hrun],
      ⟨wf.sized, wf.opts_eq, by simpa using wf.length_eq, hinv, ?_, ?_⟩, rfl,
      .inr ⟨old, rest, hitems, hold, hafter⟩⟩
    · intro x hx
      obtain rfl | hrest := Multiset.mem_cons.mp (hafter ▸ hx)
      · exact hobj
      · exact wf.valid x (hitems ▸ Multiset.mem_cons_of_mem hrest)
    rw [hafter, wf.size_eq, hitems, Multiset.card_cons, Multiset.card_cons]

end

end WellFormed

theorem initTable_spec {nslots : UInt32} (hpos : 0 < nslots.toNat) (seed : UInt32) :
    2 ^ 31 < nslots.toNat ∧ initTable (H.opts seed) nslots = none ∨
    nslots.toNat ≤ 2 ^ 31 ∧ ∃ tbl, initTable (H.opts seed) nslots = some tbl ∧
      WellFormed H tbl ∧ entryLayout.items tbl.entries = 0 ∧
      nslots.toNat ≤ tbl.header.cap.toNat := by
  obtain ⟨hgt, hwrap⟩ | ⟨hle, hfits, hsized, hcap⟩ := sized_roundUp hpos
  · left
    exact ⟨hgt, by simp [initTable, initHeader, hwrap]⟩
  · right
    refine ⟨hle, _, by simp only [initTable, initHeader, if_neg hfits]; rfl, ?_,
      items_replicate_zero _, hcap⟩
    refine ⟨hsized, ⟨seed, rfl⟩, List.length_replicate, inv_replicate_zero hsized.cap_pos, ?_, ?_⟩
    · rw [items_replicate_zero]
      simp
    · rw [items_replicate_zero]
      rfl

theorem growStep_accepts : Accepts (@entryLayout Obj _) H.keyOf H.Valid growStep (WellFormed H)
    (fun tbl => entryLayout.items tbl.entries) (fun tbl => tbl.header.cap.toNat) where
  ignore := by
    intro table entry hempty
    have hzero : entry.hash = 0 := by simpa [entryLayout] using hempty
    simp [growStep, hzero]
  add := by
    intro table entry wf hfull hvalid hfresh hroom
    have hused : entry.hash ≠ 0 := by simpa [entryLayout] using hfull
    obtain ⟨after, hset, hwf, hcap, hcases⟩ := wf.setTableValue_spec hvalid hroom
    change setTableValue table (some entry.value) = _ at hset
    refine ⟨after, by simp [growStep, hused, hset], hwf, ?_, by rw [hcap]⟩
    obtain ⟨-, hitems⟩ | ⟨old, rest, hitems, hold, -⟩ := hcases
    · exact hitems
    · refine absurd ?_ hfresh
      rw [hitems, Multiset.map_cons, hold]
      exact Multiset.mem_cons_self _ _

theorem WellFormed.grow_spec {tbl : ObjtblCtx Obj} (wf : WellFormed H tbl) :
    tbl.header.cap.toNat = 2 ^ 31 ∧ grow tbl = some (.enomem, tbl) ∨
    2 * tbl.header.cap.toNat ≤ 2 ^ 31 ∧
      ∃ after, grow tbl = some (.ok, after) ∧ WellFormed H after ∧
        entryLayout.items after.entries = entryLayout.items tbl.entries ∧
        (entryLayout.items after.entries).card < after.header.cap.toNat := by
  obtain ⟨hmax, hwrap⟩ | ⟨hhalf, hfits, hdouble⟩ := wf.sized.double
  · left
    exact ⟨hmax, by simp [grow, hwrap]⟩
  · right
    refine ⟨hhalf, ?_⟩
    have hpos := wf.sized.cap_pos
    have hle := wf.card_le
    obtain ⟨seed, hseed⟩ := wf.opts_eq
    obtain ⟨hgt, -⟩ | ⟨-, table, hinit, hwf, hnone, hcap⟩ :=
      @initTable_spec _ H _ (tbl.header.cap <<< 1) (by omega) seed
    · omega
    · obtain ⟨after, hrun, hafter, hitems, hsame⟩ := growStep_accepts.foldlM tbl.entries hwf
        wf.valid (by simpa [hnone] using wf.inv.distinct) (by simp only [hnone, Multiset.card_zero]; omega)
      rw [hnone, zero_add] at hitems
      refine ⟨after, by simp [grow, hfits, hseed, hinit, hrun], hafter, hitems, ?_⟩
      rw [hitems]
      omega

variable (H)

structure Represents (tbl : ObjtblCtx Obj) (live : List Obj) : Prop
    extends WellFormed H tbl where
  items_eq : entryLayout.items tbl.entries = live

variable {H}

namespace Represents

variable {tbl : ObjtblCtx Obj} {live : List Obj}

section

variable (rep : Represents H tbl live)

include rep

theorem live_valid : ∀ x ∈ live, H.Valid x := by
  intro x hx
  apply rep.valid
  rw [rep.items_eq]
  exact Multiset.mem_coe.mpr hx

theorem distinct : ((live : Multiset Obj).map H.keyOf).Nodup := by
  rw [← rep.items_eq]
  exact rep.inv.distinct

theorem size_toNat : tbl.header.size.toNat = live.length := by
  rw [rep.size_eq, rep.items_eq, Multiset.coe_card]

theorem find_spec (hvalid : H.Valid key) :
    (H.keyOf key ∉ (live : Multiset Obj).map H.keyOf ∧
      findTableEntry tbl (some key) = some none) ∨
    ∃ index < tbl.entries.length, findTableEntry tbl (some key) = some (some index) ∧
      entryLayout.isEmpty (entryLayout.slot tbl.entries index) = false ∧
      H.keyOf (entryLayout.slot tbl.entries index).value = H.keyOf key ∧
      H.liveGet key live = some (entryLayout.slot tbl.entries index).value := by
  obtain ⟨habsent, hrun⟩ | ⟨index, hindex, hrun, hfull, hkey⟩ := rep.findTableEntry_spec hvalid
  · left
    rw [← rep.items_eq]
    exact ⟨habsent, hrun⟩
  · right
    have hmem := mem_items_slot rep.inv.pos hfull
    rw [rep.items_eq] at hmem
    exact ⟨index, hindex, hrun, hfull, hkey,
      Hashing.liveGet_eq_some rep.live_valid hvalid rep.distinct (Multiset.mem_coe.mp hmem) hkey⟩

theorem objtblGet_spec (hvalid : H.Valid key) :
    objtblGet tbl (some key) =
      some (if (H.liveGet key live).isSome then .ok else .enotfound, H.liveGet key live) := by
  obtain ⟨habsent, hrun⟩ | ⟨index, hindex, hrun, -, -, hget⟩ := rep.find_spec hvalid
  · simp [objtblGet, hrun, Hashing.liveGet_eq_none rep.live_valid hvalid habsent]
  · rw [hget, slot_of_lt hindex]
    simp [objtblGet, hrun]

theorem objtblGet_miss (hmiss : ∀ x ∈ live, H.cmpfunc key x ≠ 0) :
    objtblGet tbl (some key) = some (.enotfound, none) := by
  have hjudge : ∀ n d, findJudge tbl.header.opts key (entryLayout.slot tbl.entries n) d ≠ .found := by
    intro n d hfound
    unfold findJudge at hfound
    split at hfound
    · contradiction
    · rename_i hgoes
      split at hfound
      · rename_i hsame
        have hfull : entryLayout.isEmpty (entryLayout.slot tbl.entries n) = false := by
          simp only [entryLayout, beq_eq_false_iff_ne]
          exact fun hzero => hgoes (.inl hzero)
        have hmem := mem_items_slot rep.inv.pos hfull
        rw [rep.items_eq] at hmem
        rw [rep.cmpfunc_eq] at hsame
        exact hmiss _ (Multiset.mem_coe.mp hmem) hsame
      · contradiction
  have hstart := Nat.mod_eq_of_lt (rep.startPos_lt key)
  have hrun := probe_miss rep.inv.pos rep.advances hjudge (startPos tbl.header key)
    tbl.entries.length 0 tbl.header.cap.toNat (by omega) rep.inv.pos rep.length_eq.le
  rw [add_zero, hstart] at hrun
  have hfind : findTableEntry tbl (some key) = some none := hrun
  simp [objtblGet, hfind]

theorem objtblGet_congr {other : Obj}
    (hhash : ∀ seed, H.hashfunc key seed = H.hashfunc other seed)
    (hagree : ∀ x ∈ live, H.cmpfunc key x = 0 ↔ H.cmpfunc other x = 0) :
    objtblGet tbl (some key) = objtblGet tbl (some other) := by
  have hstart : startPos tbl.header key = startPos tbl.header other := by
    obtain ⟨seed, hseed⟩ := rep.opts_eq
    unfold startPos calchash
    rw [hseed]
    dsimp only [Hashing.opts]
    rw [hhash]
  have hjudge : ∀ n d, findJudge tbl.header.opts key (entryLayout.entryAt tbl.entries n) d =
      findJudge tbl.header.opts other (entryLayout.entryAt tbl.entries n) d := by
    intro n d
    unfold findJudge
    split
    · rfl
    · rename_i hgoes
      have hlt : n < tbl.entries.length := by
        by_contra hout
        apply hgoes
        rw [Layout.entryAt, List.getD_eq_default _ _ (not_lt.mp hout)]
        exact .inl rfl
      have hfull : entryLayout.isEmpty (entryLayout.slot tbl.entries n) = false := by
        rw [slot_of_lt hlt]
        simp only [entryLayout, beq_eq_false_iff_ne]
        exact fun hzero => hgoes (.inl hzero)
      have hmem := mem_items_slot rep.inv.pos hfull
      rw [rep.items_eq, slot_of_lt hlt] at hmem
      have hsame := hagree _ (Multiset.mem_coe.mp hmem)
      rw [rep.cmpfunc_eq]
      exact if_congr hsame rfl rfl
  have hfind : findTableEntry tbl (some key) = findTableEntry tbl (some other) := by
    unfold findTableEntry
    dsimp only
    rw [hstart]
    exact probe_congr hjudge _ _ _ _
  simp only [objtblGet, hfind]

theorem objtblContains_spec (hvalid : H.Valid key) :
    objtblContains tbl (some key) = some (H.liveGet key live).isSome := by
  obtain ⟨habsent, hrun⟩ | ⟨index, hindex, hrun, -, -, hget⟩ := rep.find_spec hvalid
  · simp [objtblContains, hrun, Hashing.liveGet_eq_none rep.live_valid hvalid habsent]
  · simp [objtblContains, hrun, hget]

theorem objtblRemove_spec (hvalid : H.Valid key) :
    ∃ after, objtblRemove tbl (some key) =
        some (if (H.liveGet key live).isSome then .ok else .enotfound, after) ∧
      Represents H after (H.liveRemove key live) := by
  obtain ⟨habsent, hrun⟩ | ⟨index, hindex, hrun, hfull, hkey, hget⟩ := rep.find_spec hvalid
  · refine ⟨tbl, by simp [objtblRemove, hrun, Hashing.liveGet_eq_none rep.live_valid hvalid habsent], ?_⟩
    rwa [Hashing.liveRemove_of_not_mem rep.live_valid hvalid habsent]
  · obtain ⟨entries, hshift, hwf, hitems⟩ := rep.remove_spec hindex hfull
    refine ⟨⟨{ tbl.header with size := tbl.header.size - 1 }, entries⟩,
      by simp [objtblRemove, hrun, hshift, hget], hwf, ?_⟩
    exact (Hashing.coe_liveRemove rep.live_valid hvalid (rep.items_eq.symm.trans hitems) hkey
      rep.distinct).symm

theorem set_spec {obj : Obj} (hvalid : H.Valid obj)
    (hroom : (entryLayout.items tbl.entries).card < tbl.header.cap.toNat) :
    ∃ after, setTableValue tbl (some obj) = some (.ok, after) ∧
      Represents H after (H.liveInsert obj live) := by
  obtain ⟨after, hset, hwf, -, hcases⟩ := rep.setTableValue_spec hvalid hroom
  refine ⟨after, hset, hwf, ?_⟩
  have hcons : (H.liveInsert obj live : Multiset Obj) = obj ::ₘ ↑(H.liveRemove obj live) := rfl
  rw [hcons]
  obtain ⟨hfresh, hitems⟩ | ⟨old, rest, hitems, hold, hafter⟩ := hcases
  · rw [rep.items_eq] at hfresh hitems
    rw [hitems, Hashing.liveRemove_of_not_mem rep.live_valid hvalid hfresh]
  · rw [hafter, Hashing.coe_liveRemove rep.live_valid hvalid (rep.items_eq.symm.trans hitems) hold
      rep.distinct]

theorem objtblInsert_spec {obj : Obj} (hvalid : H.Valid obj) :
    (maxKeys ≤ live.length ∧ objtblInsert tbl (some obj) = some (.enomem, tbl)) ∨
    (live.length < maxKeys ∧ ∃ after, objtblInsert tbl (some obj) = some (.ok, after) ∧
      Represents H after (H.liveInsert obj live)) := by
  have hlimit := rep.sized.limit_toNat
  have hsize := rep.size_toNat
  have hcard := rep.size_eq
  have hle := rep.card_le
  have hcap := rep.sized.cap_le
  unfold maxKeys
  by_cases hgrow : tbl.header.size ≥ tbl.header.rehashLimit
  · have hreached : tbl.header.cap.toNat - tbl.header.cap.toNat / 6 ≤ live.length := by
      rwa [ge_iff_le, UInt32.le_iff_toNat_le, hlimit, hsize] at hgrow
    obtain ⟨hmax, hrun⟩ | ⟨hhalf, grown, hrun, hwf, hitems, hroom⟩ := rep.grow_spec
    · left
      exact ⟨by omega, by simp [objtblInsert, hgrow, hrun]⟩
    · right
      have hgrown : Represents H grown live := ⟨hwf, hitems.trans rep.items_eq⟩
      obtain ⟨after, hset, hafter⟩ := hgrown.set_spec hvalid hroom
      exact ⟨by omega, after, by simp [objtblInsert, hgrow, hrun, hset], hafter⟩
  · right
    have hbelow : live.length < tbl.header.cap.toNat - tbl.header.cap.toNat / 6 := by
      rwa [ge_iff_le, UInt32.le_iff_toNat_le, hlimit, hsize, not_le] at hgrow
    obtain ⟨after, hset, hafter⟩ := rep.set_spec hvalid (by omega)
    exact ⟨by omega, after, by simp [objtblInsert, hgrow, hset], hafter⟩

theorem objtblCopy_eq : objtblCopy tbl = tbl := by
  unfold objtblCopy
  rw [← rep.length_eq, List.take_length]

end

end Represents

theorem objtblInit_spec (nslots seed : UInt32) :
    2 ^ 31 < nslots.toNat + nslots.toNat / 6 ∧ objtblInit (H.opts seed) nslots = none ∨
    nslots.toNat + nslots.toNat / 6 ≤ 2 ^ 31 ∧
      ∃ tbl, objtblInit (H.opts seed) nslots = some tbl ∧ Represents H tbl [] := by
  unfold objtblInit
  obtain ⟨hlarge, hwrap | ⟨hfits, hcap⟩⟩ | ⟨hsmall, hfits, hpos, hcap⟩ :=
    @initSlots_cases nslots _ rfl
  · left
    exact ⟨hlarge, if_pos hwrap⟩
  · left
    rw [if_neg hfits]
    obtain ⟨-, hnone⟩ | ⟨hle, -⟩ :=
      @initTable_spec _ H _ _ (lt_trans (by decide) hcap) seed
    · exact ⟨hlarge, hnone⟩
    · omega
  · right
    rw [if_neg hfits]
    obtain ⟨hgt, -⟩ | ⟨-, tbl, hinit, hwf, hitems, -⟩ := @initTable_spec _ H _ _ hpos seed
    · omega
    · exact ⟨hsmall, tbl, hinit, hwf, hitems⟩

def storedObjects (entries : List (ObjtblEntry Obj)) : List Obj :=
  (entries.filter fun entry => !entryLayout.isEmpty entry).map ObjtblEntry.value

theorem coe_storedObjects (entries : List (ObjtblEntry Obj)) :
    (storedObjects entries : Multiset Obj) = entryLayout.items entries := by
  induction entries with
  | nil => rfl
  | cons entry rest ih =>
    have hcons : entryLayout.items (entry :: rest) =
        entryLayout.payload entry + entryLayout.items rest := by simp [Layout.items]
    rw [hcons, ← ih]
    unfold storedObjects
    cases hempty : entryLayout.isEmpty entry with
    | true => simp [hempty, Layout.payload]
    | false =>
      simp only [hempty, Layout.payload, List.filter_cons_of_pos, Bool.not_false, List.map_cons,
        Bool.false_eq_true, if_false, Multiset.singleton_add]
      rfl

/-- With a callback that always continues, the loop visits every remaining
object; the counter `nseen` never stops it early. -/
theorem foreachLoop_spec {Data : Type} {func : Data → Obj → ℤ × Data}
    (hfunc : ∀ data obj, (func data obj).1 = 1) (size : UInt32)
    (entries : List (ObjtblEntry Obj)) : ∀ (nseen : UInt32) (data : Data),
      nseen.toNat + (storedObjects entries).length = size.toNat →
      foreachLoop size func entries nseen data =
        (0, (storedObjects entries).foldl (fun data obj => (func data obj).2) data) := by
  induction entries with
  | nil => exact fun _ _ _ => rfl
  | cons entry rest ih =>
    intro nseen data hcount
    have hlt := size.toNat_lt
    cases hempty : entryLayout.isEmpty entry with
    | true =>
      have hzero : entry.hash = 0 := by simpa [entryLayout] using hempty
      have hsame : storedObjects (entry :: rest) = storedObjects rest := by
        simp [storedObjects, hempty]
      rw [hsame] at hcount ⊢
      unfold foreachLoop
      rw [if_pos hzero]
      split
      · exact ih nseen data hcount
      · rename_i hdone
        rw [UInt32.lt_iff_toNat_lt] at hdone
        have hnil : storedObjects rest = [] := List.length_eq_zero_iff.mp (by omega)
        rw [hnil]
        rfl
    | false =>
      have hused : entry.hash ≠ 0 := by simpa [entryLayout] using hempty
      have hmore : storedObjects (entry :: rest) = entry.value :: storedObjects rest := by
        simp [storedObjects, hempty]
      rw [hmore, List.length_cons] at hcount
      have hgo : nseen < size := by
        rw [UInt32.lt_iff_toNat_lt]
        omega
      have hnext : (nseen + 1).toNat = nseen.toNat + 1 := by
        rw [UInt32.toNat_add]
        exact Nat.mod_eq_of_lt (by change _ + 1 < 2 ^ 32; omega)
      have hone := hfunc data entry.value
      rw [hmore, List.foldl_cons]
      unfold foreachLoop
      simp only [if_pos hgo, if_neg hused, hone, ne_eq, not_true_eq_false, if_false]
      exact ih (nseen + 1) _ (by omega)

theorem Represents.objtblForeach_spec {tbl : ObjtblCtx Obj} {live : List Obj}
    (rep : Represents H tbl live) :
    ∃ visited : List Obj, visited.Perm live ∧
      ∀ {Data : Type} (func : Data → Obj → ℤ × Data), (∀ data obj, (func data obj).1 = 1) →
        ∀ data, objtblForeach tbl func data =
          (0, visited.foldl (fun data obj => (func data obj).2) data) := by
  refine ⟨storedObjects tbl.entries, ?_, ?_⟩
  · rw [← Multiset.coe_eq_coe, coe_storedObjects, rep.items_eq]
  · intro Data func hfunc data
    unfold objtblForeach
    rw [← rep.length_eq, List.take_length]
    apply foreachLoop_spec hfunc
    rw [← Multiset.coe_card, coe_storedObjects, rep.size_eq]
    exact Nat.zero_add _

/-! Whole runs, over any number of tables addressed by handles. -/

inductive Call (Obj : Type) where
  | init (handle : ℕ) (nslots seed : UInt32)
  | insert (handle : ℕ) (obj : Obj)
  | get (handle : ℕ) (key : Obj)
  | contains (handle : ℕ) (key : Obj)
  | remove (handle : ℕ) (key : Obj)
  | copy (dst src : ℕ)
deriving DecidableEq

/-- What a call returns; `skipped` marks a call on a handle without a table,
which no caller makes. -/
inductive Reply (Obj : Type) where
  | code (code : ObjtblCode)
  | object (code : ObjtblCode) (value : Option Obj)
  | bool (present : Bool)
  | skipped
deriving DecidableEq

abbrev Tables (Obj : Type) := ℕ → Option (ObjtblCtx Obj)

/-- One call on the library; `none` is a call that does not return. -/
def call (H : Hashing Obj) (tables : Tables Obj) : Call Obj → Option (Reply Obj × Tables Obj)
  | .init handle nslots seed =>
    match objtblInit (H.opts seed) nslots with
    | none => some (.code .enomem, tables)
    | some tbl => some (.code .ok, Function.update tables handle (some tbl))
  | .insert handle obj =>
    match tables handle with
    | none => some (.skipped, tables)
    | some tbl => do
      let (code, tbl) ← objtblInsert tbl (some obj)
      pure (.code code, Function.update tables handle (some tbl))
  | .get handle key =>
    match tables handle with
    | none => some (.skipped, tables)
    | some tbl => do
      let (code, value) ← objtblGet tbl (some key)
      pure (.object code value, tables)
  | .contains handle key =>
    match tables handle with
    | none => some (.skipped, tables)
    | some tbl => do
      let present ← objtblContains tbl (some key)
      pure (.bool present, tables)
  | .remove handle key =>
    match tables handle with
    | none => some (.skipped, tables)
    | some tbl => do
      let (code, tbl) ← objtblRemove tbl (some key)
      pure (.code code, Function.update tables handle (some tbl))
  | .copy dst src =>
    match tables src with
    | none => some (.skipped, tables)
    | some tbl => some (.code .ok, Function.update tables dst (some (objtblCopy tbl)))

abbrev Lives (Obj : Type) := ℕ → Option (List Obj)

/-- The same call on lists of live objects. The two failures are those of
32-bit capacities: a request for more than `2 ^ 31` slots, and growth beyond
them. -/
def liveCall (H : Hashing Obj) (lives : Lives Obj) : Call Obj → Reply Obj × Lives Obj
  | .init handle nslots _ =>
    if 2 ^ 31 < nslots.toNat + nslots.toNat / 6 then (.code .enomem, lives)
    else (.code .ok, Function.update lives handle (some []))
  | .insert handle obj =>
    match lives handle with
    | none => (.skipped, lives)
    | some live =>
      if maxKeys ≤ live.length then (.code .enomem, lives)
      else (.code .ok, Function.update lives handle (some (H.liveInsert obj live)))
  | .get handle key =>
    match lives handle with
    | none => (.skipped, lives)
    | some live =>
      (.object (if (H.liveGet key live).isSome then .ok else .enotfound) (H.liveGet key live),
        lives)
  | .contains handle key =>
    match lives handle with
    | none => (.skipped, lives)
    | some live => (.bool (H.liveGet key live).isSome, lives)
  | .remove handle key =>
    match lives handle with
    | none => (.skipped, lives)
    | some live =>
      (.code (if (H.liveGet key live).isSome then .ok else .enotfound),
        Function.update lives handle (some (H.liveRemove key live)))
  | .copy dst src =>
    match lives src with
    | none => (.skipped, lives)
    | some live => (.code .ok, Function.update lives dst (some live))

def Call.Valid (H : Hashing Obj) : Call Obj → Prop
  | .init .. | .copy .. => True
  | .insert _ obj | .get _ obj | .contains _ obj | .remove _ obj => H.Valid obj

theorem call_refines (H : Hashing Obj) :
    Simulates (call H) (liveCall H) (fun _ next => next.Valid H) (Agree (Represents H)) := by
  intro tables lives next href hvalid
  cases next with
  | init handle nslots seed =>
    obtain ⟨hlarge, hnone⟩ | ⟨hfits, tbl, hinit, hrep⟩ := @objtblInit_spec _ H _ nslots seed
    · refine ⟨tables, by simp only [call, liveCall, hnone, if_pos hlarge], ?_⟩
      simp only [liveCall, if_pos hlarge]
      exact href
    · have hnot : ¬ 2 ^ 31 < nslots.toNat + nslots.toNat / 6 := by omega
      refine ⟨Function.update tables handle (some tbl),
        by simp only [call, liveCall, hinit, if_neg hnot], ?_⟩
      simp only [liveCall, if_neg hnot]
      exact href.update handle hrep
  | insert handle obj =>
    obtain ⟨htable, hlive⟩ | ⟨tbl, live, htable, hlive, hrep⟩ := href handle
    · exact ⟨tables, by simp [call, liveCall, htable, hlive],
        by simpa [liveCall, hlive] using href⟩
    · obtain ⟨hfull, hrun⟩ | ⟨hroom, after, hrun, hafter⟩ := hrep.objtblInsert_spec hvalid
      · refine ⟨Function.update tables handle (some tbl),
          by simp [call, liveCall, htable, hlive, hrun, hfull], ?_⟩
        simp only [liveCall, hlive, if_pos hfull]
        rw [← htable, Function.update_eq_self]
        exact href
      · have hnot : ¬ maxKeys ≤ live.length := by omega
        refine ⟨Function.update tables handle (some after),
          by simp [call, liveCall, htable, hlive, hrun, hnot], ?_⟩
        simp only [liveCall, hlive, if_neg hnot]
        exact href.update handle hafter
  | get handle key =>
    obtain ⟨htable, hlive⟩ | ⟨tbl, live, htable, hlive, hrep⟩ := href handle
    · exact ⟨tables, by simp [call, liveCall, htable, hlive],
        by simpa [liveCall, hlive] using href⟩
    · exact ⟨tables, by simp [call, liveCall, htable, hlive, hrep.objtblGet_spec hvalid],
        by simpa [liveCall, hlive] using href⟩
  | contains handle key =>
    obtain ⟨htable, hlive⟩ | ⟨tbl, live, htable, hlive, hrep⟩ := href handle
    · exact ⟨tables, by simp [call, liveCall, htable, hlive],
        by simpa [liveCall, hlive] using href⟩
    · exact ⟨tables, by simp [call, liveCall, htable, hlive, hrep.objtblContains_spec hvalid],
        by simpa [liveCall, hlive] using href⟩
  | remove handle key =>
    obtain ⟨htable, hlive⟩ | ⟨tbl, live, htable, hlive, hrep⟩ := href handle
    · exact ⟨tables, by simp [call, liveCall, htable, hlive],
        by simpa [liveCall, hlive] using href⟩
    · obtain ⟨after, hrun, hafter⟩ := hrep.objtblRemove_spec hvalid
      refine ⟨Function.update tables handle (some after),
        by simp [call, liveCall, htable, hlive, hrun], ?_⟩
      simp only [liveCall, hlive]
      exact href.update handle hafter
  | copy dst src =>
    obtain ⟨htable, hlive⟩ | ⟨tbl, live, htable, hlive, hrep⟩ := href src
    · exact ⟨tables, by simp [call, liveCall, htable, hlive],
        by simpa [liveCall, hlive] using href⟩
    · refine ⟨Function.update tables dst (some (objtblCopy tbl)),
        by simp [call, liveCall, htable, hlive], ?_⟩
      simp only [liveCall, hlive, hrep.objtblCopy_eq]
      exact href.update dst hrep

/-- Every sequence of calls returns with the replies of the same calls on lists
of live objects. In the end no two live objects are equivalent, the size field
counts them, and a full iteration visits each of them once. -/
theorem objtbl_refines_live_objects (H : Hashing Obj) (calls : List (Call Obj))
    (hcalls : ∀ next ∈ calls, next.Valid H) :
    ∃ tables, runCalls (call H) (fun _ => none) calls =
        some ((specCalls (liveCall H) (fun _ => none) calls).1, tables) ∧
      ∀ handle tbl, tables handle = some tbl →
        ∃ live, (specCalls (liveCall H) (fun _ => none) calls).2 handle = some live ∧
          (storedObjects tbl.entries).Perm live ∧
          (storedObjects tbl.entries).Pairwise (fun a b => H.cmpfunc a b ≠ 0) ∧
          tbl.header.size.toNat = live.length ∧
          ∃ visited : List Obj, visited.Perm live ∧
            ∀ {Data : Type} (func : Data → Obj → ℤ × Data),
              (∀ data obj, (func data obj).1 = 1) →
              ∀ data, objtblForeach tbl func data =
                (0, visited.foldl (fun data obj => (func data obj).2) data) := by
  obtain ⟨tables, hrun, href⟩ := (call_refines H).runCalls calls agree_none
    (admits_of_forall calls (fun _ => none) hcalls)
  refine ⟨tables, hrun, ?_⟩
  intro handle tbl htable
  obtain ⟨hnone, -⟩ | ⟨tbl', live, hsome, hlive, hrep⟩ := href handle
  · rw [htable] at hnone
    contradiction
  · obtain rfl : tbl = tbl' := Option.some.inj (htable.symm.trans hsome)
    have hperm : (storedObjects tbl.entries).Perm live := by
      rw [← Multiset.coe_eq_coe, coe_storedObjects, hrep.items_eq]
    refine ⟨live, hlive, hperm, ?_, hrep.size_toNat, hrep.objtblForeach_spec⟩
    apply Hashing.pairwise_of_nodup fun x hx => hrep.live_valid x (hperm.mem_iff.mp hx)
    rw [Multiset.coe_eq_coe.mpr hperm]
    exact hrep.distinct

/-- Pairs compared by their first component, all with the hash zero. -/
def collidingPairs : Hashing (ℕ × ℕ) where
  hashfunc _ _ := 0
  cmpfunc a b := (a.1 : ℤ) - b.1
  Valid _ := True
  refl a _ := by simp
  symm a b _ _ h := by omega
  trans a b c _ _ _ h h' := by omega
  hash_eq _ _ _ _ _ _ := rfl

/-- A run where every object collides: an equivalent object is replaced, the
table grows, a removal shifts the rest back, and the copy keeps its own. -/
theorem objtbl_refines_live_objects_run :
    ∃ tables, runCalls (call collidingPairs) (fun _ => none)
        [.init 0 1 7, .insert 0 (1, 10), .insert 0 (2, 20), .insert 0 (3, 30), .insert 0 (2, 21),
          .copy 1 0, .remove 0 (1, 0), .get 0 (1, 0), .get 0 (2, 0), .contains 1 (1, 0)] =
      some ([.code .ok, .code .ok, .code .ok, .code .ok, .code .ok, .code .ok, .code .ok,
        .object .enotfound none, .object .ok (some (2, 21)), .bool true], tables) := by
  obtain ⟨tables, hrun, -⟩ := objtbl_refines_live_objects collidingPairs
    [.init 0 1 7, .insert 0 (1, 10), .insert 0 (2, 20), .insert 0 (3, 30), .insert 0 (2, 21),
      .copy 1 0, .remove 0 (1, 0), .get 0 (1, 0), .get 0 (2, 0), .contains 1 (1, 0)]
    (by simp [Call.Valid, collidingPairs])
  refine ⟨tables, hrun.trans ?_⟩
  rfl

end Yans.Util.Objtbl
