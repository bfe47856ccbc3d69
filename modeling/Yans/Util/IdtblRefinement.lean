import Yans.Library.Refinement
import Yans.Library.RobinHood.Remove
import Yans.Util.Idtbl
import Mathlib.Data.Finmap

/-! An id table refines a finite map. `WellFormed` is the invariant of a table;
each operation keeps it and has a known effect on the stored items. From that,
`Represents` ties a table to the map it stands for, and whole runs follow by
induction over the calls. -/
namespace Yans.Util.Idtbl

open Library.RobinHood Library.Refinement TableSize

variable {Value : Type} [Inhabited Value]

abbrev IdMap (Value : Type) := Finmap fun _ : UInt32 => Value

variable {key : UInt32}

theorem succ_ne_zero (hkey : key ≠ uint32Max) : key + 1 ≠ 0 := by
  intro h
  apply hkey
  have hwrap : (0 : UInt32) - 1 = uint32Max := by decide
  rw [← hwrap, ← h, UInt32.add_sub_cancel]

theorem findJudge_judges (hkey : key ≠ 0) (table : List (IdtblEntry Value)) :
    Judges entryLayout Prod.fst table key (findJudge key) where
  found := by
    intro n d h
    set entry := entryLayout.slot table n
    have hsame : entry.key = key := by
      unfold findJudge at h
      by_contra hne
      rw [if_neg hne] at h
      split at h <;> contradiction
    exact ⟨by simp [entryLayout, hsame, hkey], hsame⟩
  hit := by
    intro n d _ hsame _
    exact if_pos hsame
  pass := by
    intro n d hfull hne hle
    set entry := entryLayout.slot table n
    have hused : entry.key ≠ 0 := by simpa [entryLayout] using hfull
    have hstop : ¬(entry.key = 0 ∨ entry.distance < d) := by
      rintro (hzero | hlt)
      · exact hused hzero
      · exact absurd hle (not_le.mpr hlt)
    exact (if_neg hne).trans (if_neg hstop)

structure WellFormed (ctx : IdtblCtx Value) : Prop where
  sized : Sized ctx.header.cap ctx.header.modmask ctx.header.rehashLimit
  length_eq : ctx.entries.length = ctx.header.cap.toNat
  inv : Inv entryLayout Prod.fst (startPos ctx.header) ctx.entries
  size_eq : ctx.header.size.toNat = (entryLayout.items ctx.entries).card

namespace WellFormed

variable {ctx : IdtblCtx Value}

section

variable (wf : WellFormed ctx)

include wf

theorem advances :
    Advances (nextIndex ctx.header) ctx.entries.length := by
  rw [wf.length_eq]
  exact wf.sized.advances

theorem startPos_lt (key : UInt32) :
    startPos ctx.header key < ctx.entries.length := by
  rw [wf.length_eq]
  exact wf.sized.index_lt _

theorem card_le :
    (entryLayout.items ctx.entries).card ≤ ctx.header.cap.toNat := by
  rw [← wf.length_eq]
  exact card_items_le ctx.entries

theorem findTableEntry_spec (hkey : key ≠ uint32Max) :
    (key + 1 ∉ (entryLayout.items ctx.entries).map Prod.fst ∧
      findTableEntry ctx key = some none) ∨
    ∃ index < ctx.entries.length, findTableEntry ctx key = some (some index) ∧
      entryLayout.isEmpty (entryLayout.slot ctx.entries index) = false ∧
      (entryLayout.slot ctx.entries index).key = key + 1 :=
  probe_spec wf.inv wf.advances (findJudge_judges (succ_ne_zero hkey) _) (wf.startPos_lt _)
    wf.length_eq.le

theorem remove_spec {index : ℕ} (hindex : index < ctx.entries.length)
    (hfull : entryLayout.isEmpty (entryLayout.slot ctx.entries index) = false) :
    ∃ entries, shift entryLayout (nextIndex ctx.header) ctx.header.cap.toNat ctx.entries index
        (nextIndex ctx.header (index + 1)) = some entries ∧
      WellFormed ⟨{ ctx.header with size := ctx.header.size - 1 }, entries⟩ ∧
      entryLayout.items ctx.entries =
        entryLayout.item (entryLayout.slot ctx.entries index) ::ₘ entryLayout.items entries := by
  obtain ⟨entries, hshift, hlength, hinv, hitems⟩ := shift_spec wf.inv wf.advances hindex hfull
    wf.length_eq.le
  refine ⟨entries, hshift, ⟨wf.sized, hlength.trans wf.length_eq, hinv, ?_⟩, hitems⟩
  have hcard := congrArg Multiset.card hitems
  rw [Multiset.card_cons, ← wf.size_eq] at hcard
  have hone : (1 : UInt32) ≤ ctx.header.size := by
    rw [UInt32.le_iff_toNat_le, hcard]
    exact Nat.le_add_left _ _
  rw [UInt32.toNat_sub_of_le _ _ hone, hcard]
  rfl

/-- `set_table_value` on a table with room never runs out of slots: a new key
is added, a known key has its value replaced. -/
theorem setTableValue_spec (value : Value)
    (hkey : key ≠ uint32Max)
    (hroom : (entryLayout.items ctx.entries).card < ctx.header.cap.toNat) :
    ∃ after, setTableValue ctx key value = some (.ok, after) ∧ WellFormed after ∧
      after.header.cap = ctx.header.cap ∧
      (key + 1 ∉ (entryLayout.items ctx.entries).map Prod.fst ∧
          entryLayout.items after.entries = (key + 1, value) ::ₘ entryLayout.items ctx.entries ∨
        ∃ old rest, entryLayout.items ctx.entries = old ::ₘ rest ∧ old.1 = key + 1 ∧
          entryLayout.items after.entries = (key + 1, value) ::ₘ rest) := by
  have hsize : ¬ ctx.header.size ≥ ctx.header.cap := by
    rw [ge_iff_le, UInt32.le_iff_toNat_le, wf.size_eq]
    omega
  have hused : entryLayout.isEmpty (⟨0, key + 1, value⟩ : IdtblEntry Value) = false := by
    simpa [entryLayout] using succ_ne_zero hkey
  obtain ⟨room, hempty⟩ := exists_empty (L := entryLayout)
    (by rw [wf.length_eq]; exact hroom)
  have hplace := place_spec wf.inv wf.advances (fun curr => curr.key == key + 1)
    (fun _ _ => beq_iff_eq) hused rfl (wf.startPos_lt _) hempty wf.length_eq.le
  have hitem : entryLayout.item (⟨0, key + 1, value⟩ : IdtblEntry Value) = (key + 1, value) := rfl
  simp only [hitem] at hplace
  obtain ⟨hfresh, entries, hrun, hlength, hinv, hitems⟩ |
      ⟨position, last, hposition, hrun, hinv, old, rest, hitems, hold, hafter⟩ := hplace
  · refine ⟨⟨{ ctx.header with size := ctx.header.size + 1 }, entries⟩,
      by simp [setTableValue, hkey, hsize, hrun],
      ⟨wf.sized, hlength.trans wf.length_eq, hinv, ?_⟩, rfl, .inl ⟨hfresh, hitems⟩⟩
    have hle := wf.sized.cap_le
    have hcard := congrArg Multiset.card hitems
    rw [Multiset.card_cons] at hcard
    rw [hcard, UInt32.toNat_add, wf.size_eq]
    exact Nat.mod_eq_of_lt (by change _ + 1 < 2 ^ 32; omega)
  · refine ⟨⟨ctx.header, ctx.entries.set position last⟩,
      by simp [setTableValue, hkey, hsize, hrun],
      ⟨wf.sized, by simpa using wf.length_eq, hinv, ?_⟩, rfl,
      .inr ⟨old, rest, hitems, hold, hafter⟩⟩
    rw [hafter, wf.size_eq, hitems, Multiset.card_cons, Multiset.card_cons]

end

end WellFormed

theorem initTable_spec {nslots : UInt32} (hpos : 0 < nslots.toNat) (seed : UInt32) :
    2 ^ 31 < nslots.toNat ∧ (initTable nslots seed : Option (IdtblCtx Value)) = none ∨
    nslots.toNat ≤ 2 ^ 31 ∧ ∃ ctx : IdtblCtx Value, initTable nslots seed = some ctx ∧
      WellFormed ctx ∧ entryLayout.items ctx.entries = 0 ∧
      nslots.toNat ≤ ctx.header.cap.toNat := by
  obtain ⟨hgt, hwrap⟩ | ⟨hle, hfits, hsized, hcap⟩ := sized_roundUp hpos
  · left
    exact ⟨hgt, by simp [initTable, initHeader, hwrap]⟩
  · right
    refine ⟨hle, _, by simp only [initTable, initHeader, if_neg hfits]; rfl, ?_,
      items_replicate_zero _, hcap⟩
    refine ⟨hsized, List.length_replicate, inv_replicate_zero hsized.cap_pos, ?_⟩
    rw [items_replicate_zero]
    rfl

theorem growStep_accepts : Accepts (@entryLayout Value _) Prod.fst (fun _ => True) growStep
    WellFormed (fun ctx => entryLayout.items ctx.entries) (fun ctx => ctx.header.cap.toNat) where
  ignore := by
    intro table entry hempty
    have hzero : entry.key = 0 := by simpa [entryLayout] using hempty
    simp [growStep, hzero]
  add := by
    intro table entry wf hfull _ hfresh hroom
    have hused : entry.key ≠ 0 := by simpa [entryLayout] using hfull
    have hstored : entry.key - 1 + 1 = entry.key := UInt32.sub_add_cancel _ _
    have hkey : entry.key - 1 ≠ uint32Max := by
      intro hmax
      apply hused
      rw [← hstored, hmax]
      decide
    obtain ⟨after, hset, hwf, hcap, hcases⟩ := wf.setTableValue_spec entry.value hkey hroom
    rw [hstored] at hcases
    refine ⟨after, by simp [growStep, hused, hset], hwf, ?_, by rw [hcap]⟩
    obtain ⟨-, hitems⟩ | ⟨old, rest, hitems, hold, -⟩ := hcases
    · exact hitems
    · refine absurd ?_ hfresh
      rw [hitems, Multiset.map_cons, hold]
      exact Multiset.mem_cons_self _ _

theorem WellFormed.grow_spec {ctx : IdtblCtx Value} (wf : WellFormed ctx) :
    ctx.header.cap.toNat = 2 ^ 31 ∧ grow ctx = some (.enomem, ctx) ∨
    2 * ctx.header.cap.toNat ≤ 2 ^ 31 ∧
      ∃ after, grow ctx = some (.ok, after) ∧ WellFormed after ∧
        entryLayout.items after.entries = entryLayout.items ctx.entries ∧
        (entryLayout.items after.entries).card < after.header.cap.toNat := by
  obtain ⟨hmax, hwrap⟩ | ⟨hhalf, hfits, hdouble⟩ := wf.sized.double
  · left
    exact ⟨hmax, by simp [grow, hwrap]⟩
  · right
    refine ⟨hhalf, ?_⟩
    have hpos := wf.sized.cap_pos
    have hle := wf.card_le
    obtain ⟨hgt, -⟩ | ⟨-, table, hinit, hwf, hnone, hcap⟩ := @initTable_spec Value _
      (ctx.header.cap <<< 1) (by omega) ctx.header.hashseed
    · omega
    · obtain ⟨after, hrun, hafter, hitems, hsame⟩ := growStep_accepts.foldlM ctx.entries hwf
        (fun _ _ => trivial) (by simpa [hnone] using wf.inv.distinct) (by simp only [hnone, Multiset.card_zero]; omega)
      rw [hnone, zero_add] at hitems
      refine ⟨after, by simp [grow, hfits, hinit, hrun], hafter, hitems, ?_⟩
      rw [hitems]
      omega

section Contents

variable {contents : IdMap Value} {items : Multiset (UInt32 × Value)}
  (hlookup : ∀ key value, contents.lookup key = some value ↔ (key + 1, value) ∈ items)
include hlookup

omit [Inhabited Value] in
theorem mem_iff_of_lookup (key : UInt32) :
    key ∈ contents ↔ key + 1 ∈ items.map Prod.fst := by
  rw [Finmap.mem_iff]
  constructor
  · rintro ⟨value, hvalue⟩
    exact Multiset.mem_map.mpr ⟨_, (hlookup key value).mp hvalue, rfl⟩
  · intro hmem
    obtain ⟨⟨stored, value⟩, hitem, hkey⟩ := Multiset.mem_map.mp hmem
    subst hkey
    exact ⟨value, (hlookup key value).mpr hitem⟩

omit [Inhabited Value] in
theorem card_keys_of_lookup (hnodup : (items.map Prod.fst).Nodup) :
    items.card = contents.keys.card := by
  have hkeys : contents.keys.val.map (· + 1) = items.map Prod.fst := by
    apply (Multiset.Nodup.ext _ hnodup).mpr
    · intro stored
      rw [Multiset.mem_map]
      constructor
      · rintro ⟨key, hkey, rfl⟩
        exact (mem_iff_of_lookup hlookup key).mp (Finmap.mem_keys.mp hkey)
      · intro hstored
        refine ⟨stored - 1, ?_, UInt32.sub_add_cancel _ _⟩
        apply Finmap.mem_keys.mpr
        rwa [mem_iff_of_lookup hlookup, UInt32.sub_add_cancel]
    · exact contents.keys.nodup.map fun a b h => (UInt32.add_left_inj 1).mp h
  rw [← Multiset.card_map Prod.fst, ← hkeys, Multiset.card_map]
  rfl

omit [Inhabited Value] in
theorem lookup_insert_iff {rest : Multiset (UInt32 × Value)} {value : Value}
    (hrest : ∀ k v, k ≠ key → ((k + 1, v) ∈ items ↔ (k + 1, v) ∈ rest))
    (hfresh : key + 1 ∉ rest.map Prod.fst) (k : UInt32) (v : Value) :
    (contents.insert key value).lookup k = some v ↔ (k + 1, v) ∈ (key + 1, value) ::ₘ rest := by
  rw [Multiset.mem_cons, Prod.mk.injEq, UInt32.add_left_inj]
  by_cases hk : k = key
  · subst hk
    rw [Finmap.lookup_insert, Option.some.injEq]
    refine ⟨fun h => .inl ⟨rfl, h.symm⟩, ?_⟩
    rintro (⟨-, rfl⟩ | hmem)
    · rfl
    · exact absurd (Multiset.mem_map_of_mem Prod.fst hmem) hfresh
  · rw [Finmap.lookup_insert_of_ne _ hk, hlookup, hrest k v hk]
    simp [hk]

end Contents

/-- The table stands for the finite map `contents`. -/
structure Represents (ctx : IdtblCtx Value) (contents : IdMap Value) : Prop
    extends WellFormed ctx where
  lookup_iff : ∀ key value, contents.lookup key = some value ↔
    (key + 1, value) ∈ entryLayout.items ctx.entries

namespace Represents

variable {ctx : IdtblCtx Value} {contents : IdMap Value}

theorem mem_iff (rep : Represents ctx contents) (key : UInt32) :
    key ∈ contents ↔ key + 1 ∈ (entryLayout.items ctx.entries).map Prod.fst :=
  mem_iff_of_lookup rep.lookup_iff key

theorem card_eq (rep : Represents ctx contents) :
    (entryLayout.items ctx.entries).card = contents.keys.card :=
  card_keys_of_lookup rep.lookup_iff rep.inv.distinct

theorem size_toNat (rep : Represents ctx contents) :
    ctx.header.size.toNat = contents.keys.card :=
  rep.size_eq.trans rep.card_eq

section

variable (rep : Represents ctx contents)

include rep

theorem find_spec (hkey : key ≠ uint32Max) :
    (key ∉ contents ∧ findTableEntry ctx key = some none) ∨
    ∃ index < ctx.entries.length, findTableEntry ctx key = some (some index) ∧
      entryLayout.isEmpty (entryLayout.slot ctx.entries index) = false ∧
      (entryLayout.slot ctx.entries index).key = key + 1 ∧ key ∈ contents ∧
      contents.lookup key = some (entryLayout.slot ctx.entries index).value := by
  obtain ⟨habsent, hrun⟩ | ⟨index, hindex, hrun, hfull, hstored⟩ := rep.findTableEntry_spec hkey
  · left
    rw [rep.mem_iff]
    exact ⟨habsent, hrun⟩
  · right
    have hlookup : contents.lookup key = some (entryLayout.slot ctx.entries index).value := by
      rw [rep.lookup_iff, ← hstored]
      exact mem_items_slot rep.inv.pos hfull
    exact ⟨index, hindex, hrun, hfull, hstored, Finmap.mem_iff.mpr ⟨_, hlookup⟩, hlookup⟩

theorem idtblGet_spec (hkey : key ≠ uint32Max) :
    idtblGet ctx key = some (if key ∈ contents then .ok else .enotfound, contents.lookup key) := by
  obtain ⟨habsent, hrun⟩ | ⟨index, hindex, hrun, _, _, hmem, hlookup⟩ := rep.find_spec hkey
  · rw [if_neg habsent, Finmap.lookup_eq_none.mpr habsent]
    simp [idtblGet, hrun]
  · rw [if_pos hmem, hlookup, slot_of_lt hindex]
    simp [idtblGet, hrun]

theorem idtblContains_spec (hkey : key ≠ uint32Max) : idtblContains ctx key = some
    (decide (key ∈ contents)) := by
  obtain ⟨habsent, hrun⟩ | ⟨index, _, hrun, _, _, hmem, _⟩ := rep.find_spec hkey
  · simp [idtblContains, hrun, habsent]
  · simp [idtblContains, hrun, hmem]

theorem idtblRemove_spec (hkey : key ≠ uint32Max) :
    ∃ after, idtblRemove ctx key =
        some (if key ∈ contents then .ok else .enotfound, after) ∧
      Represents after (contents.erase key) := by
  obtain ⟨habsent, hrun⟩ | ⟨index, hindex, hrun, hfull, hstored, hmem, -⟩ := rep.find_spec hkey
  · refine ⟨ctx, by simp [idtblRemove, hrun, habsent], ?_⟩
    have hsame : contents.erase key = contents := by
      apply Finmap.ext_lookup
      intro other
      by_cases hother : other = key
      · rw [hother, Finmap.lookup_erase, Finmap.lookup_eq_none.mpr habsent]
      · exact Finmap.lookup_erase_ne hother
    rwa [hsame]
  · obtain ⟨entries, hshift, hwf, hitems⟩ := rep.remove_spec hindex hfull
    refine ⟨⟨{ ctx.header with size := ctx.header.size - 1 }, entries⟩,
      by simp [idtblRemove, hrun, hshift, hmem], hwf, ?_⟩
    -- the removed item was the only one with this key
    have hnodup := rep.inv.distinct
    rw [hitems, Multiset.map_cons, Multiset.nodup_cons] at hnodup
    intro other value
    by_cases hother : other = key
    · subst hother
      rw [Finmap.lookup_erase]
      refine ⟨fun h => absurd h (by simp), fun h => absurd ?_ hnodup.1⟩
      have hkeyEq : (entryLayout.item (entryLayout.slot ctx.entries index)).1 = other + 1 :=
        hstored
      rw [hkeyEq]
      exact Multiset.mem_map_of_mem Prod.fst h
    · rw [Finmap.lookup_erase_ne hother, rep.lookup_iff, hitems, Multiset.mem_cons]
      refine or_iff_right ?_
      intro heq
      have hfst := congrArg Prod.fst heq
      exact hother ((UInt32.add_left_inj 1).mp (hfst.trans hstored))

theorem set_spec (value : Value)
    (hkey : key ≠ uint32Max)
    (hroom : (entryLayout.items ctx.entries).card < ctx.header.cap.toNat) :
    ∃ after, setTableValue ctx key value = some (.ok, after) ∧
      Represents after (contents.insert key value) := by
  obtain ⟨after, hset, hwf, -, hcases⟩ := rep.setTableValue_spec value hkey hroom
  refine ⟨after, hset, hwf, ?_⟩
  intro k v
  obtain ⟨hfresh, hitems⟩ | ⟨old, rest, hitems, hold, hafter⟩ := hcases
  · rw [hitems]
    exact lookup_insert_iff rep.lookup_iff (fun _ _ _ => Iff.rfl) hfresh k v
  · have hnodup := rep.inv.distinct
    rw [hitems, Multiset.map_cons, Multiset.nodup_cons, hold] at hnodup
    rw [hafter]
    refine lookup_insert_iff rep.lookup_iff ?_ hnodup.1 k v
    intro other v' hother
    rw [hitems, Multiset.mem_cons]
    refine or_iff_right ?_
    intro heq
    apply hother
    have hfst := congrArg Prod.fst heq
    exact (UInt32.add_left_inj 1).mp (hfst.trans hold)

theorem idtblInsert_spec (value : Value)
    (hkey : key ≠ uint32Max) :
    (maxKeys ≤ contents.keys.card ∧ idtblInsert ctx key value = some (.enomem, ctx)) ∨
    (contents.keys.card < maxKeys ∧ ∃ after, idtblInsert ctx key value = some (.ok, after) ∧
      Represents after (contents.insert key value)) := by
  have hlimit := rep.sized.limit_toNat
  have hsize := rep.size_toNat
  have hcard := rep.card_eq
  have hle := rep.card_le
  have hcap := rep.sized.cap_le
  unfold maxKeys
  by_cases hgrow : ctx.header.size ≥ ctx.header.rehashLimit
  · have hreached : ctx.header.cap.toNat - ctx.header.cap.toNat / 6 ≤ contents.keys.card := by
      rwa [ge_iff_le, UInt32.le_iff_toNat_le, hlimit, hsize] at hgrow
    obtain ⟨hmax, hrun⟩ | ⟨hhalf, grown, hrun, hwf, hitems, hroom⟩ := rep.grow_spec
    · left
      exact ⟨by omega, by simp [idtblInsert, hgrow, hrun]⟩
    · right
      have hgrown : Represents grown contents := ⟨hwf, by rw [hitems]; exact rep.lookup_iff⟩
      obtain ⟨after, hset, hafter⟩ := hgrown.set_spec value hkey hroom
      exact ⟨by omega, after, by simp [idtblInsert, hgrow, hrun, hset], hafter⟩
  · right
    have hbelow : contents.keys.card < ctx.header.cap.toNat - ctx.header.cap.toNat / 6 := by
      rwa [ge_iff_le, UInt32.le_iff_toNat_le, hlimit, hsize, not_le] at hgrow
    obtain ⟨after, hset, hafter⟩ := rep.set_spec value hkey (by omega)
    exact ⟨by omega, after, by simp [idtblInsert, hgrow, hset], hafter⟩

theorem idtblCopy_spec :
    Represents (idtblCopy ctx) contents := by
  have hsame : idtblCopy ctx = ctx := by
    unfold idtblCopy
    rw [← rep.length_eq, List.take_length]
  rwa [hsame]

end

end Represents

theorem idtblInit_spec (nslots seed : UInt32) :
    2 ^ 31 < nslots.toNat + nslots.toNat / 6 ∧
      (idtblInit nslots seed : Option (IdtblCtx Value)) = none ∨
    nslots.toNat + nslots.toNat / 6 ≤ 2 ^ 31 ∧
      ∃ ctx : IdtblCtx Value, idtblInit nslots seed = some ctx ∧ Represents ctx ∅ := by
  unfold idtblInit
  obtain ⟨hlarge, hwrap | ⟨hfits, hcap⟩⟩ | ⟨hsmall, hfits, hpos, hcap⟩ :=
    @initSlots_cases nslots _ rfl
  · left
    exact ⟨hlarge, if_pos hwrap⟩
  · left
    rw [if_neg hfits]
    obtain ⟨-, hnone⟩ | ⟨hle, -⟩ :=
      @initTable_spec Value _ _ (lt_trans (by decide) hcap) seed
    · exact ⟨hlarge, hnone⟩
    · omega
  · right
    rw [if_neg hfits]
    obtain ⟨hgt, -⟩ | ⟨-, ctx, hinit, hwf, hitems, -⟩ := @initTable_spec Value _ _ hpos seed
    · omega
    · refine ⟨hsmall, ctx, hinit, hwf, ?_⟩
      intro key value
      rw [hitems, Finmap.lookup_empty]
      simp

/-! Whole runs, over any number of tables addressed by handles. -/

inductive Call (Value : Type) where
  | init (handle : ℕ) (nslots seed : UInt32)
  | insert (handle : ℕ) (key : UInt32) (value : Value)
  | get (handle : ℕ) (key : UInt32)
  | contains (handle : ℕ) (key : UInt32)
  | remove (handle : ℕ) (key : UInt32)
  | copy (dst src : ℕ)
deriving DecidableEq

/-- What a call returns; `skipped` marks a call on a handle without a table,
which no caller makes. -/
inductive Reply (Value : Type) where
  | code (code : IdtblCode)
  | value (code : IdtblCode) (value : Option Value)
  | bool (present : Bool)
  | skipped
deriving DecidableEq

def Call.keyValid : Call Value → Bool
  | .init .. | .copy .. => true
  | .insert _ key _ | .get _ key | .contains _ key | .remove _ key => key != uint32Max

abbrev Tables (Value : Type) := ℕ → Option (IdtblCtx Value)

/-- One call on the library; `none` is a call that does not return. -/
def call (tables : Tables Value) : Call Value → Option (Reply Value × Tables Value)
  | .init handle nslots seed =>
    match idtblInit nslots seed with
    | none => some (.code .enomem, tables)
    | some ctx => some (.code .ok, Function.update tables handle (some ctx))
  | .insert handle key value =>
    match tables handle with
    | none => some (.skipped, tables)
    | some ctx => do
      let (code, ctx) ← idtblInsert ctx key value
      pure (.code code, Function.update tables handle (some ctx))
  | .get handle key =>
    match tables handle with
    | none => some (.skipped, tables)
    | some ctx => do
      let (code, value) ← idtblGet ctx key
      pure (.value code value, tables)
  | .contains handle key =>
    match tables handle with
    | none => some (.skipped, tables)
    | some ctx => do
      let present ← idtblContains ctx key
      pure (.bool present, tables)
  | .remove handle key =>
    match tables handle with
    | none => some (.skipped, tables)
    | some ctx => do
      let (code, ctx) ← idtblRemove ctx key
      pure (.code code, Function.update tables handle (some ctx))
  | .copy dst src =>
    match tables src with
    | none => some (.skipped, tables)
    | some ctx => some (.code .ok, Function.update tables dst (some (idtblCopy ctx)))

abbrev Maps (Value : Type) := ℕ → Option (IdMap Value)

/-- The same call on finite maps. The two failures are those of 32-bit
capacities: a request for more than `2 ^ 31` slots, and growth beyond them. -/
def mapCall (maps : Maps Value) : Call Value → Reply Value × Maps Value
  | .init handle nslots _ =>
    if 2 ^ 31 < nslots.toNat + nslots.toNat / 6 then (.code .enomem, maps)
    else (.code .ok, Function.update maps handle (some ∅))
  | .insert handle key value =>
    match maps handle with
    | none => (.skipped, maps)
    | some contents =>
      if maxKeys ≤ contents.keys.card then (.code .enomem, maps)
      else (.code .ok, Function.update maps handle (some (contents.insert key value)))
  | .get handle key =>
    match maps handle with
    | none => (.skipped, maps)
    | some contents =>
      (.value (if key ∈ contents then .ok else .enotfound) (contents.lookup key), maps)
  | .contains handle key =>
    match maps handle with
    | none => (.skipped, maps)
    | some contents => (.bool (decide (key ∈ contents)), maps)
  | .remove handle key =>
    match maps handle with
    | none => (.skipped, maps)
    | some contents =>
      (.code (if key ∈ contents then .ok else .enotfound),
        Function.update maps handle (some (contents.erase key)))
  | .copy dst src =>
    match maps src with
    | none => (.skipped, maps)
    | some contents => (.code .ok, Function.update maps dst (some contents))

theorem call_refines : Simulates (@call Value _) mapCall (fun _ next => next.keyValid)
    (Agree Represents) := by
  intro tables maps next href hkey
  cases next with
  | init handle nslots seed =>
    obtain ⟨hlarge, hnone⟩ | ⟨hfits, ctx, hinit, hrep⟩ :=
      @idtblInit_spec Value _ nslots seed
    · refine ⟨tables, by simp only [call, mapCall, hnone, if_pos hlarge], ?_⟩
      simp only [mapCall, if_pos hlarge]
      exact href
    · have hnot : ¬ 2 ^ 31 < nslots.toNat + nslots.toNat / 6 := by omega
      refine ⟨Function.update tables handle (some ctx),
        by simp only [call, mapCall, hinit, if_neg hnot], ?_⟩
      simp only [mapCall, if_neg hnot]
      exact href.update handle hrep
  | insert handle key value =>
    obtain ⟨htable, hmap⟩ | ⟨ctx, contents, htable, hmap, hrep⟩ := href handle
    · exact ⟨tables, by simp [call, mapCall, htable, hmap], by simpa [mapCall, hmap] using href⟩
    · obtain ⟨hfull, hrun⟩ | ⟨hroom, after, hrun, hafter⟩ :=
        hrep.idtblInsert_spec value (by simpa [Call.keyValid] using hkey)
      · refine ⟨Function.update tables handle (some ctx),
          by simp [call, mapCall, htable, hmap, hrun, hfull], ?_⟩
        simp only [mapCall, hmap, if_pos hfull]
        rw [← htable, Function.update_eq_self]
        exact href
      · have hnot : ¬ maxKeys ≤ contents.keys.card := by omega
        refine ⟨Function.update tables handle (some after),
          by simp [call, mapCall, htable, hmap, hrun, hnot], ?_⟩
        simp only [mapCall, hmap, if_neg hnot]
        exact href.update handle hafter
  | get handle key =>
    obtain ⟨htable, hmap⟩ | ⟨ctx, contents, htable, hmap, hrep⟩ := href handle
    · exact ⟨tables, by simp [call, mapCall, htable, hmap], by simpa [mapCall, hmap] using href⟩
    · have hrun := hrep.idtblGet_spec (by simpa [Call.keyValid] using hkey)
      exact ⟨tables, by simp [call, mapCall, htable, hmap, hrun],
        by simpa [mapCall, hmap] using href⟩
  | contains handle key =>
    obtain ⟨htable, hmap⟩ | ⟨ctx, contents, htable, hmap, hrep⟩ := href handle
    · exact ⟨tables, by simp [call, mapCall, htable, hmap], by simpa [mapCall, hmap] using href⟩
    · have hrun := hrep.idtblContains_spec (by simpa [Call.keyValid] using hkey)
      exact ⟨tables, by simp [call, mapCall, htable, hmap, hrun],
        by simpa [mapCall, hmap] using href⟩
  | remove handle key =>
    obtain ⟨htable, hmap⟩ | ⟨ctx, contents, htable, hmap, hrep⟩ := href handle
    · exact ⟨tables, by simp [call, mapCall, htable, hmap], by simpa [mapCall, hmap] using href⟩
    · obtain ⟨after, hrun, hafter⟩ :=
        hrep.idtblRemove_spec (by simpa [Call.keyValid] using hkey)
      refine ⟨Function.update tables handle (some after),
        by simp [call, mapCall, htable, hmap, hrun], ?_⟩
      simp only [mapCall, hmap]
      exact href.update handle hafter
  | copy dst src =>
    obtain ⟨htable, hmap⟩ | ⟨ctx, contents, htable, hmap, hrep⟩ := href src
    · exact ⟨tables, by simp [call, mapCall, htable, hmap], by simpa [mapCall, hmap] using href⟩
    · refine ⟨Function.update tables dst (some (idtblCopy ctx)),
        by simp [call, mapCall, htable, hmap], ?_⟩
      simp only [mapCall, hmap]
      exact href.update dst hrep.idtblCopy_spec

omit [Inhabited Value] in
theorem mapCall_no_full (maps : Maps Value) (next : Call Value) :
    (mapCall maps next).1 ≠ .code .efull ∧ (mapCall maps next).1 ≠ .code .enoslot := by
  cases next <;> simp only [mapCall] <;> (repeat' split) <;> simp

/-- Every sequence of calls on keys below `UINT32_MAX` returns, with exactly the
replies of the same calls on finite maps, and every table's size field counts
the keys of its map. -/
theorem idtbl_refines_finite_maps (calls : List (Call Value))
    (hkeys : ∀ next ∈ calls, next.keyValid = true) :
    ∃ tables, runCalls call (fun _ => none) calls =
        some ((specCalls mapCall (fun _ => none) calls).1, tables) ∧
      (∀ handle, (tables handle).map (fun ctx => ctx.header.size.toNat) =
        ((specCalls mapCall (fun _ => none) calls).2 handle).map
          (fun contents => contents.keys.card)) ∧
      ∀ reply ∈ (specCalls mapCall (fun _ => none) calls).1,
        reply ≠ .code .efull ∧ reply ≠ .code .enoslot := by
  obtain ⟨tables, hrun, href⟩ := call_refines.runCalls calls agree_none
    (admits_of_forall calls (fun _ => none) hkeys)
  refine ⟨tables, hrun, ?_, forall_reply_specCalls mapCall_no_full calls _⟩
  intro handle
  obtain ⟨htable, hmap⟩ | ⟨ctx, contents, htable, hmap, hrep⟩ := href handle
  · rw [htable, hmap]
    rfl
  · rw [htable, hmap, Option.map_some, Option.map_some, hrep.size_toNat]

/-- A run that fills a one-slot table, grows it twice, overwrites and removes. -/
theorem idtbl_refines_finite_maps_run :
    ∃ tables, runCalls (@call ℕ _) (fun _ => none)
        [.init 0 1 7, .insert 0 3 30, .insert 0 4 40, .insert 0 3 31, .copy 1 0, .remove 0 3,
          .get 0 3, .get 1 3, .contains 0 4] =
      some ([.code .ok, .code .ok, .code .ok, .code .ok, .code .ok, .code .ok,
        .value .enotfound none, .value .ok (some 31), .bool true], tables) := by
  obtain ⟨tables, hrun, -⟩ := @idtbl_refines_finite_maps ℕ _
    [.init 0 1 7, .insert 0 3 30, .insert 0 4 40, .insert 0 3 31, .copy 1 0, .remove 0 3,
      .get 0 3, .get 1 3, .contains 0 4] (by decide)
  refine ⟨tables, hrun.trans ?_⟩
  rfl

end Yans.Util.Idtbl
