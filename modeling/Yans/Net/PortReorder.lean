import Yans.Library.RoundRobin
import Yans.Net.PortSet
import Yans.Util.Reorder

/-! `port_r4ranges` of `lib/net/ports.c`: the ports of a set in another order.
The ranges take turns in the order of `rangemap`, and each range gives its ports
in the order of a generator. -/
namespace Yans.Net.Ports

open Library Library.Intervals Library.Cycles Library.RoundRobin Util

/-- `rs` is the set behind the pointer, as it is when the iterator is made. -/
structure PortR4ranges where
  rs : PortRanges
  nranges : ℕ
  ranges : List Reorder32
  rangemap : List ℤ
  mapindex : ℕ

/-- The generator of the range `i` of `rs`. -/
def initRange (rs : PortRanges) (i : ℕ) : Reorder32 :=
  reorder32Init (rangeAt rs i).start.toUInt32 (rangeAt rs i).end_.toUInt32

/-- `none` if the generator of the map does not return. -/
def portR4rangesReset (r4 : PortR4ranges) : Option PortR4ranges :=
  match reorderMap r4.nranges with
  | none => none
  | some rangemap =>
    some { r4 with rangemap := rangemap, ranges := (List.range r4.nranges).map (initRange r4.rs) }

/-- Allocation succeeds. Without ranges, or with too many, only the number of
ranges is set; the other fields are empty here. -/
def portR4rangesInit (rs : PortRanges) : Option (PortR4ranges × PortRanges) :=
  let rs := undirtify rs
  if rs.nranges = 0 ∨ rs.nranges > intMax then some (⟨.zero, rs.nranges, [], [], 0⟩, rs)
  else (portR4rangesReset ⟨rs, rs.nranges, [], [], 0⟩).map (·, rs)

/-- An entry of `ranges`; the index is always inside. -/
def r4range (ranges : List Reorder32) (i : ℕ) : Reorder32 := ranges.getD i (reorder32Init 0 0)

/-- The body after the range is found: its generator gives a port, or the range is
marked as used up. -/
def portR4rangesVisit (r4 : PortR4ranges) (curr mappedIndex : ℕ) :
    Option (Option UInt16 × PortR4ranges) :=
  match reorder32Next (r4range r4.ranges mappedIndex) with
  | none => none
  | some (none, range) =>
    some (none, { r4 with
      mapindex := curr, ranges := r4.ranges.set mappedIndex range,
      rangemap := r4.rangemap.set curr (-1) })
  | some (some res, range) =>
    some (some res.toUInt16, { r4 with
      mapindex := curr, ranges := r4.ranges.set mappedIndex range })

def portR4code : Code PortR4ranges Reorder32 UInt16 where
  map := PortR4ranges.rangemap
  cell := fun r4 => r4range r4.ranges
  index := PortR4ranges.mapindex
  reset := portR4rangesReset
  visit := portR4rangesVisit

/-- From the label `again` on, it is gone back to at most once for every range. -/
def portR4rangesNext (r4 : PortR4ranges) : Option (Option UInt16 × PortR4ranges) :=
  if r4.nranges = 0 then some (none, r4) else again portR4code r4.nranges (r4.nranges + 1) r4

/-- A turn of one range, which is used up one call after its last port. -/
def advanceRange (range : Reorder32) : Option (Option UInt16 × Option Reorder32) :=
  match reorder32Next range with
  | none => none
  | some (none, _) => some (none, none)
  | some (some res, range) => some (some res.toUInt16, some range)

/-- What holds during a cycle over `rs`. -/
structure Cycling (rs : PortRanges) (r4 : PortR4ranges) : Prop where
  rs_eq : r4.rs = rs
  nranges_eq : r4.nranges = rs.nranges
  length_map : r4.rangemap.length = rs.nranges
  length_ranges : r4.ranges.length = rs.nranges
  index_lt : r4.mapindex < rs.nranges
  map_lt : ∀ a ∈ r4.rangemap, a < rs.nranges
  distinct : Distinct r4.rangemap

variable {rs : PortRanges}

section

variable {r4 : PortR4ranges}

theorem Cycling.retire (h : Cycling rs r4) {curr i : ℕ} {range : Reorder32}
    (hcurr : curr < rs.nranges) :
    Cycling rs { r4 with
      mapindex := curr, ranges := r4.ranges.set i range,
      rangemap := r4.rangemap.set curr (-1) } where
  rs_eq := h.rs_eq
  nranges_eq := h.nranges_eq
  length_map := by rw [List.length_set, h.length_map]
  length_ranges := by rw [List.length_set, h.length_ranges]
  index_lt := hcurr
  map_lt := by
    intro a ha
    obtain ha | rfl := List.mem_or_eq_of_mem_set ha
    · exact h.map_lt a ha
    · omega
  distinct := distinct_retire h.distinct curr

theorem Cycling.advance (h : Cycling rs r4) {curr i : ℕ} {range : Reorder32}
    (hcurr : curr < rs.nranges) :
    Cycling rs { r4 with mapindex := curr, ranges := r4.ranges.set i range } where
  rs_eq := h.rs_eq
  nranges_eq := h.nranges_eq
  length_map := h.length_map
  length_ranges := by rw [List.length_set, h.length_ranges]
  index_lt := hcurr
  map_lt := h.map_lt
  distinct := h.distinct

end

theorem portR4code_follows (rs : PortRanges) :
    Follows portR4code advanceRange rs.nranges (Cycling rs) where
  length_map := fun r4 h => h.length_map
  index_lt := fun r4 h => h.index_lt
  distinct := fun r4 h => h.distinct
  visit := by
    intro r4 curr a out rest h hcurr hget ha hadvance
    have hinside : a.toNat < r4.ranges.length := by
      have hbound := h.map_lt a (List.mem_of_getElem? hget)
      rw [h.length_ranges]
      omega
    change advanceRange (r4range r4.ranges a.toNat) = some (out, rest) at hadvance
    unfold advanceRange at hadvance
    change _ ∧ ∃ r4', portR4rangesVisit r4 curr a.toNat = some (out, r4') ∧ _
    unfold portR4rangesVisit
    cases hnext : reorder32Next (r4range r4.ranges a.toNat) with
    | none =>
      rw [hnext] at hadvance
      exact absurd hadvance (by simp)
    | some result =>
      obtain ⟨res, range⟩ := result
      rw [hnext] at hadvance
      cases res with
      | none =>
        cases hadvance
        exact ⟨fun _ => rfl, _, rfl, h.retire hcurr, rfl, fun k hk => getD_set_ne hk, rfl⟩
      | some res =>
        cases hadvance
        exact ⟨fun hnone => absurd hnone (by simp), _, rfl, h.advance hcurr, rfl,
          fun k hk => getD_set_ne hk, rfl, getD_set_self hinside⟩

structure Fresh (rs : PortRanges) (r4 : PortR4ranges) : Prop extends Cycling rs r4 where
  map_perm : r4.rangemap.Perm ((List.range rs.nranges).map Int.ofNat)
  ranges_eq : r4.ranges = (List.range rs.nranges).map (initRange rs)

theorem portR4rangesReset_fresh {r4 : PortR4ranges} (hle : rs.nranges ≤ intMax)
    (hrs : r4.rs = rs) (hn : r4.nranges = rs.nranges) (hindex : r4.mapindex < rs.nranges) :
    ∃ r4', portR4rangesReset r4 = some r4' ∧ Fresh rs r4' := by
  obtain ⟨map, hmap, hperm⟩ := reorderMap_spec (Nat.zero_lt_of_lt hindex) hle
  unfold portR4rangesReset
  rw [hn, hmap, hrs]
  refine ⟨_, rfl, ⟨⟨rfl, rfl, ?_, ?_, hindex, ?_, distinct_of_perm hperm⟩, hperm, rfl⟩⟩
  · rw [hperm.length_eq, List.length_map, List.length_range]
  · rw [List.length_map, List.length_range]
  · exact fun a ha => (bounds_of_perm hperm ha).2

theorem drains_of_cycle {range range' : Reorder32} {items : List UInt32}
    (h : Cycle reorder32Next range items range') :
    Drains advanceRange range (items.map UInt32.toUInt16) := by
  induction h with
  | @finish range _ h =>
    have hstop : advanceRange range = some (none, none) := by rw [advanceRange, h]
    exact Drains.stop hstop
  | item h hrest ih =>
    refine Drains.item ?_ ih
    rw [advanceRange, h]

/-- The ports of the range `i`, one after the other. -/
def portsOfRange (rs : PortRanges) (i : ℕ) : List UInt16 :=
  (List.range' (rangeAt rs i).lo ((rangeAt rs i).hi + 1 - (rangeAt rs i).lo)).map UInt16.ofNat

theorem initRange_drains {i : ℕ} (hproper : (rangeAt rs i).lo ≤ (rangeAt rs i).hi) :
    ∃ items, Drains advanceRange (initRange rs i) items ∧ items.Perm (portsOfRange rs i) := by
  unfold initRange portsOfRange
  unfold PortRange.lo PortRange.hi at *
  generalize rangeAt rs i = r at hproper ⊢
  have hend := r.end_.toNat_lt
  have hrange : (closedRange r.start.toUInt32 r.end_.toUInt32).map UInt32.toUInt16 =
      (List.range' r.start.toNat (r.end_.toNat + 1 - r.start.toNat)).map UInt16.ofNat := by
    rw [closedRange, UInt16.toNat_toUInt32, UInt16.toNat_toUInt32, Nat.min_eq_left hproper,
      Nat.max_eq_right hproper, List.map_map]
    apply List.map_congr_left
    intro v hv
    rw [Function.comp_apply, ← UInt16.toNat_inj, UInt32.toNat_toUInt16, UInt32.toNat_ofNat',
      UInt16.toNat_ofNat']
    omega
  obtain ⟨items, hcycle, hperm⟩ := @reorder32_cycle r.start.toUInt32 r.end_.toUInt32 (by
    rw [UInt16.toNat_toUInt32, UInt16.toNat_toUInt32]
    omega)
  rw [← hrange]
  exact ⟨_, drains_of_cycle hcycle, hperm.map _⟩

theorem fresh_cycle {r4 : PortR4ranges} (hle : rs.nranges ≤ intMax)
    (hproper : ∀ i < rs.nranges, (rangeAt rs i).lo ≤ (rangeAt rs i).hi) (h : Fresh rs r4) :
    ∃ run r4', Cycle portR4rangesNext r4 run r4' ∧
      run.Perm ((List.range rs.nranges).flatMap (portsOfRange rs)) ∧ Fresh rs r4' := by
  have hdrains : ∀ i : ℕ, ∃ items, i < rs.nranges →
      Drains advanceRange (r4range r4.ranges i) items ∧ items.Perm (portsOfRange rs i) := by
    intro i
    by_cases hi : i < rs.nranges
    · obtain ⟨items, hitems, hperm⟩ := initRange_drains (hproper i hi)
      have hrange : r4range r4.ranges i = initRange rs i := by
        rw [r4range, h.ranges_eq, getD_map_range hi]
      rw [← hrange] at hitems
      exact ⟨items, fun _ => ⟨hitems, hperm⟩⟩
    · exact ⟨[], fun hi' => absurd hi' hi⟩
  choose items hitems using hdrains
  have hcall : ∀ r4, Cycling rs r4 →
      portR4rangesNext r4 = again portR4code rs.nranges (rs.nranges + 1) r4 := by
    intro r4 h
    have hpos := Nat.zero_lt_of_lt h.index_lt
    rw [portR4rangesNext, h.nranges_eq, if_neg hpos.ne']
  obtain ⟨run, r4', hcycle, hrun, hfresh⟩ := code_cycle (portR4code_follows rs) hcall
    (fun r4 h => portR4rangesReset_fresh hle h.rs_eq h.nranges_eq h.index_lt) h.toCycling h.map_perm
    (fun i hi => (hitems i hi).1)
  refine ⟨run, r4', hcycle, hrun.trans ?_, hfresh⟩
  apply List.Perm.flatMap_left
  intro i hi
  exact (hitems i (List.mem_range.mp hi)).2

theorem flatMap_portsOfRange (h : rs.nranges ≤ rs.cap) :
    (List.range rs.nranges).flatMap (portsOfRange rs) = ports rs := by
  rw [ports, elements, entries_eq_map h, List.flatMap_map, List.map_flatMap]
  rfl

/-- After `port_r4ranges_init`, each of any number of cycles gives every port of
the set once and no other port. -/
theorem port_r4ranges_permutation {rs : PortRanges} (hvalid : Valid rs) (hne : rs.nranges ≠ 0) :
    ∃ r4 rs', portR4rangesInit rs = some (r4, rs') ∧
      ∀ n, ∃ runs final, Chain portR4rangesNext r4 runs final ∧ runs.length = n ∧
        ∀ run ∈ runs, run.Nodup ∧ ∀ port : UInt16,
          port ∈ run ↔ Covers PortRange.lo PortRange.hi rs.entries port.toNat := by
  obtain ⟨hused, hclean, hsame⟩ := undirtify_valid hvalid
  have hgapped := hused.gapped hclean
  have hle : (undirtify rs).nranges ≤ intMax := by
    rw [← length_entries hused.nranges_le]
    exact (length_entries_le hgapped hused.proper).trans (by decide)
  have hpos := Nat.pos_of_ne_zero (hsame.nranges_ne hne)
  obtain ⟨r4, hreset, hfresh⟩ := @portR4rangesReset_fresh (undirtify rs)
    ⟨undirtify rs, (undirtify rs).nranges, [], [], 0⟩ hle rfl rfl hpos
  refine ⟨r4, undirtify rs, ?_, fun n => ?_⟩
  · unfold portR4rangesInit
    rw [if_neg, hreset]
    · rfl
    · omega
  · apply chain_of_invariant _ n r4 hfresh
    intro r4 hfresh
    have hproper : ∀ i < (undirtify rs).nranges,
        (rangeAt (undirtify rs) i).lo ≤ (rangeAt (undirtify rs) i).hi := by
      intro i hi
      apply hused.proper
      rw [entries_eq_map hused.nranges_le]
      exact List.mem_map_of_mem (List.mem_range.mpr hi)
    obtain ⟨run, r4', hcycle, hperm, hfresh'⟩ := fresh_cycle hle hproper hfresh
    rw [flatMap_portsOfRange hused.nranges_le] at hperm
    refine ⟨run, r4', hcycle, ⟨hperm.nodup_iff.mpr (nodup_ports hgapped), fun port => ?_⟩, hfresh'⟩
    rw [hperm.mem_iff, mem_ports, hsame.covers]

/-- Port 7 and the ports from 1 to 3. -/
theorem port_r4ranges_permutation_two :
    ∃ r4 rs', portR4rangesInit (portRangesAddRange (portRangesAddPort .zero 7) ⟨1, 3⟩) =
        some (r4, rs') ∧
      ∀ n, ∃ runs final, Chain portR4rangesNext r4 runs final ∧ runs.length = n ∧
        ∀ run ∈ runs, run.Nodup ∧ ∀ port : UInt16,
          port ∈ run ↔ Covers PortRange.lo PortRange.hi [⟨7, 7⟩, ⟨1, 3⟩] port.toNat := by
  have hport : Valid (portRangesAddPort .zero 7) :=
    (portRangesAddRange_spec zero_valid (Nat.le_refl _)).1
  exact port_r4ranges_permutation (portRangesAddRange_spec hport (by decide)).1 (by decide)

end Yans.Net.Ports
