import Yans.Net.PortText
import Mathlib.Data.Set.Basic

/-! Whole histories of port sets. Every call keeps the entries proper, and a set
that is not dirty is in normal form; what a set covers is what it was given since
it was last initialised. -/
namespace Yans.Net.Ports

open Library Library.Memory Library.Intervals

def PortRange.lo (r : PortRange) : ℕ := r.start.toNat

def PortRange.hi (r : PortRange) : ℕ := r.end_.toNat

structure Valid (rs : PortRanges) : Prop where
  nranges_le : rs.nranges ≤ rs.cap
  proper : Proper PortRange.lo PortRange.hi rs.entries
  gapped : rs.dirty = false → Gapped PortRange.lo PortRange.hi rs.entries
  nranges_ne : rs.dirty = true → rs.nranges ≠ 0

theorem joining : Joining PortRange.lo PortRange.hi joins absorb where
  joins_iff := by
    intro a b
    simp only [joins, PortRange.lo, PortRange.hi, ge_iff_le, decide_eq_true_eq]
  lo_absorb := by
    intro a b
    unfold absorb
    split <;> rfl
  hi_absorb := by
    intro a b
    unfold absorb PortRange.hi
    split
    · rename_i h
      rw [gt_iff_lt, UInt16.lt_iff_toNat_lt] at h
      exact (Nat.max_eq_right (Nat.le_of_lt h)).symm
    · rename_i h
      rw [gt_iff_lt, UInt16.lt_iff_toNat_lt] at h
      exact (Nat.max_eq_left (Nat.le_of_not_lt h)).symm
  absorb_of_le := by
    intro a b h
    unfold absorb
    rw [if_neg]
    rw [gt_iff_lt, UInt16.lt_iff_toNat_lt]
    exact Nat.not_lt_of_le h

theorem qsort_perm (ranges : List PortRange) : (qsort ranges).Perm ranges :=
  List.perm_insertionSort _ _

theorem rangecmp_le {r₀ r₁ : PortRange} :
    rangecmp r₀ r₁ ≤ 0 ↔ r₀.lo < r₁.lo ∨ (r₀.lo = r₁.lo ∧ r₀.hi ≤ r₁.hi) := by
  unfold rangecmp PortRange.lo PortRange.hi
  split
  · rename_i h
    rw [h]
    omega
  · rename_i h
    rw [← UInt16.toNat_inj] at h
    omega

theorem qsort_sorted (ranges : List PortRange) : SortedByLo PortRange.lo (qsort ranges) := by
  apply (pairwise_insertionSort rangecmp (fun _ _ => rangecmp_le) ranges).imp
  intro r₀ r₁ h
  rw [rangecmp_le] at h
  omega

variable {rs : PortRanges}

theorem length_entries (h : rs.nranges ≤ rs.cap) :
    rs.entries.length = rs.nranges := by
  rw [PortRanges.entries, List.length_take]
  exact Nat.min_eq_left h

theorem entries_eq_map (h : rs.nranges ≤ rs.cap) :
    rs.entries = (List.range rs.nranges).map (rangeAt rs) := by
  apply List.ext_getElem?
  intro i
  rw [PortRanges.entries, List.getElem?_take, List.getElem?_map]
  by_cases hi : i < rs.nranges
  · have hlt : i < rs.ranges.length := Nat.lt_of_lt_of_le hi h
    rw [if_pos hi, List.getElem?_range hi, List.getElem?_eq_getElem hlt, Option.map_some, rangeAt,
      List.getD_eq_getElem?_getD, List.getElem?_eq_getElem hlt]
    rfl
  · rw [if_neg hi, List.getElem?_eq_none (by simpa using hi)]
    rfl

def ports (rs : PortRanges) : List UInt16 :=
  (elements PortRange.lo PortRange.hi rs.entries).map UInt16.ofNat

theorem lt_of_covers {entries : List PortRange} {n : ℕ}
    (h : Covers PortRange.lo PortRange.hi entries n) : n < 65536 := by
  obtain ⟨e, -, -, hle⟩ := h
  exact Nat.lt_of_le_of_lt hle e.end_.toNat_lt

theorem mem_ports (rs : PortRanges) (port : UInt16) :
    port ∈ ports rs ↔ Covers PortRange.lo PortRange.hi rs.entries port.toNat := by
  rw [ports, List.mem_map, ← mem_elements]
  constructor
  · rintro ⟨n, hn, rfl⟩
    have hlt := lt_of_covers ((mem_elements _ _).mp hn)
    rwa [UInt16.toNat_ofNat', Nat.mod_eq_of_lt hlt]
  · exact fun h => ⟨port.toNat, h, UInt16.ofNat_toNat⟩

theorem pairwise_ports (h : Gapped PortRange.lo PortRange.hi rs.entries) :
    (ports rs).Pairwise (· < ·) := by
  rw [ports, List.pairwise_map]
  apply (elements_pairwise h).imp_of_mem
  intro n m hn hm hlt
  have hnlt := lt_of_covers ((mem_elements _ _).mp hn)
  have hmlt := lt_of_covers ((mem_elements _ _).mp hm)
  rwa [UInt16.lt_iff_toNat_lt, UInt16.toNat_ofNat', UInt16.toNat_ofNat', Nat.mod_eq_of_lt hnlt,
    Nat.mod_eq_of_lt hmlt]

theorem nodup_ports (h : Gapped PortRange.lo PortRange.hi rs.entries) :
    (ports rs).Nodup := by
  apply (pairwise_ports h).imp
  intro n m hlt heq
  rw [heq, UInt16.lt_iff_toNat_lt] at hlt
  exact Nat.lt_irrefl _ hlt

theorem length_entries_le {entries : List PortRange}
    (hgapped : Gapped PortRange.lo PortRange.hi entries)
    (hproper : Proper PortRange.lo PortRange.hi entries) : entries.length ≤ 65536 := by
  have hsub : elements PortRange.lo PortRange.hi entries ⊆ List.range 65536 := by
    intro n hn
    exact List.mem_range.mpr (lt_of_covers ((mem_elements _ _).mp hn))
  have hnodup : (elements PortRange.lo PortRange.hi entries).Nodup :=
    (elements_pairwise hgapped).imp fun h => Nat.ne_of_lt h
  have hlen := (List.subperm_of_subset hnodup hsub).length_le
  rw [List.length_range] at hlen
  exact (length_le_elements hproper).trans hlen

theorem undirtifyAlways_spec (hle : rs.nranges ≤ rs.cap)
    (hne : rs.nranges ≠ 0) (hproper : Proper PortRange.lo PortRange.hi rs.entries) :
    ∃ merged tail, (undirtifyAlways rs) = { rs with
        ranges := merged ++ tail ++ rs.ranges.drop rs.nranges, nranges := merged.length,
        dirty := false } ∧
      (merged ++ tail).length = rs.nranges ∧ merged ≠ [] ∧ (∀ e ∈ tail, e ∈ rs.entries) ∧
      Gapped PortRange.lo PortRange.hi merged ∧ Proper PortRange.lo PortRange.hi merged ∧
      ∀ n, Covers PortRange.lo PortRange.hi merged n ↔
        Covers PortRange.lo PortRange.hi rs.entries n := by
  have hperm := qsort_perm rs.entries
  have hlen : (qsort rs.entries).length = rs.nranges := by
    rw [hperm.length_eq, length_entries hle]
  have hsorted := qsort_sorted rs.entries
  have hproper' : Proper PortRange.lo PortRange.hi (qsort rs.entries) :=
    fun e he => hproper e (hperm.mem_iff.mp he)
  have hnil : qsort rs.entries ≠ [] := by
    intro h
    rw [h] at hlen
    exact hne hlen.symm
  obtain ⟨tail, hcompact, htail, hcount⟩ := @compact_scan_spec _ _ _ (qsort rs.entries) _ _
    joining (rs.ranges.drop rs.nranges) hnil hsorted hproper'
  obtain ⟨hgapped, hmerged, hcovers⟩ := merge_spec joining hsorted hproper'
  refine ⟨_, tail, ?_, hcount.trans hlen, Compaction.merge_ne_nil hnil,
    fun e he => hperm.mem_iff.mp (htail e he), hgapped, hmerged,
    fun n => (hcovers n).trans (covers_perm hperm n)⟩
  unfold undirtifyAlways compressRanges
  rw [hlen] at hcompact
  rw [← PortRanges.entries]
  dsimp only
  rw [hcompact]

/-- `after` covers what `before` did, in no more entries. -/
structure SamePorts (before after : PortRanges) : Prop where
  covers : ∀ n, Covers PortRange.lo PortRange.hi after.entries n ↔
    Covers PortRange.lo PortRange.hi before.entries n
  nranges_le : after.nranges ≤ before.nranges
  nranges_ne : before.nranges ≠ 0 → after.nranges ≠ 0

theorem SamePorts.refl (rs : PortRanges) : SamePorts rs rs :=
  ⟨fun _ => Iff.rfl, Nat.le_refl _, id⟩

theorem SamePorts.trans {a b c : PortRanges} (hab : SamePorts a b) (hbc : SamePorts b c) :
    SamePorts a c where
  covers n := (hbc.covers n).trans (hab.covers n)
  nranges_le := hbc.nranges_le.trans hab.nranges_le
  nranges_ne h := hbc.nranges_ne (hab.nranges_ne h)

theorem undirtify_valid (hvalid : Valid rs) :
    Valid (undirtify rs) ∧ (undirtify rs).dirty = false ∧ SamePorts rs (undirtify rs) := by
  unfold undirtify
  split
  · rename_i hdirty
    obtain ⟨merged, tail, hrs, hlen, hne, -, hgapped, hproper, hcovers⟩ :=
      undirtifyAlways_spec hvalid.nranges_le (hvalid.nranges_ne hdirty) hvalid.proper
    have hentries : (undirtifyAlways rs).entries = merged := by
      rw [hrs, PortRanges.entries, List.append_assoc, List.take_left]
    rw [List.length_append] at hlen
    refine ⟨⟨?_, ?_, ?_, ?_⟩, ?_, ?_, ?_, ?_⟩
    · rw [hrs]
      simp only [PortRanges.cap, List.length_append]
      omega
    · rwa [hentries]
    · rw [hentries]
      exact fun _ => hgapped
    · rw [hrs]
      exact fun h => absurd h Bool.false_ne_true
    · rw [hrs]
    · rwa [hentries]
    · rw [hrs]
      dsimp only
      omega
    · rw [hrs]
      exact fun _ => (List.length_pos_iff.mpr hne).ne'
  · rename_i hclean
    rw [Bool.not_eq_true] at hclean
    exact ⟨hvalid, hclean, SamePorts.refl rs⟩

theorem grow_valid {n : ℕ} (hvalid : Valid rs) :
    Valid { rs with ranges := rs.ranges ++ List.replicate n ⟨0, 0⟩ } ∧
      SamePorts rs { rs with ranges := rs.ranges ++ List.replicate n ⟨0, 0⟩ } := by
  have hentries : PortRanges.entries { rs with ranges := rs.ranges ++ List.replicate n ⟨0, 0⟩ } =
      rs.entries := List.take_append_of_le_length hvalid.nranges_le
  refine ⟨⟨?_, ?_, ?_, hvalid.nranges_ne⟩, ?_, Nat.le_refl _, id⟩
  · have hle := hvalid.nranges_le
    simp only [PortRanges.cap, List.length_append] at hle ⊢
    omega
  · rw [hentries]
    exact hvalid.proper
  · rw [hentries]
    exact hvalid.gapped
  · rw [hentries]
    exact fun n => Iff.rfl

theorem prepInsertion_valid {needed : ℕ} (hvalid : Valid rs) :
    Valid (prepInsertion rs needed) ∧ SamePorts rs (prepInsertion rs needed) ∧
      (prepInsertion rs needed).nranges + needed ≤ (prepInsertion rs needed).cap := by
  obtain ⟨rs', hrs', hvalid', hsame⟩ : ∃ rs', (if rs.nranges > dirtLimit then undirtify rs else rs) =
      rs' ∧ Valid rs' ∧ SamePorts rs rs' := by
    refine ⟨_, rfl, ?_⟩
    split
    · exact ⟨(undirtify_valid hvalid).1, (undirtify_valid hvalid).2.2⟩
    · exact ⟨hvalid, SamePorts.refl rs⟩
  have hle := hvalid'.nranges_le
  unfold prepInsertion
  rw [hrs']
  dsimp only
  split
  · obtain ⟨hgrown, hsame'⟩ := @grow_valid rs' (rs'.cap + needed + (rs'.cap + needed) / 2 - rs'.cap)
      hvalid'
    refine ⟨hgrown, hsame.trans hsame', ?_⟩
    simp only [PortRanges.cap, List.length_append, List.length_replicate] at hle ⊢
    omega
  · exact ⟨hvalid', hsame, by omega⟩

variable {dst : PortRanges}

theorem appendRanges_entries {new : List PortRange}
    (hle : dst.nranges ≤ dst.cap) : (appendRanges dst new).entries = dst.entries ++ new := by
  have hlen := length_entries hle
  unfold PortRanges.entries at hlen
  simp only [PortRanges.entries, appendRanges, storeRanges]
  apply List.take_left'
  rw [List.length_append, hlen]

theorem appendRanges_valid {new : List PortRange} (hvalid : Valid dst)
    (hroom : dst.nranges + new.length ≤ dst.cap) (hne : new ≠ [])
    (hnew : Proper PortRange.lo PortRange.hi new) : Valid (appendRanges dst new) := by
  have hpos := List.length_pos_iff.mpr hne
  refine ⟨?_, ?_, ?_, ?_⟩
  · simp only [PortRanges.cap, appendRanges, storeRanges, List.length_append, List.length_take,
      List.length_drop] at hroom ⊢
    omega
  · rw [appendRanges_entries hvalid.nranges_le]
    intro e he
    obtain he | he := List.mem_append.mp he
    · exact hvalid.proper e he
    · exact hnew e he
  · exact fun h => absurd h.symm Bool.false_ne_true
  · intro _
    simp only [appendRanges]
    omega

theorem add_spec {needed : ℕ} {new : List PortRange} (hvalid : Valid dst)
    (hfits : new.length ≤ needed) (hne : new ≠ []) (hnew : Proper PortRange.lo PortRange.hi new) :
    Valid (appendRanges (prepInsertion dst needed) new) ∧
      ∀ n, Covers PortRange.lo PortRange.hi (appendRanges (prepInsertion dst needed) new).entries n ↔
        Covers PortRange.lo PortRange.hi dst.entries n ∨ Covers PortRange.lo PortRange.hi new n := by
  obtain ⟨hprep, hsame, hroom⟩ := @prepInsertion_valid dst needed hvalid
  refine ⟨appendRanges_valid hprep (by omega) hne hnew, fun n => ?_⟩
  rw [appendRanges_entries hprep.nranges_le, covers_append, hsame.covers]

theorem portRangesAddRange_spec {r : PortRange} (hvalid : Valid dst)
    (hr : r.lo ≤ r.hi) :
    Valid (portRangesAddRange dst r) ∧
      ∀ n, Covers PortRange.lo PortRange.hi (portRangesAddRange dst r).entries n ↔
        Covers PortRange.lo PortRange.hi dst.entries n ∨ (r.lo ≤ n ∧ n ≤ r.hi) := by
  have hproper : Proper PortRange.lo PortRange.hi [r] := by
    intro e he
    rw [List.mem_singleton.mp he]
    exact hr
  obtain ⟨hadded, hcovers⟩ := add_spec hvalid (Nat.le_refl _) (List.cons_ne_nil r []) hproper
  refine ⟨hadded, fun n => (hcovers n).trans ?_⟩
  rw [covers_cons, or_iff_left (covers_nil n)]

theorem portRangesAddRanges_spec {source : PortRanges} {same : Bool} (hdst : Valid dst)
    (hsource : Valid source) (hsame : same = true → source = dst) :
    Valid (portRangesAddRanges dst source same) ∧
      ∀ n, Covers PortRange.lo PortRange.hi (portRangesAddRanges dst source same).entries n ↔
        Covers PortRange.lo PortRange.hi dst.entries n ∨
          Covers PortRange.lo PortRange.hi source.entries n := by
  unfold portRangesAddRanges
  split
  · rename_i hnone
    refine ⟨hdst, fun n => ?_⟩
    have hentries : source.entries = [] := by
      rw [PortRanges.entries, hnone, List.take_zero]
    rw [hentries, or_iff_left (covers_nil n)]
  rename_i hsome
  dsimp only
  -- the ranges that are copied, with what they cover
  obtain ⟨new, hnew, hvalid, hports⟩ : ∃ new : PortRanges,
      (if same = true then prepInsertion dst source.nranges else source) = new ∧ Valid new ∧
        SamePorts source new := by
    refine ⟨_, rfl, ?_⟩
    split
    · rename_i h
      obtain ⟨hprep, hports, -⟩ := @prepInsertion_valid dst source.nranges hdst
      rw [hsame h] at hprep hports ⊢
      exact ⟨hprep, hports⟩
    · exact ⟨hsource, SamePorts.refl source⟩
  rw [hnew]
  have hlen := length_entries hvalid.nranges_le
  have hne : new.entries ≠ [] := by
    rw [← List.length_pos_iff, hlen]
    exact Nat.pos_of_ne_zero (hports.nranges_ne hsome)
  obtain ⟨hadded, hcovers⟩ := @add_spec dst source.nranges new.entries hdst
    (hlen.trans_le hports.nranges_le) hne hvalid.proper
  refine ⟨hadded, fun n => (hcovers n).trans ?_⟩
  rw [hports.covers]

theorem zero_valid : Valid .zero where
  nranges_le := Nat.le_refl _
  proper := by simp [Proper, PortRanges.entries, PortRanges.zero]
  gapped := fun _ => List.Pairwise.nil
  nranges_ne := fun h => absurd h Bool.false_ne_true

def Lists (s : Bytes) (n : ℕ) : Prop :=
  ∃ list, PortList s list ∧ Covers PortRange.lo PortRange.hi list n

theorem between_proper {n m : ℕ} (hn : n ≤ 65535) (hm : m ≤ 65535) :
    (between n m).lo ≤ (between n m).hi := by
  simp only [between, PortRange.lo, PortRange.hi, UInt16.toNat_ofNat']
  omega

theorem element_proper {text : Bytes} {r : PortRange} (h : Element text r) : r.lo ≤ r.hi := by
  cases h with
  | port hn => exact between_proper hn.2.2.2 hn.2.2.2
  | range hn hm => exact between_proper hn.2.2.2 hm.2.2.2

theorem portList_proper {s : Bytes} {list : List PortRange} (h : PortList s list) :
    Proper PortRange.lo PortRange.hi list := by
  induction h with
  | nil => simp [Proper]
  | sep _ _ ih => exact ih
  | last htext =>
    intro e he
    rw [List.mem_singleton.mp he]
    exact element_proper htext
  | element htext _ _ ih =>
    intro e he
    obtain rfl | he := List.mem_cons.mp he
    · exact element_proper htext
    · exact ih e he

theorem portRangesFromStr_valid (s : Bytes) :
    Valid (portRangesFromStr s).2 ∧
      ∀ n, Covers PortRange.lo PortRange.hi (portRangesFromStr s).2.entries n ↔ Lists s n := by
  have hspec := portRangesFromStr_spec s
  revert hspec
  generalize portRangesFromStr s = parsed
  obtain ⟨result, rs⟩ := parsed
  intro hspec
  cases result with
  | some off =>
    obtain ⟨rfl, hno⟩ := hspec
    refine ⟨zero_valid, fun n => ?_⟩
    constructor
    · exact fun h => absurd h (covers_nil n)
    · rintro ⟨list, hlist, -⟩
      exact absurd hlist (hno list)
  | none =>
    obtain ⟨hle, -, -, hdirty, hlist⟩ := hspec
    have hentries := (hlist rs.entries).mpr rfl
    refine ⟨⟨hle, portList_proper hentries, ?_, hdirty.mp⟩, fun n => ?_⟩
    · intro hclean
      have hnone : rs.nranges = 0 := by
        by_contra hne
        rw [hdirty.mpr hne] at hclean
        exact absurd hclean.symm Bool.false_ne_true
      rw [PortRanges.entries, hnone, List.take_zero]
      exact List.Pairwise.nil
    · constructor
      · exact fun h => ⟨_, hentries, h⟩
      · rintro ⟨list, h, hcovers⟩
        rw [(hlist list).mp h] at hcovers
        exact hcovers

theorem portRangesNext_fields (rs : PortRanges) :
    (portRangesNext rs).2.ranges = (undirtify rs).ranges ∧
      (portRangesNext rs).2.nranges = (undirtify rs).nranges ∧
      (portRangesNext rs).2.dirty = (undirtify rs).dirty := by
  unfold portRangesNext
  dsimp only
  split
  · exact ⟨rfl, rfl, rfl⟩
  · split <;> split <;> exact ⟨rfl, rfl, rfl⟩

theorem portRangesNext_valid (hvalid : Valid rs) :
    Valid (portRangesNext rs).2 ∧ (portRangesNext rs).2.entries = (undirtify rs).entries := by
  obtain ⟨hranges, hnranges, hdirty⟩ := portRangesNext_fields rs
  have hentries : (portRangesNext rs).2.entries = (undirtify rs).entries := by
    rw [PortRanges.entries, hranges, hnranges, PortRanges.entries]
  obtain ⟨hclean, -, -⟩ := undirtify_valid hvalid
  refine ⟨⟨?_, ?_, ?_, ?_⟩, hentries⟩
  · rw [PortRanges.cap, hranges, hnranges]
    exact hclean.nranges_le
  · rw [hentries]
    exact hclean.proper
  · rw [hentries, hdirty]
    exact hclean.gapped
  · rw [hdirty, hnranges]
    exact hclean.nranges_ne

/-- A call on one of the sets `V`; `addRange` is called with a proper range. -/
inductive Call (V : Type*) where
  | fromStr (x : V) (s : Bytes)
  | addRange (x : V) (r : PortRange) (hr : r.start ≤ r.end_)
  | addPort (x : V) (port : UInt16)
  | addRanges (x y : V)
  | next (x : V)

section

variable {V : Type*} [DecidableEq V]

def Call.target : Call V → V
  | .fromStr x _ => x
  | .addRange x _ _ => x
  | .addPort x _ => x
  | .addRanges x _ => x
  | .next x => x

def Call.apply (sets : V → PortRanges) : Call V → PortRanges
  | .fromStr _ s => (portRangesFromStr s).2
  | .addRange x r _ => portRangesAddRange (sets x) r
  | .addPort x port => portRangesAddPort (sets x) port
  | .addRanges x y => portRangesAddRanges (sets x) (sets y) (x = y)
  | .next x => (portRangesNext (sets x)).2

def step (sets : V → PortRanges) (call : Call V) : V → PortRanges :=
  Function.update sets call.target (call.apply sets)

def run (calls : List (Call V)) : V → PortRanges := calls.foldl step fun _ => .zero

/-- The ports a call gives to its target, when the sets hold `held`. -/
def Call.gives (held : V → Set ℕ) : Call V → Set ℕ
  | .fromStr _ s => { n | Lists s n }
  | .addRange _ r _ => { n | r.lo ≤ n ∧ n ≤ r.hi }
  | .addPort _ port => {port.toNat}
  | .addRanges _ y => held y
  | .next _ => ∅

/-- `port_ranges_from_str` initialises its target. -/
def Call.initialises : Call V → Bool
  | .fromStr _ _ => true
  | _ => false

def gather (initialises : Call V → Bool) (held : V → Set ℕ) (call : Call V) : V → Set ℕ :=
  Function.update held call.target
    ((if initialises call then ∅ else held call.target) ∪ call.gives held)

/-- The ports given to each set since it was last initialised. -/
def given (calls : List (Call V)) : V → Set ℕ :=
  calls.foldl (gather Call.initialises) fun _ => ∅

def everGiven (calls : List (Call V)) : V → Set ℕ := calls.foldl (gather fun _ => false) fun _ => ∅

def Represents (sets : V → PortRanges) (held : V → Set ℕ) : Prop :=
  ∀ x, Valid (sets x) ∧
    ∀ n, Covers PortRange.lo PortRange.hi (sets x).entries n ↔ n ∈ held x

theorem apply_represents {sets : V → PortRanges} {held : V → Set ℕ} (h : Represents sets held)
    (call : Call V) :
    Valid (call.apply sets) ∧
      ∀ n, Covers PortRange.lo PortRange.hi (call.apply sets).entries n ↔
        n ∈ (if call.initialises then ∅ else held call.target) ∪ call.gives held := by
  cases call with
  | fromStr x s =>
    obtain ⟨hvalid, hcovers⟩ := portRangesFromStr_valid s
    refine ⟨hvalid, fun n => (hcovers n).trans ?_⟩
    simp [Call.initialises, Call.gives]
  | addRange x r hr =>
    obtain ⟨hvalid, hcovers⟩ := portRangesAddRange_spec (h x).1 (UInt16.le_iff_toNat_le.mp hr)
    refine ⟨hvalid, fun n => (hcovers n).trans ?_⟩
    rw [(h x).2 n]
    exact Iff.rfl
  | addPort x port =>
    obtain ⟨hvalid, hcovers⟩ := @portRangesAddRange_spec _ ⟨port, port⟩ (h x).1 (Nat.le_refl _)
    refine ⟨hvalid, fun n => (hcovers n).trans ?_⟩
    rw [(h x).2 n]
    apply or_congr_right
    exact Nat.le_antisymm_iff.symm.trans eq_comm
  | addRanges x y =>
    obtain ⟨hvalid, hcovers⟩ := @portRangesAddRanges_spec _ _ (decide (x = y)) (h x).1 (h y).1
      (fun hxy => congrArg sets (of_decide_eq_true hxy).symm)
    refine ⟨hvalid, fun n => (hcovers n).trans ?_⟩
    rw [(h x).2 n, (h y).2 n]
    exact Iff.rfl
  | next x =>
    obtain ⟨hvalid, -, hsame⟩ := undirtify_valid (h x).1
    obtain ⟨hvalid', hentries⟩ := portRangesNext_valid (h x).1
    refine ⟨hvalid', fun n => ?_⟩
    rw [Call.apply, hentries, hsame.covers, (h x).2 n]
    simp [Call.initialises, Call.gives, Call.target]

theorem step_represents {sets : V → PortRanges} {held : V → Set ℕ} (h : Represents sets held)
    (call : Call V) : Represents (step sets call) (gather Call.initialises held call) := by
  intro x
  unfold step gather
  by_cases hx : x = call.target
  · subst hx
    rw [Function.update_self, Function.update_self]
    exact apply_represents h call
  · rw [Function.update_of_ne hx, Function.update_of_ne hx]
    exact h x

theorem foldl_represents (calls : List (Call V)) : ∀ {sets : V → PortRanges} {held : V → Set ℕ},
    Represents sets held →
      Represents (calls.foldl step sets) (calls.foldl (gather Call.initialises) held) := by
  induction calls with
  | nil => exact fun h => h
  | cons call calls ih =>
    intro sets held h
    exact ih (step_represents h call)

theorem run_represents (calls : List (Call V)) : Represents (run calls) (given calls) := by
  apply foldl_represents
  intro x
  exact ⟨zero_valid, fun n => iff_of_false (covers_nil n) (Set.notMem_empty n)⟩

/-- When a set is used, its array holds proper ranges in ascending order with at
least one port between neighbours, and these are the ports given to it since it
was last initialised. -/
theorem used_normal_form (calls : List (Call V)) (x : V) :
    Gapped PortRange.lo PortRange.hi (undirtify (run calls x)).entries ∧
      Proper PortRange.lo PortRange.hi (undirtify (run calls x)).entries ∧
      ∀ n, Covers PortRange.lo PortRange.hi (undirtify (run calls x)).entries n ↔
        n ∈ given calls x := by
  obtain ⟨hvalid, hcovers⟩ := run_represents calls x
  obtain ⟨hused, hclean, hsame⟩ := undirtify_valid hvalid
  refine ⟨hused.gapped hclean, hused.proper, fun n => ?_⟩
  rw [hsame.covers, hcovers]

end

/-- Port 1 is added, and then the text "2" is read into the same set. -/
theorem from_str_discards :
    ¬ ∀ n, Covers PortRange.lo PortRange.hi
        (undirtify (run [.addPort () 1, .fromStr () [50]] ())).entries n ↔
      n ∈ everGiven [.addPort () 1, .fromStr () [50]] () := by
  intro h
  have hone : 1 ∈ everGiven [Call.addPort () 1, Call.fromStr () [50]] () := by
    left
    right
    rfl
  have htwo : PortList [50] [between 2 2] :=
    PortList.last (Element.port ⟨List.cons_ne_nil _ _, by decide, by decide, by decide⟩)
  obtain ⟨-, -, hsame⟩ := undirtify_valid (portRangesFromStr_valid [50]).1
  have hcovers := (hsame.covers 1).mp ((h 1).mpr hone)
  obtain ⟨list, hlist, hcovers⟩ := ((portRangesFromStr_valid [50]).2 1).mp hcovers
  rw [portList_unique hlist htwo, covers_cons, or_iff_left (covers_nil 1)] at hcovers
  exact absurd hcovers (by decide)

end Yans.Net.Ports
