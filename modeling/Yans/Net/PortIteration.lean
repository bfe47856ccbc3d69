import Yans.Library.Cursor
import Yans.Net.PortSet

/-! The iteration of `port_ranges_next`: from the start on it gives the ports of
the set in ascending order, and is at the start again. -/
namespace Yans.Net.Ports

open Library Library.Intervals Library.Cursor

def AtStart (rs : PortRanges) : Prop := rs.currRange = 0 ∧ rs.currPort = 0

/-- The port that comes next; 0 in the first range stands for its start. -/
def position (rs : PortRanges) : ℕ :=
  if rs.currRange = 0 ∧ rs.currPort = 0 then (rangeAt rs 0).lo else rs.currPort.toNat

def portsLeft (rs : PortRanges) : List UInt16 :=
  (left PortRange.lo PortRange.hi rs.entries rs.currRange (position rs)).map fun x =>
    UInt16.ofNat x.2

def OnTrack (rs : PortRanges) : Prop := rs.currRange < rs.nranges →
  position rs ≤ (rangeAt rs rs.currRange).hi

theorem undirtify_of_clean {rs : PortRanges} (h : rs.dirty = false) : undirtify rs = rs := by
  rw [undirtify, h]
  rfl

theorem undirtify_curr (rs : PortRanges) :
    (undirtify rs).currRange = rs.currRange ∧ (undirtify rs).currPort = rs.currPort := by
  unfold undirtify
  split
  · exact ⟨rfl, rfl⟩
  · exact ⟨rfl, rfl⟩

theorem portRangesNext_undirtify {rs : PortRanges} (hvalid : Valid rs) :
    portRangesNext rs = portRangesNext (undirtify rs) := by
  have hclean := (undirtify_valid hvalid).2.1
  unfold portRangesNext
  rw [undirtify_of_clean hclean]

section

variable {rs : PortRanges}

theorem entries_getElem? (hle : rs.nranges ≤ rs.cap) {i : ℕ} (hi : i < rs.nranges) :
    rs.entries[i]? = some (rangeAt rs i) := by
  rw [entries_eq_map hle, List.getElem?_map, List.getElem?_range hi]
  rfl

theorem position_atStart (h : AtStart rs) : position rs = (rangeAt rs 0).lo := if_pos h

theorem portsLeft_atStart (hle : rs.nranges ≤ rs.cap) (h : AtStart rs) :
    portsLeft rs = ports rs := by
  have hall : ports rs = (all PortRange.lo PortRange.hi rs.entries).map fun x =>
      UInt16.ofNat x.2 := by
    simp only [ports, elements, all, rest, List.map_flatMap, List.map_map]
    rfl
  rw [portsLeft, position_atStart h, h.1, hall]
  by_cases hzero : rs.nranges = 0
  · have hnil : rs.entries = [] := by rw [PortRanges.entries, hzero, List.take_zero]
    rw [hnil]
    rfl
  · rw [left_start (entries_getElem? hle (Nat.pos_of_ne_zero hzero)), List.drop_zero]

theorem onTrack_atStart (hvalid : Valid rs) (h : AtStart rs) : OnTrack rs := by
  intro hlt
  rw [position_atStart h, h.1]
  rw [h.1] at hlt
  apply hvalid.proper
  exact List.mem_of_getElem? (entries_getElem? hvalid.nranges_le hlt)

theorem portRangesNext_clean (hvalid : Valid rs) (hclean : rs.dirty = false) (htrack : OnTrack rs) :
    match portRangesNext rs with
    | (none, rs') => portsLeft rs = [] ∧ AtStart rs'
    | (some port, rs') => portsLeft rs = port :: portsLeft rs' ∧ OnTrack rs' := by
  have hlen := length_entries hvalid.nranges_le
  unfold portRangesNext
  rw [undirtify_of_clean hclean]
  dsimp only
  by_cases hend : rs.currRange ≥ rs.nranges
  · rw [if_pos hend]
    refine ⟨?_, rfl, rfl⟩
    rw [portsLeft, left_end (by omega)]
    rfl
  rw [if_neg hend]
  have hlt : rs.currRange < rs.nranges := Nat.lt_of_not_le hend
  have hget := entries_getElem? hvalid.nranges_le hlt
  have hhi := htrack hlt
  -- the port that is given, after the first range has been entered
  obtain ⟨port, hport, hrs⟩ : ∃ port : UInt16, port.toNat = position rs ∧
      (if rs.currRange = 0 ∧ rs.currPort = 0 then
        { rs with currPort := (rangeAt rs rs.currRange).start } else rs) =
      { rs with currPort := port } := by
    by_cases hstart : rs.currRange = 0 ∧ rs.currPort = 0
    · rw [if_pos hstart, hstart.1]
      exact ⟨_, (position_atStart hstart).symm, rfl⟩
    · rw [if_neg hstart]
      exact ⟨rs.currPort, (if_neg hstart).symm, rfl⟩
  rw [hrs]
  by_cases hmore : (rangeAt rs rs.currRange).end_ > port
  · rw [if_pos hmore]
    rw [gt_iff_lt, UInt16.lt_iff_toNat_lt] at hmore
    have hend_lt := (rangeAt rs rs.currRange).end_.toNat_lt
    have hsucc : (port + 1).toNat = port.toNat + 1 := by
      rw [UInt16.toNat_add, UInt16.toNat_one]
      exact Nat.mod_eq_of_lt (by omega)
    have hposition : position { rs with currPort := port + 1 } = position rs + 1 := by
      rw [← hport, ← hsucc]
      apply if_neg
      rintro ⟨-, hzero⟩
      dsimp only at hzero
      rw [hzero] at hsucc
      exact absurd hsucc (Nat.succ_ne_zero _).symm
    constructor
    · rw [portsLeft, left_within hget hhi, List.map_cons, portsLeft, hposition, ← hport,
        UInt16.ofNat_toNat]
      rfl
    · intro _
      rw [hposition, ← hport]
      exact hmore
  · rw [if_neg hmore]
    rw [gt_iff_lt, UInt16.lt_iff_toNat_lt] at hmore
    have hlast : position rs = (rangeAt rs rs.currRange).hi := by
      rw [← hport] at hhi ⊢
      exact Nat.le_antisymm hhi (Nat.le_of_not_lt hmore)
    have hposition : ∀ port', position { rs with currRange := rs.currRange + 1, currPort := port' } =
        port'.toNat := fun port' => if_neg fun h => Nat.succ_ne_zero _ h.1
    constructor
    · rw [portsLeft, hlast, left_last hget, List.map_cons, portsLeft, hposition, ← hlast, ← hport,
        UInt16.ofNat_toNat]
      congr 2
      by_cases hnext : rs.currRange + 1 < rs.nranges
      · exact (left_start (entries_getElem? hvalid.nranges_le hnext)).symm
      · have hnone : rs.entries.length ≤ rs.currRange + 1 := by omega
        rw [List.drop_eq_nil_of_le hnone]
        exact (left_end hnone).symm
    · intro hnext
      rw [hposition]
      exact hvalid.proper _ (List.mem_of_getElem? (entries_getElem? hvalid.nranges_le hnext))

theorem portRangesNext_left (hvalid : Valid rs) (htrack : OnTrack (undirtify rs)) :
    (match portRangesNext rs with
    | (none, rs') => portsLeft (undirtify rs) = [] ∧ AtStart rs'
    | (some port, rs') => portsLeft (undirtify rs) = port :: portsLeft rs' ∧ OnTrack rs') ∧
      Valid (portRangesNext rs).2 ∧ (portRangesNext rs).2.dirty = false ∧
      (portRangesNext rs).2.ranges = (undirtify rs).ranges ∧
      (portRangesNext rs).2.entries = (undirtify rs).entries := by
  obtain ⟨hused, hclean, -⟩ := undirtify_valid hvalid
  obtain ⟨hvalid', hentries⟩ := portRangesNext_valid hvalid
  obtain ⟨hranges, -, hdirty⟩ := portRangesNext_fields rs
  refine ⟨?_, hvalid', hdirty.trans hclean, hranges, hentries⟩
  rw [portRangesNext_undirtify hvalid]
  exact portRangesNext_clean hused hclean htrack

end

end Yans.Net.Ports
