import Yans.Library.Cursor
import Yans.Net.IpBlocks

/-! The iteration of `ip_blocks_next`: from the start on it gives the addresses of
the blocks in their order, and is at the start again. -/
namespace Yans.Net.Ip

open Library Library.Cursor

def position (blks : IpBlocks) : ℕ := ord (blks.currAddr.getD (blockAt blks blks.currBlock).first)

def addrsLeft (blks : IpBlocks) : List IpAddr :=
  (left IpBlock.lo IpBlock.hi blks.entries blks.currBlock (position blks)).map fun x =>
    addrOf x.1.realm x.2

structure OnTrack (blks : IpBlocks) : Prop where
  nblocks_le : blks.nblocks ≤ blks.blocks.length
  ok : ∀ b ∈ blks.entries, b.Ok
  within : blks.currBlock < blks.nblocks → ∀ addr, blks.currAddr = some addr →
    (blockAt blks blks.currBlock).Contains addr

def AtStart (blks : IpBlocks) : Prop := blks.currBlock = 0 ∧ blks.currAddr = none

section

variable {blks : IpBlocks}

theorem all_addresses (entries : List IpBlock) :
    (all IpBlock.lo IpBlock.hi entries).map (fun x => addrOf x.1.realm x.2) =
      entries.flatMap addresses := by
  simp only [all, rest, List.map_flatMap, List.map_map]
  rfl

theorem addrsLeft_atStart (hle : blks.nblocks ≤ blks.blocks.length) (h : AtStart blks) :
    addrsLeft blks = blks.entries.flatMap addresses := by
  rw [addrsLeft, position, h.2, h.1, ← all_addresses]
  by_cases hzero : blks.nblocks = 0
  · have hnil : blks.entries = [] := by rw [IpBlocks.entries, hzero, List.take_zero]
    rw [hnil]
    rfl
  · have hget := entries_getElem? hle (Nat.pos_of_ne_zero hzero)
    have hstart := @left_start _ IpBlock.lo IpBlock.hi _ _ _ hget
    rw [List.drop_zero] at hstart
    exact congrArg _ hstart

theorem ipBlocksNext_left (h : OnTrack blks) :
    (match ipBlocksNext blks with
    | (none, blks') => addrsLeft blks = [] ∧ blks' = ipBlocksReset blks
    | (some addr, blks') => addrsLeft blks = addr :: addrsLeft blks' ∧ OnTrack blks' ∧
      blks'.blocks = blks.blocks ∧ blks'.nblocks = blks.nblocks) := by
  have hlen := length_entries h.nblocks_le
  unfold ipBlocksNext
  by_cases hend : blks.currBlock ≥ blks.nblocks
  · rw [if_pos hend]
    refine ⟨?_, rfl⟩
    rw [addrsLeft, left_end (by omega)]
    rfl
  rw [if_neg hend]
  have hlt : blks.currBlock < blks.nblocks := Nat.lt_of_not_le hend
  have hget := entries_getElem? h.nblocks_le hlt
  have hok := h.ok _ (List.mem_of_getElem? hget)
  have haddr : (if blks.currBlock = 0 ∧ blks.currAddr = none then
      (blockAt blks blks.currBlock).first else
      blks.currAddr.getD (blockAt blks blks.currBlock).first) =
      blks.currAddr.getD (blockAt blks blks.currBlock).first := by
    split
    · rename_i hstart
      rw [hstart.2]
      rfl
    · rfl
  have hcontains : (blockAt blks blks.currBlock).Contains
      (blks.currAddr.getD (blockAt blks blks.currBlock).first) := by
    cases hcurr : blks.currAddr with
    | none => exact ⟨rfl, Nat.le_refl _, hok.2⟩
    | some addr => exact h.within hlt addr hcurr
  have hposition : position blks =
      ord (blks.currAddr.getD (blockAt blks blks.currBlock).first) := rfl
  dsimp only
  rw [haddr]
  generalize blks.currAddr.getD (blockAt blks blks.currBlock).first = addr at hcontains hposition ⊢
  obtain ⟨hrealm, hlo, hhi⟩ := hcontains
  have hfirst : addrOf (blockAt blks blks.currBlock).realm (ord addr) = addr := by
    rw [hrealm, addrOf_ord]
  by_cases hmore : ipAddrCmp addr (blockAt blks blks.currBlock).last < 0
  · rw [if_pos hmore]
    have hless : ord addr < (blockAt blks blks.currBlock).hi := ipAddrCmp_neg.mp hmore
    have hsucc : ord (ipAddrAdd addr 1) = ord addr + 1 := by
      apply ord_ipAddrAdd_one
      have htop := joining.le_top _ hok
      rw [hrealm] at htop
      omega
    refine ⟨?_, ⟨h.nblocks_le, h.ok, ?_⟩, rfl, rfl⟩
    · rw [addrsLeft, hposition, left_within hget hhi, List.map_cons, hfirst, ← hsucc]
      rfl
    · intro _ addr' haddr'
      cases haddr'
      refine ⟨?_, ?_, ?_⟩
      · rw [realm_ipAddrAdd]
        exact hrealm
      · rw [hsucc]
        exact Nat.le_succ_of_le hlo
      · rw [hsucc]
        exact hless
  · rw [if_neg hmore]
    have hlast : ord addr = (blockAt blks blks.currBlock).hi :=
      Nat.le_antisymm hhi (ipAddrCmp_nonneg.mp (Int.not_lt.mp hmore))
    have hcons : addrsLeft blks = addr ::
        ((all IpBlock.lo IpBlock.hi (blks.entries.drop (blks.currBlock + 1))).map fun x =>
          addrOf x.1.realm x.2) := by
      rw [addrsLeft, hposition, hlast, left_last hget, List.map_cons, ← hlast, hfirst]
    rw [hcons]
    by_cases hnext : blks.currBlock + 1 < blks.nblocks
    · rw [if_pos hnext]
      have hget' := entries_getElem? h.nblocks_le hnext
      have hok' := h.ok _ (List.mem_of_getElem? hget')
      refine ⟨?_, ⟨h.nblocks_le, h.ok, ?_⟩, rfl, rfl⟩
      · rw [← left_start hget']
        rfl
      · intro _ addr' haddr'
        cases haddr'
        exact ⟨rfl, Nat.le_refl _, hok'.2⟩
    · rw [if_neg hnext]
      have hnone : blks.entries.length ≤ blks.currBlock + 1 := by omega
      refine ⟨?_, ⟨h.nblocks_le, h.ok, fun hlt' => absurd hlt' hnext⟩, rfl, rfl⟩
      rw [List.drop_eq_nil_of_le hnone, addrsLeft]
      rw [left_end]
      · rfl
      · exact hnone

end

end Yans.Net.Ip
