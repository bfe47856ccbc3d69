import Yans.Library.RoundRobin
import Yans.Net.IpBlocks
import Yans.Util.Reorder

/-! `ip_r4blocks` of `lib/net/ip.c`: the addresses of a list of blocks in another
order. The blocks take turns in the order of `blockmap`; an IPv4 block gives its
addresses in the order of a generator, an IPv6 block from the first to the last. -/
namespace Yans.Net.Ip

open Library Library.Cycles Library.RoundRobin Util

/-- `blocks` is the list behind the pointer. -/
structure IpR4blocks where
  blocks : IpBlocks
  blockmap : List ℤ
  ip4blocks : List Reorder32
  ip6Curraddrs : List IpAddr
  mapindex : ℕ
deriving DecidableEq

/-- `sin_addr`, which lies over the flow information of an IPv6 address. -/
def sinAddr : IpAddr → UInt32
  | .v4 a => a
  | .v6 _ _ => 0

/-- Entries of the arrays; those that `calloc` left zero are never read. -/
def ip4blockAt (ip4blocks : List Reorder32) (i : ℕ) : Reorder32 :=
  ip4blocks.getD i ⟨0, 0, 0, 0, 0, 0, 0⟩

def ip6CurraddrAt (ip6Curraddrs : List IpAddr) (i : ℕ) : IpAddr := ip6Curraddrs.getD i (.v4 0)

/-- The loop over the blocks of `ip_r4blocks_reset`: the block `i` sets the entry
of its family and leaves the other one. -/
def resetIp4block (blks : IpR4blocks) (i : ℕ) : Reorder32 :=
  match (blockAt blks.blocks i).first with
  | .v4 a => reorder32Init a (sinAddr (blockAt blks.blocks i).last)
  | .v6 _ _ => ip4blockAt blks.ip4blocks i

def resetIp6Curraddr (blks : IpR4blocks) (i : ℕ) : IpAddr :=
  match (blockAt blks.blocks i).first with
  | .v4 _ => ip6CurraddrAt blks.ip6Curraddrs i
  | .v6 a scope => .v6 a scope

/-- `none` if the generator of the map does not return. The family of a block is
always supported. -/
def ipR4blocksReset (blks : IpR4blocks) : Option IpR4blocks :=
  match reorderMap blks.blocks.nblocks with
  | none => none
  | some blockmap =>
    some { blks with
      blockmap := blockmap
      ip4blocks := (List.range blks.blocks.nblocks).map (resetIp4block blks)
      ip6Curraddrs := (List.range blks.blocks.nblocks).map (resetIp6Curraddr blks) }

/-- `r4` is what the memory of the iterator holds before; allocation succeeds. -/
def ipR4blocksInit (r4 : IpR4blocks) (blks : IpBlocks) : Option (ℤ × IpR4blocks) :=
  if blks.nblocks > intMax then some (-1, r4)
  else if blks.nblocks = 0 then some (0, { r4 with blocks := blks })
  else (ipR4blocksReset ⟨blks, [], [], [], 0⟩).map (0, ·)

/-- The body after the block is found: an IPv4 block is marked as used up when its
generator gives nothing, an IPv6 block when it gives its last address. -/
def ipR4blocksVisit (blks : IpR4blocks) (curr mappedIndex : ℕ) :
    Option (Option IpAddr × IpR4blocks) :=
  let blk := blockAt blks.blocks mappedIndex
  match blk.first with
  | .v4 _ =>
    match reorder32Next (ip4blockAt blks.ip4blocks mappedIndex) with
    | none => none
    | some (none, ip4block) =>
      some (none, { blks with
        mapindex := curr, ip4blocks := blks.ip4blocks.set mappedIndex ip4block,
        blockmap := blks.blockmap.set curr (-1) })
    | some (some next4, ip4block) =>
      some (some (.v4 next4), { blks with
        mapindex := curr, ip4blocks := blks.ip4blocks.set mappedIndex ip4block })
  | .v6 _ _ =>
    let curraddr := ip6CurraddrAt blks.ip6Curraddrs mappedIndex
    if ipAddrCmp curraddr blk.last < 0 then
      some (some curraddr, { blks with
        mapindex := curr,
        ip6Curraddrs := blks.ip6Curraddrs.set mappedIndex (ipAddrAdd curraddr 1) })
    else
      some (some curraddr, { blks with
        mapindex := curr, blockmap := blks.blockmap.set curr (-1) })

/-- What a turn of a block looks at: the block, its generator and its address. -/
structure BlockCell where
  block : IpBlock
  ip4block : Reorder32
  curraddr : IpAddr

def blockCell (blks : IpR4blocks) (i : ℕ) : BlockCell :=
  ⟨blockAt blks.blocks i, ip4blockAt blks.ip4blocks i, ip6CurraddrAt blks.ip6Curraddrs i⟩

def ipR4code : Code IpR4blocks BlockCell IpAddr where
  map := IpR4blocks.blockmap
  cell := blockCell
  index := IpR4blocks.mapindex
  reset := ipR4blocksReset
  visit := ipR4blocksVisit

/-- From the label `again` on, it is gone back to at most once for every block. -/
def ipR4blocksNext (blks : IpR4blocks) : Option (Option IpAddr × IpR4blocks) :=
  if blks.blocks.nblocks = 0 then some (none, blks)
  else again ipR4code blks.blocks.nblocks (blks.blocks.nblocks + 1) blks

def advanceBlock (cell : BlockCell) : Option (Option IpAddr × Option BlockCell) :=
  match cell.block.first with
  | .v4 _ =>
    match reorder32Next cell.ip4block with
    | none => none
    | some (none, _) => some (none, none)
    | some (some next4, ip4block) => some (some (.v4 next4), some { cell with ip4block := ip4block })
  | .v6 _ _ =>
    if ipAddrCmp cell.curraddr cell.block.last < 0 then
      some (some cell.curraddr, some { cell with curraddr := ipAddrAdd cell.curraddr 1 })
    else some (some cell.curraddr, none)

/-- What holds during a cycle over `blks`. -/
structure Cycling (blks : IpBlocks) (r4 : IpR4blocks) : Prop where
  blocks_eq : r4.blocks = blks
  length_map : r4.blockmap.length = blks.nblocks
  length_ip4blocks : r4.ip4blocks.length = blks.nblocks
  length_ip6Curraddrs : r4.ip6Curraddrs.length = blks.nblocks
  index_lt : r4.mapindex < blks.nblocks
  map_lt : ∀ a ∈ r4.blockmap, a < blks.nblocks
  distinct : Distinct r4.blockmap

section

variable {blks : IpBlocks} {r4 : IpR4blocks} {curr : ℕ}

theorem Cycling.visited (h : Cycling blks r4) (hcurr : curr < blks.nblocks) {ip4blocks : List Reorder32}
    {ip6Curraddrs : List IpAddr} (hip4 : ip4blocks.length = r4.ip4blocks.length)
    (hip6 : ip6Curraddrs.length = r4.ip6Curraddrs.length) :
    Cycling blks { r4 with
      mapindex := curr, ip4blocks := ip4blocks, ip6Curraddrs := ip6Curraddrs } where
  blocks_eq := h.blocks_eq
  length_map := h.length_map
  length_ip4blocks := hip4.trans h.length_ip4blocks
  length_ip6Curraddrs := hip6.trans h.length_ip6Curraddrs
  index_lt := hcurr
  map_lt := h.map_lt
  distinct := h.distinct

theorem Cycling.retire (h : Cycling blks r4) (i : ℕ) :
    Cycling blks { r4 with blockmap := r4.blockmap.set i (-1) } where
  blocks_eq := h.blocks_eq
  length_map := by rw [List.length_set, h.length_map]
  length_ip4blocks := h.length_ip4blocks
  length_ip6Curraddrs := h.length_ip6Curraddrs
  index_lt := h.index_lt
  map_lt := by
    intro a ha
    obtain ha | rfl := List.mem_or_eq_of_mem_set ha
    · exact h.map_lt a ha
    · omega
  distinct := distinct_retire h.distinct i

end

theorem ipR4code_follows (blks : IpBlocks) :
    Follows ipR4code advanceBlock blks.nblocks (Cycling blks) where
  length_map := fun r4 h => h.length_map
  index_lt := fun r4 h => h.index_lt
  distinct := fun r4 h => h.distinct
  visit := by
    intro r4 curr a out rest h hcurr hget ha hadvance
    have hinside : a.toNat < blks.nblocks := by
      have hbound := h.map_lt a (List.mem_of_getElem? hget)
      omega
    have hip4 : a.toNat < r4.ip4blocks.length := by rwa [h.length_ip4blocks]
    have hip6 : a.toNat < r4.ip6Curraddrs.length := by rwa [h.length_ip6Curraddrs]
    change advanceBlock (blockCell r4 a.toNat) = some (out, rest) at hadvance
    unfold advanceBlock blockCell at hadvance
    change _ ∧ ∃ r4', ipR4blocksVisit r4 curr a.toNat = some (out, r4') ∧ _
    unfold ipR4blocksVisit
    dsimp only at hadvance ⊢
    cases hfirst : (blockAt r4.blocks a.toNat).first with
    | v4 addr =>
      rw [hfirst] at hadvance
      dsimp only at hadvance ⊢
      cases hnext : reorder32Next (ip4blockAt r4.ip4blocks a.toNat) with
      | none =>
        rw [hnext] at hadvance
        exact absurd hadvance (by simp)
      | some result =>
        obtain ⟨next4, ip4block⟩ := result
        rw [hnext] at hadvance
        have hvisited := h.visited hcurr (r4.ip4blocks.length_set (i := a.toNat) (a := ip4block)) rfl
        have hothers : ∀ k, k ≠ a.toNat →
            ip4blockAt (r4.ip4blocks.set a.toNat ip4block) k = ip4blockAt r4.ip4blocks k :=
          fun k hk => getD_set_ne hk
        cases next4 with
        | none =>
          obtain ⟨rfl, rfl⟩ := Prod.mk.inj (Option.some.inj hadvance)
          refine ⟨fun _ => rfl, _, rfl, hvisited.retire curr, rfl, fun k hk => ?_, rfl⟩
          simp only [ipR4code, blockCell, hothers k hk]
        | some next4 =>
          obtain ⟨rfl, rfl⟩ := Prod.mk.inj (Option.some.inj hadvance)
          refine ⟨fun hnone => absurd hnone (by simp), _, rfl, hvisited, rfl, fun k hk => ?_, rfl, ?_⟩
          · simp only [ipR4code, blockCell, hothers k hk]
          · simp only [ipR4code, blockCell]
            rw [ip4blockAt, getD_set_self hip4]
    | v6 addr scope =>
      rw [hfirst] at hadvance
      dsimp only at hadvance ⊢
      by_cases hlt : ipAddrCmp (ip6CurraddrAt r4.ip6Curraddrs a.toNat)
          (blockAt r4.blocks a.toNat).last < 0
      · rw [if_pos hlt] at hadvance ⊢
        obtain ⟨rfl, rfl⟩ := Prod.mk.inj (Option.some.inj hadvance)
        refine ⟨fun hnone => absurd hnone (by simp), _, rfl,
          h.visited hcurr rfl List.length_set, rfl, fun k hk => ?_, rfl, ?_⟩
        · simp only [ipR4code, blockCell, ip6CurraddrAt, getD_set_ne hk]
        · simp only [ipR4code, blockCell]
          rw [ip6CurraddrAt, getD_set_self hip6]
      · rw [if_neg hlt] at hadvance ⊢
        obtain ⟨rfl, rfl⟩ := Prod.mk.inj (Option.some.inj hadvance)
        exact ⟨fun hnone => absurd hnone (by simp), _, rfl,
          (h.visited hcurr rfl rfl).retire curr, rfl, fun k hk => rfl, rfl⟩

structure Fresh (blks : IpBlocks) (r4 : IpR4blocks) : Prop extends Cycling blks r4 where
  map_perm : r4.blockmap.Perm ((List.range blks.nblocks).map Int.ofNat)
  ip4block_eq : ∀ i < blks.nblocks, ∀ a, (blockAt blks i).first = .v4 a →
    ip4blockAt r4.ip4blocks i = reorder32Init a (sinAddr (blockAt blks i).last)
  ip6Curraddr_eq : ∀ i < blks.nblocks, ∀ a scope, (blockAt blks i).first = .v6 a scope →
    ip6CurraddrAt r4.ip6Curraddrs i = .v6 a scope

theorem ipR4blocksReset_fresh {blks : IpBlocks} {r4 : IpR4blocks} (hle : blks.nblocks ≤ intMax)
    (hblocks : r4.blocks = blks) (hindex : r4.mapindex < blks.nblocks) :
    ∃ r4', ipR4blocksReset r4 = some r4' ∧ Fresh blks r4' := by
  obtain ⟨map, hmap, hperm⟩ := reorderMap_spec (Nat.zero_lt_of_lt hindex) hle
  unfold ipR4blocksReset
  rw [hblocks, hmap]
  refine ⟨_, rfl, ⟨⟨rfl, ?_, ?_, ?_, hindex, ?_, distinct_of_perm hperm⟩, hperm, ?_, ?_⟩⟩
  · rw [hperm.length_eq, List.length_map, List.length_range]
  · rw [List.length_map, List.length_range]
  · rw [List.length_map, List.length_range]
  · exact fun a ha => (bounds_of_perm hperm ha).2
  · intro i hi a hfirst
    rw [ip4blockAt, getD_map_range hi, resetIp4block, hblocks, hfirst]
  · intro i hi a scope hfirst
    rw [ip6CurraddrAt, getD_map_range hi, resetIp6Curraddr, hblocks, hfirst]

section Drains

variable {b : IpBlock} {ip4block ip4block' : Reorder32} {curraddr : IpAddr}

theorem drains_of_cycle {a : UInt32} (hfirst : b.first = .v4 a) {items : List UInt32}
    (h : Cycle reorder32Next ip4block items ip4block') :
    Drains advanceBlock ⟨b, ip4block, curraddr⟩ (items.map IpAddr.v4) := by
  induction h with
  | @finish ip4block _ h =>
    have hstop : advanceBlock ⟨b, ip4block, curraddr⟩ = some (none, none) := by
      simp only [advanceBlock, hfirst, h]
    exact Drains.stop hstop
  | item h hrest ih =>
    refine Drains.item ?_ ih
    simp only [advanceBlock, hfirst, h]

theorem drains_ipv6 {a : Ip6} {scope : UInt32} (hfirst : b.first = .v6 a scope)
    (hhi : b.hi ≤ top (some scope)) (n : ℕ) : ∀ {curraddr : IpAddr}, realm curraddr = some scope →
    ord curraddr + n = b.hi →
    Drains advanceBlock ⟨b, ip4block, curraddr⟩
      ((List.range' (ord curraddr) (n + 1)).map (addrOf (some scope))) := by
  induction n with
  | zero =>
    intro curraddr hrealm hord
    have hlast : ¬ipAddrCmp curraddr b.last < 0 := by
      rw [ipAddrCmp_neg]
      exact Nat.not_lt.mpr hord.ge
    rw [List.range'_one, List.map_singleton, ← hrealm, addrOf_ord]
    refine Drains.last ?_
    simp only [advanceBlock, hfirst, if_neg hlast]
  | succ n ih =>
    intro curraddr hrealm hord
    have hlt : ord curraddr < b.hi := by omega
    have hnext : ord (ipAddrAdd curraddr 1) = ord curraddr + 1 := by
      apply ord_ipAddrAdd_one
      rw [hrealm]
      omega
    have hrest := @ih (ipAddrAdd curraddr 1) ((realm_ipAddrAdd _ _).trans hrealm) (by omega)
    rw [List.range'_succ, List.map_cons, ← hnext]
    nth_rewrite 1 [← hrealm]
    rw [addrOf_ord]
    refine Drains.item ?_ hrest
    simp only [advanceBlock, hfirst, if_pos (ipAddrCmp_neg.mpr hlt)]

/-- The only block whose generator counts too far. -/
def wholeIpv4 : IpBlock := ⟨.v4 0, .v4 0xffffffff⟩

theorem block_drains (hok : b.Ok) (hwhole : b ≠ wholeIpv4)
    (hip4 : ∀ a, b.first = .v4 a → ip4block = reorder32Init a (sinAddr b.last))
    (hip6 : ∀ a scope, b.first = .v6 a scope → curraddr = .v6 a scope) :
    ∃ items, Drains advanceBlock ⟨b, ip4block, curraddr⟩ items ∧ items.Perm (addresses b) := by
  obtain ⟨hfamily, hle⟩ := hok
  cases hfirst : b.first with
  | v4 first =>
    obtain ⟨last, hlast⟩ : ∃ last, b.last = .v4 last := by
      rw [hfirst] at hfamily
      cases hlast : b.last with
      | v4 last => exact ⟨last, rfl⟩
      | v6 last scope =>
        rw [hlast] at hfamily
        exact absurd hfamily Bool.false_ne_true
    have hlo : b.lo = first.toNat := by rw [IpBlock.lo, hfirst, ord]
    have hhi : b.hi = last.toNat := by rw [IpBlock.hi, hlast, ord]
    rw [hlo, hhi] at hle
    have hsize : last.toNat - first.toNat < 2 ^ 32 - 1 := by
      have hmax := last.toNat_lt
      by_contra hall
      apply hwhole
      have hzero : first = 0 := by
        rw [← UInt32.toNat_inj, UInt32.toNat_zero]
        omega
      have htop : last = 0xffffffff := by
        rw [← UInt32.toNat_inj]
        change last.toNat = 2 ^ 32 - 1
        omega
      obtain ⟨bfirst, blast⟩ := b
      rw [wholeIpv4, IpBlock.mk.injEq, ← hzero, ← htop]
      exact ⟨hfirst, hlast⟩
    obtain ⟨items, hcycle, hperm⟩ := reorder32_cycle_ordered hle hsize
    have haddresses : addresses b = ((List.range' first.toNat (last.toNat + 1 - first.toNat)).map
        UInt32.ofNat).map IpAddr.v4 := by
      rw [addresses, hlo, hhi, IpBlock.realm, hfirst, List.map_map]
      rfl
    rw [hip4 first hfirst, hlast, haddresses]
    exact ⟨_, drains_of_cycle hfirst hcycle, hperm.map _⟩
  | v6 first scope =>
    have hrealm : b.realm = some scope := by rw [IpBlock.realm, hfirst, realm]
    have hlo : ord curraddr = b.lo := by rw [hip6 first scope hfirst, IpBlock.lo, hfirst]
    have htop := joining.le_top b ⟨hfamily, hle⟩
    rw [hrealm] at htop
    obtain ⟨n, hn⟩ := Nat.exists_eq_add_of_le hle
    have hdrains := @drains_ipv6 b ip4block first scope hfirst htop n curraddr
      (by rw [hip6 first scope hfirst, realm]) (by omega)
    rw [hlo] at hdrains
    refine ⟨_, hdrains, ?_⟩
    rw [addresses, hrealm, show b.hi + 1 - b.lo = n + 1 by omega]

end Drains

section

variable {blks : IpBlocks}

theorem fresh_cycle {r4 : IpR4blocks} (hin : blks.nblocks ≤ blks.blocks.length)
    (hle : blks.nblocks ≤ intMax) (hok : ∀ b ∈ blks.entries, b.Ok)
    (hwhole : wholeIpv4 ∉ blks.entries) (h : Fresh blks r4) :
    ∃ run r4', Cycle ipR4blocksNext r4 run r4' ∧ run.Perm (blks.entries.flatMap addresses) ∧
      Fresh blks r4' := by
  have hmem : ∀ i < blks.nblocks, blockAt blks i ∈ blks.entries := by
    intro i hi
    rw [entries_eq_map hin]
    exact List.mem_map_of_mem (List.mem_range.mpr hi)
  have hdrains : ∀ i : ℕ, ∃ items, i < blks.nblocks →
      Drains advanceBlock (blockCell r4 i) items ∧ items.Perm (addresses (blockAt blks i)) := by
    intro i
    by_cases hi : i < blks.nblocks
    · obtain ⟨items, hitems, hperm⟩ := block_drains (hok _ (hmem i hi))
        (fun heq => hwhole (heq ▸ hmem i hi)) (h.ip4block_eq i hi) (h.ip6Curraddr_eq i hi)
      rw [← h.blocks_eq] at hitems
      exact ⟨items, fun _ => ⟨hitems, hperm⟩⟩
    · exact ⟨[], fun hi' => absurd hi' hi⟩
  choose items hitems using hdrains
  have hcall : ∀ r4, Cycling blks r4 →
      ipR4blocksNext r4 = again ipR4code blks.nblocks (blks.nblocks + 1) r4 := by
    intro r4 h
    have hpos := Nat.zero_lt_of_lt h.index_lt
    rw [ipR4blocksNext, h.blocks_eq, if_neg hpos.ne']
  obtain ⟨run, r4', hcycle, hrun, hfresh⟩ := code_cycle (ipR4code_follows blks) hcall
    (fun r4 h => ipR4blocksReset_fresh hle h.blocks_eq h.index_lt) h.toCycling h.map_perm
    (fun i hi => (hitems i hi).1)
  refine ⟨run, r4', hcycle, hrun.trans ?_, hfresh⟩
  rw [entries_eq_map hin, List.flatMap_map]
  apply List.Perm.flatMap_left
  intro i hi
  exact (hitems i (List.mem_range.mp hi)).2

/-- `ip_r4blocks_init` succeeds unless there are too many blocks, and then each of
any number of cycles gives every address of every block once and no other. -/
theorem ip_r4blocks_permutation (r4 : IpR4blocks) (hin : blks.nblocks ≤ blks.blocks.length)
    (hok : ∀ b ∈ blks.entries, b.Ok) (hwhole : wholeIpv4 ∉ blks.entries)
    (hdisjoint : blks.entries.Pairwise fun b b' => ∀ addr, ¬(b.Contains addr ∧ b'.Contains addr)) :
    ∃ ret r4', ipR4blocksInit r4 blks = some (ret, r4') ∧
      ret = (if blks.nblocks ≤ intMax then 0 else -1) ∧
      (ret = 0 → ∀ n, ∃ runs final, Chain ipR4blocksNext r4' runs final ∧ runs.length = n ∧
        ∀ run ∈ runs, run.Nodup ∧
          ∀ addr, addr ∈ run ↔ ∃ b ∈ blks.entries, b.Contains addr) := by
  unfold ipR4blocksInit
  by_cases hle : blks.nblocks ≤ intMax
  · rw [if_neg (Nat.not_lt.mpr hle), if_pos hle]
    by_cases hzero : blks.nblocks = 0
    · rw [if_pos hzero]
      refine ⟨0, _, rfl, rfl, fun _ n => ?_⟩
      apply @chain_of_invariant _ _ _ (fun r4 => r4.blocks = blks) _ _ n _ rfl
      intro r4 hblocks
      refine ⟨[], r4, Cycle.finish ?_, ⟨List.nodup_nil, fun addr => ?_⟩, hblocks⟩
      · rw [ipR4blocksNext, hblocks, if_pos hzero]
      · simp [IpBlocks.entries, hzero]
    · obtain ⟨r4', hreset, hfresh⟩ := @ipR4blocksReset_fresh blks ⟨blks, [], [], [], 0⟩ hle rfl
        (Nat.pos_of_ne_zero hzero)
      rw [if_neg hzero, hreset]
      refine ⟨0, r4', rfl, rfl, fun _ n => ?_⟩
      apply chain_of_invariant _ n r4' hfresh
      intro r4 hfresh
      obtain ⟨run, r4', hcycle, hperm, hfresh'⟩ := fresh_cycle hin hle hok hwhole hfresh
      refine ⟨run, r4', hcycle,
        ⟨hperm.nodup_iff.mpr ((nodup_flatMap_addresses hok).mpr hdisjoint), fun addr => ?_⟩, hfresh'⟩
      rw [hperm.mem_iff, mem_flatMap_addresses hok]
  · rw [if_pos (Nat.lt_of_not_le hle), if_neg hle]
    exact ⟨-1, r4, rfl, rfl, fun h => absurd h (by decide)⟩

end

/-- Two IPv4 blocks around an IPv6 block with a zone. -/
def mixedBlocks : IpBlocks :=
  ⟨[⟨.v4 7, .v4 9⟩, ⟨.v6 ⟨0xfe800000, 0, 0, 1⟩ 2, .v6 ⟨0xfe800000, 0, 0, 3⟩ 2⟩, ⟨.v4 3, .v4 3⟩],
    3, 0, none⟩

theorem ip_r4blocks_permutation_mixed :
    ∃ ret r4, ipR4blocksInit ⟨.empty, [], [], [], 0⟩ mixedBlocks = some (ret, r4) ∧
      ret = (if mixedBlocks.nblocks ≤ intMax then 0 else -1) ∧
      (ret = 0 → ∀ n, ∃ runs final, Chain ipR4blocksNext r4 runs final ∧ runs.length = n ∧
        ∀ run ∈ runs, run.Nodup ∧
          ∀ addr, addr ∈ run ↔ ∃ b ∈ mixedBlocks.entries, b.Contains addr) := by
  apply ip_r4blocks_permutation _ (by decide)
  · unfold mixedBlocks IpBlocks.entries IpBlock.Ok IpBlock.lo IpBlock.hi
    decide
  · decide
  · simp only [mixedBlocks, IpBlocks.entries, List.take, List.pairwise_cons, List.mem_cons,
      List.not_mem_nil, or_false, forall_eq_or_imp, forall_eq, IpBlock.Contains, IpBlock.realm,
      IpBlock.lo, IpBlock.hi, realm, ord]
    refine ⟨⟨fun addr h => ?_, fun addr h => ?_⟩, fun addr h => ?_, fun _ h => h.elim,
      List.Pairwise.nil⟩
    · exact absurd (h.1.1.trans h.2.1.symm) (by decide)
    · have hlow : (7 : UInt32).toNat ≤ (3 : UInt32).toNat := h.1.2.1.trans h.2.2.2
      exact absurd hlow (by decide)
    · exact absurd (h.1.1.trans h.2.1.symm) (by decide)

end Yans.Net.Ip
