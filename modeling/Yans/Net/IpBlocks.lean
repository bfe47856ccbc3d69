import Yans.Library.Realms
import Yans.Net.IpOrder
import Mathlib.Data.List.GetD

/-! The array of blocks that `ip_blocks_init` leaves: sorted, merged where blocks
of one family and zone follow each other, and nothing lost or added. -/
namespace Yans.Net.Ip

open Library Library.Intervals

namespace IpBlock

def lo (b : IpBlock) : ℕ := ord b.first

def hi (b : IpBlock) : ℕ := ord b.last

/-- The family, and the zone that the addresses of the block get. -/
def realm (b : IpBlock) : Option UInt32 := Ip.realm b.first

def Ok (b : IpBlock) : Prop := sameFamily b.first b.last = true ∧ b.lo ≤ b.hi

def Contains (b : IpBlock) (addr : IpAddr) : Prop :=
  b.realm = Ip.realm addr ∧ b.lo ≤ ord addr ∧ ord addr ≤ b.hi

end IpBlock

theorem top_of_sameFamily {a b : IpAddr} (h : sameFamily a b = true) :
    top (realm a) = top (realm b) ∧ bottom (realm a) = bottom (realm b) := by
  cases a <;> cases b <;> first | exact ⟨rfl, rfl⟩ | exact absurd h Bool.false_ne_true

theorem realm_eq_iff (a b : IpAddr) :
    (!diffZones a b && sameFamily a b) = true ↔ realm a = realm b := by
  cases a with
  | v4 a => cases b <;> simp [diffZones, sameFamily, realm]
  | v6 a scope => cases b <;> simp [diffZones, sameFamily, realm]

theorem sameFamily_of_realm {a b : IpAddr} (h : realm a = realm b) : sameFamily a b = true := by
  rw [← realm_eq_iff, Bool.and_eq_true] at h
  exact h.2

theorem sameFamily_trans {a b c : IpAddr} (hab : sameFamily a b = true)
    (hbc : sameFamily b c = true) : sameFamily a c = true := by
  cases a <;> cases b <;> cases c <;> simp_all [sameFamily]

theorem joining : Realms.Joining IpBlock.lo IpBlock.hi IpBlock.realm bottom top IpBlock.Ok
    joins absorb where
  le := fun a h => h.2
  le_top := by
    intro a h
    have hle := ord_le_top a.last
    rw [← (top_of_sameFamily h.1).1] at hle
    exact hle
  joins_iff := by
    intro a b ha hb
    obtain ⟨htop, hbottom⟩ := top_of_sameFamily ha.1
    have hlow := bottom_le_ord b.first
    have hlow' := bottom_le_ord a.last
    rw [joins, Bool.and_eq_true, realm_eq_iff, decide_eq_true_eq, ge_iff_le, ipAddrCmp_nonneg]
    apply and_congr_right
    intro hrealm
    unfold IpBlock.realm IpBlock.hi IpBlock.lo
    rw [← hrealm] at hlow
    rw [← hbottom] at hlow'
    by_cases hmax : ord a.last = top (realm a.last)
    · rw [ord_ipAddrAdd_top hmax, htop, ← hbottom]
      simp only [hmax, true_implies]
      omega
    · rw [ord_ipAddrAdd_one hmax, htop]
      simp only [hmax, false_implies, and_true]
  ok_absorb := by
    intro a b ha hb hrealm
    unfold absorb
    split
    · rename_i hlast
      rw [gt_iff_lt, ipAddrCmp_pos] at hlast
      have hfamily := sameFamily_of_realm hrealm
      exact ⟨sameFamily_trans hfamily hb.1, ha.2.trans (Nat.le_of_lt hlast)⟩
    · exact ha
  realm_absorb := by
    intro a b
    unfold absorb
    split <;> rfl
  lo_absorb := by
    intro a b
    unfold absorb
    split <;> rfl
  hi_absorb := by
    intro a b
    unfold absorb IpBlock.hi
    split
    · rename_i h
      rw [gt_iff_lt, ipAddrCmp_pos] at h
      exact (Nat.max_eq_right (Nat.le_of_lt h)).symm
    · rename_i h
      rw [gt_iff_lt, ipAddrCmp_pos] at h
      exact (Nat.max_eq_left (Nat.le_of_not_lt h)).symm

theorem blockcmp_le {b₀ b₁ : IpBlock} :
    blockcmp b₀ b₁ ≤ 0 ↔ b₀.lo < b₁.lo ∨ (b₀.lo = b₁.lo ∧ b₀.hi ≤ b₁.hi) := by
  have hfirst := @ipAddrCmp_zero b₀.first b₁.first
  have hfirst' := @ipAddrCmp_neg b₀.first b₁.first
  have hlast := @ipAddrCmp_pos b₀.last b₁.last
  unfold blockcmp IpBlock.lo IpBlock.hi
  split
  · rename_i h
    have heq := hfirst.mp h
    omega
  · rename_i h
    omega

theorem sort_sorted (qsort : Qsort) (blocks : List IpBlock) :
    SortedByLo IpBlock.lo (qsort.sort blocks) := by
  apply (qsort.sorted blocks).imp
  intro b₀ b₁ h
  rw [blockcmp_le] at h
  omega

def addresses (b : IpBlock) : List IpAddr :=
  (List.range' b.lo (b.hi + 1 - b.lo)).map (addrOf b.realm)

section

variable {b : IpBlock}

theorem bounds_of_ok (hok : b.Ok) {n : ℕ} (hn : n ∈ List.range' b.lo (b.hi + 1 - b.lo)) :
    bottom b.realm ≤ n ∧ n ≤ top b.realm := by
  have hlo : bottom b.realm ≤ b.lo := bottom_le_ord b.first
  have hhi := joining.le_top b hok
  have hle := hok.2
  rw [List.mem_range'_1] at hn
  omega

theorem mem_addresses (hok : b.Ok) (addr : IpAddr) : addr ∈ addresses b ↔ b.Contains addr := by
  rw [addresses, List.mem_map]
  constructor
  · rintro ⟨n, hn, rfl⟩
    obtain ⟨hlo, hhi⟩ := bounds_of_ok hok hn
    rw [List.mem_range'_1] at hn
    rw [IpBlock.Contains, realm_addrOf, ord_addrOf hlo hhi]
    exact ⟨rfl, hn.1, by omega⟩
  · rintro ⟨hrealm, hlo, hhi⟩
    refine ⟨ord addr, List.mem_range'_1.mpr (by omega), ?_⟩
    rw [hrealm, addrOf_ord]

theorem nodup_addresses (hok : b.Ok) : (addresses b).Nodup := by
  apply List.Nodup.map_on _ List.nodup_range'
  intro n hn m hm heq
  obtain ⟨hnlo, hnhi⟩ := bounds_of_ok hok hn
  obtain ⟨hmlo, hmhi⟩ := bounds_of_ok hok hm
  have hord := congrArg ord heq
  rwa [ord_addrOf hnlo hnhi, ord_addrOf hmlo hmhi] at hord

end

section

variable {entries : List IpBlock} (hok : ∀ b ∈ entries, b.Ok)

include hok

theorem mem_flatMap_addresses (addr : IpAddr) :
    addr ∈ entries.flatMap addresses ↔ ∃ b ∈ entries, b.Contains addr := by
  rw [List.mem_flatMap]
  apply exists_congr
  intro b
  exact and_congr_right fun hb => mem_addresses (hok b hb) addr

theorem nodup_flatMap_addresses : (entries.flatMap addresses).Nodup ↔
    entries.Pairwise fun b b' => ∀ addr, ¬(b.Contains addr ∧ b'.Contains addr) := by
  rw [List.nodup_flatMap, and_iff_right fun b hb => nodup_addresses (hok b hb)]
  apply List.Pairwise.iff_of_mem
  intro b b' hb hb'
  constructor
  · rintro hdisjoint addr ⟨hin, hin'⟩
    exact hdisjoint ((mem_addresses (hok b hb) addr).mpr hin)
      ((mem_addresses (hok b' hb') addr).mpr hin')
  · intro hapart addr hin hin'
    exact hapart addr ⟨(mem_addresses (hok b hb) addr).mp hin,
      (mem_addresses (hok b' hb') addr).mp hin'⟩

theorem nodup_iff_apart (hsorted : SortedByLo IpBlock.lo entries) :
    (entries.flatMap addresses).Nodup ↔
      Realms.Apart IpBlock.lo IpBlock.hi IpBlock.realm 0 entries := by
  rw [nodup_flatMap_addresses hok]
  constructor
  · intro h
    apply (hsorted.and h).imp_of_mem
    rintro b b' hb hb' ⟨hle, hdisjoint⟩ hrealm
    by_contra hnot
    apply hdisjoint b'.first
    refine ⟨⟨hrealm, hle, Nat.le_of_not_lt hnot⟩, rfl, Nat.le_refl _, (hok b' hb').2⟩
  · intro h
    apply h.imp
    rintro b b' hapart addr ⟨⟨hrealm, -, hhi⟩, hrealm', hlo, -⟩
    have hlt := hapart (hrealm.trans hrealm'.symm)
    omega

end

section

variable {blks : IpBlocks} (hle : blks.nblocks ≤ blks.blocks.length)

include hle

theorem length_entries : blks.entries.length = blks.nblocks := by
  rw [IpBlocks.entries, List.length_take, Nat.min_eq_left hle]

theorem entries_getElem? {i : ℕ} (hi : i < blks.nblocks) :
    blks.entries[i]? = some (blockAt blks i) := by
  have hlt : i < blks.blocks.length := Nat.lt_of_lt_of_le hi hle
  rw [IpBlocks.entries, List.getElem?_take, if_pos hi, List.getElem?_eq_getElem hlt, blockAt,
    List.getD_eq_getElem _ _ hlt]

theorem entries_eq_map : blks.entries = (List.range blks.nblocks).map (blockAt blks) := by
  apply List.ext_getElem?
  intro i
  rw [List.getElem?_map]
  by_cases hi : i < blks.nblocks
  · rw [entries_getElem? hle hi, List.getElem?_range hi]
    rfl
  · have hlen := length_entries hle
    rw [List.getElem?_eq_none (by omega), List.getElem?_eq_none (by simpa using hi)]
    rfl

end

theorem compressBlocks_spec (qsort : Qsort) {given : List IpBlock} (hne : given ≠ []) :
    ∃ tail, compressBlocks (qsort.sort given) given.length =
      (Compaction.merge joins absorb (qsort.sort given) ++ tail,
        (Compaction.merge joins absorb (qsort.sort given)).length) := by
  have hperm := qsort.perm given
  have hne' : qsort.sort given ≠ [] := by
    intro h
    rw [h] at hperm
    exact hne hperm.nil_eq.symm
  obtain ⟨tail, hcompact⟩ := @Compaction.compact_shrink _ joins absorb (qsort.sort given) [] hne'
  rw [List.append_nil, hperm.length_eq] at hcompact
  exact ⟨tail, hcompact⟩

end Yans.Net.Ip
