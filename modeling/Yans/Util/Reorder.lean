import Yans.Library.Cycles
import Yans.Library.Lcg
import Yans.Library.Memory
import Mathlib.Data.List.Sort

/-! `lib/util/reorder.c`: a closed range of 32-bit numbers in the order of a
linear congruential generator. The generator has a power of two of values; those
outside the range are passed over. -/
namespace Yans.Util

open Library Library.Cycles

def reorder32Overflowed : UInt32 := 1

structure Reorder32 where
  flags : UInt32
  mask : UInt32
  first : UInt32
  last : UInt32
  curr : UInt32
  nitems : UInt32
  ival : UInt32
deriving DecidableEq

/-- The loop of `calc_r4block_mask`, with the number of bits to look at. -/
def r4blockMaskLoop (nitems : UInt32) : ℕ → UInt32 → UInt32
  | 0, mask => mask
  | i + 1, mask =>
    if nitems &&& (1 <<< UInt32.ofNat i) ≠ 0 then mask else r4blockMaskLoop nitems i (mask >>> 1)

def calcR4blockMask (nitems : UInt32) : UInt32 := r4blockMaskLoop nitems 32 0xffffffff

def reorder32Init (first last : UInt32) : Reorder32 :=
  let (first, last) := if last < first then (last, first) else (first, last)
  let nitems := last - first
  { flags := 0, mask := calcR4blockMask nitems, first := first, last := last, curr := first,
    nitems := nitems, ival := 0 }

/-- The loop that passes over values outside the range; `none` if it finds no
value in as many rounds as `curr` has values. -/
def reorder32Search (mask nitems : UInt32) : ℕ → UInt32 → Option UInt32
  | 0, _ => none
  | rounds + 1, curr =>
    let curr := (curr * 5 + 1) &&& mask
    if curr > nitems then reorder32Search mask nitems rounds curr else some curr

/-- The outer `none` is a call that does not return, the inner one the result 0. -/
def reorder32Next (blk : Reorder32) : Option (Option UInt32 × Reorder32) :=
  if blk.ival > blk.nitems ∨ blk.flags &&& reorder32Overflowed ≠ 0 then
    some (none, reorder32Init blk.first blk.last)
  else
    match reorder32Search blk.mask blk.nitems (2 ^ 32) blk.curr with
    | none => none
    | some curr =>
      let ival := blk.ival + 1
      let flags := if ival < blk.ival then blk.flags &&& reorder32Overflowed else blk.flags
      some (some (blk.first + curr), { blk with curr := curr, ival := ival, flags := flags })

def intMax : ℕ := 2 ^ 31 - 1

/-- The cast to `int`. -/
def asInt (x : UInt32) : ℤ := if x.toNat < 2 ^ 31 then x.toNat else x.toNat - 2 ^ 32

/-- The loop that fills a map of indices: `mapval` keeps its value when the
generator gives none. -/
def reorderMapLoop : ℕ → Reorder32 → UInt32 → Option (List ℤ)
  | 0, _, _ => some []
  | n + 1, mapgen, mapval =>
    match reorder32Next mapgen with
    | none => none
    | some (out, mapgen) =>
      let mapval := out.getD mapval
      (reorderMapLoop n mapgen mapval).map (asInt mapval :: ·)

/-- The order in which `n` blocks or ranges are visited. -/
def reorderMap (n : ℕ) : Option (List ℤ) :=
  reorderMapLoop n (reorder32Init 0 (UInt32.ofNat n - 1)) 0

theorem lt_of_and_shift {x : UInt32} {i : ℕ} (hi : i < 32) (hlt : x.toNat < 2 ^ (i + 1))
    (hbit : x &&& (1 <<< UInt32.ofNat i) = 0) : x.toNat < 2 ^ i := by
  have hand : x.toNat &&& 2 ^ i = 0 := by
    rw [← Memory.toNat_one_shiftLeft hi, ← UInt32.toNat_and, hbit]
    rfl
  have htest : x.toNat.testBit i = false := by
    by_contra hset
    rw [Bool.not_eq_false] at hset
    have hbits := congrArg (fun n => n.testBit i) hand
    simp [hset] at hbits
  rw [Nat.testBit_eq_decide_div_mod_eq, decide_eq_false_iff_not] at htest
  have hdiv : x.toNat / 2 ^ i < 2 := by
    apply Nat.div_lt_of_lt_mul
    rwa [Nat.pow_succ] at hlt
  have hzero : x.toNat / 2 ^ i = 0 := by
    generalize x.toNat / 2 ^ i = q at hdiv htest ⊢
    omega
  exact (Nat.div_eq_zero_iff_lt (Nat.two_pow_pos i)).mp hzero

theorem r4blockMaskLoop_spec {nitems : UInt32} (i : ℕ) : ∀ {mask : UInt32}, i ≤ 32 →
    mask.toNat = 2 ^ i - 1 → nitems.toNat < 2 ^ i →
    ∃ k ≤ 32, (r4blockMaskLoop nitems i mask).toNat = 2 ^ k - 1 ∧ nitems.toNat < 2 ^ k := by
  induction i with
  | zero => exact fun h hmask hlt => ⟨0, h, hmask, hlt⟩
  | succ i ih =>
    intro mask hi hmask hlt
    unfold r4blockMaskLoop
    split
    · exact ⟨i + 1, hi, hmask, hlt⟩
    · rename_i hbit
      have hlow : nitems.toNat < 2 ^ i := lt_of_and_shift hi hlt (not_ne_iff.mp hbit)
      apply ih (by omega) _ hlow
      rw [UInt32.toNat_shiftRight, hmask, Nat.pow_succ]
      change (2 ^ i * 2 - 1) >>> 1 = 2 ^ i - 1
      rw [Nat.shiftRight_eq_div_pow]
      omega

theorem calcR4blockMask_spec (nitems : UInt32) :
    ∃ k ≤ 32, (calcR4blockMask nitems).toNat = 2 ^ k - 1 ∧ nitems.toNat < 2 ^ k :=
  r4blockMaskLoop_spec 32 le_rfl rfl nitems.toNat_lt

theorem reorder32_step {mask curr : UInt32} {k : ℕ} (hk : k ≤ 32) (hmask : mask.toNat = 2 ^ k - 1) :
    ((curr * 5 + 1) &&& mask).toNat = Lcg.step 5 1 (2 ^ k) curr.toNat := by
  have hdvd : 2 ^ k ∣ 2 ^ 32 := Nat.pow_dvd_pow 2 hk
  rw [UInt32.toNat_and, hmask, Nat.and_two_pow_sub_one_eq_mod, UInt32.toNat_add, UInt32.toNat_mul,
    Nat.mod_add_mod, Nat.mod_mod_of_dvd _ hdvd]
  rw [Nat.mul_comm]
  rfl

section

variable {mask nitems : UInt32} {k : ℕ}

theorem reorder32Search_spec (hk : k ≤ 32) (hmask : mask.toNat = 2 ^ k - 1) {v : ℕ} {more : List ℕ}
    (m : ℕ) : ∀ {rounds : ℕ} {curr : UInt32}, m ≤ rounds →
    (Lcg.orbit 5 1 (2 ^ k) m curr.toNat).filter (· ≤ nitems.toNat) = v :: more →
    ∃ found : UInt32, reorder32Search mask nitems rounds curr = some found ∧ found.toNat = v ∧
      ∃ m' < m, (Lcg.orbit 5 1 (2 ^ k) m' v).filter (· ≤ nitems.toNat) = more := by
  induction m with
  | zero => exact fun _ h => absurd h (by simp [Lcg.orbit])
  | succ m ih =>
    intro rounds curr hrounds hfilter
    obtain ⟨rounds, rfl⟩ := Nat.exists_eq_add_of_lt (Nat.lt_of_succ_le hrounds)
    have hstep := @reorder32_step mask curr k hk hmask
    rw [Lcg.orbit, ← hstep] at hfilter
    unfold reorder32Search
    dsimp only
    split
    · rename_i hout
      rw [gt_iff_lt, UInt32.lt_iff_toNat_lt] at hout
      rw [List.filter_cons_of_neg (by simpa using hout)] at hfilter
      obtain ⟨found, hsearch, hfound, m', hm', hmore⟩ := ih (Nat.le_add_right m rounds) hfilter
      exact ⟨found, hsearch, hfound, m', Nat.lt_succ_of_lt hm', hmore⟩
    · rename_i hin
      rw [gt_iff_lt, UInt32.lt_iff_toNat_lt, Nat.not_lt] at hin
      rw [List.filter_cons_of_pos (by simpa using hin), List.cons.injEq] at hfilter
      obtain ⟨rfl, rfl⟩ := hfilter
      exact ⟨_, rfl, rfl, m, Nat.lt_succ_self m, rfl⟩

theorem reorder32_cycle_from {first last : UInt32} (hk : k ≤ 32) (hmask : mask.toNat = 2 ^ k - 1)
    (hsize : nitems.toNat + 1 < 2 ^ 32) (rest : List ℕ) :
    ∀ (m : ℕ) (curr ival : UInt32), m ≤ 2 ^ 32 →
    (Lcg.orbit 5 1 (2 ^ k) m curr.toNat).filter (· ≤ nitems.toNat) = rest →
    ival.toNat + rest.length = nitems.toNat + 1 →
    Cycle reorder32Next ⟨0, mask, first, last, curr, nitems, ival⟩
      (rest.map fun v => first + UInt32.ofNat v) (reorder32Init first last) := by
  induction rest with
  | nil =>
    intro m curr ival _ _ hival
    apply Cycle.finish
    unfold reorder32Next
    rw [if_pos]
    left
    rw [gt_iff_lt, UInt32.lt_iff_toNat_lt]
    dsimp only at hival ⊢
    rw [List.length_nil] at hival
    omega
  | cons v more ih =>
    intro m curr ival hm hfilter hival
    obtain ⟨found, hsearch, hfound, m', hm', hmore⟩ := reorder32Search_spec hk hmask m hm hfilter
    rw [List.length_cons] at hival
    have hnext : (ival + 1).toNat = ival.toNat + 1 := by
      rw [UInt32.toNat_add]
      exact Nat.mod_eq_of_lt (by change ival.toNat + 1 < 2 ^ 32; omega)
    have hstep : reorder32Next ⟨0, mask, first, last, curr, nitems, ival⟩ =
        some (some (first + UInt32.ofNat v), ⟨0, mask, first, last, found, nitems, ival + 1⟩) := by
      have hmore : ¬ (ival > nitems) := by
        rw [gt_iff_lt, UInt32.lt_iff_toNat_lt]
        omega
      have hcarry : ¬ (ival + 1 < ival) := by
        rw [UInt32.lt_iff_toNat_lt, hnext]
        omega
      unfold reorder32Next
      rw [if_neg]
      · dsimp only
        rw [hsearch]
        rw [if_neg hcarry, ← hfound, UInt32.ofNat_toNat]
      · rintro (h | h)
        · exact hmore h
        · exact h UInt32.zero_and
    apply Cycle.item hstep
    rw [← hfound] at hmore
    apply ih m' found (ival + 1) (by omega) hmore
    rw [hnext]
    omega

end

/-- The numbers from the smaller to the larger bound. -/
def closedRange (first last : UInt32) : List UInt32 :=
  (List.range' (min first.toNat last.toNat)
    (max first.toNat last.toNat + 1 - min first.toNat last.toNat)).map UInt32.ofNat

theorem filter_le_range {n m : ℕ} (h : n < m) : (List.range m).filter (· ≤ n) = List.range (n + 1) := by
  obtain ⟨d, rfl⟩ := Nat.exists_eq_add_of_lt h
  rw [Nat.add_right_comm, List.range_add, List.filter_append]
  have hall : (List.range (n + 1)).filter (· ≤ n) = List.range (n + 1) := by
    rw [List.filter_eq_self]
    intro i hi
    have hlt := List.mem_range.mp hi
    simp only [decide_eq_true_eq]
    omega
  have hnone : ((List.range d).map fun i => n + 1 + i).filter (· ≤ n) = [] := by
    rw [List.filter_eq_nil_iff]
    intro i hi
    obtain ⟨j, -, rfl⟩ := List.mem_map.mp hi
    simp only [decide_eq_true_eq]
    omega
  rw [hall, hnone, List.append_nil]

variable {first last : UInt32}

theorem reorder32_cycle_ordered (hle : first.toNat ≤ last.toNat)
    (hsize : last.toNat - first.toNat < 2 ^ 32 - 1) :
    ∃ items, Cycle reorder32Next (reorder32Init first last) items (reorder32Init first last) ∧
      items.Perm ((List.range' first.toNat (last.toNat + 1 - first.toNat)).map UInt32.ofNat) := by
  have hnitems : (last - first).toNat = last.toNat - first.toNat := by
    rw [UInt32.toNat_sub_of_le]
    rwa [UInt32.le_iff_toNat_le]
  obtain ⟨k, hk, hmask, hlt⟩ := calcR4blockMask_spec (last - first)
  have hperm := (@Lcg.orbit_perm 5 1 rfl rfl k first.toNat).filter
    (· ≤ (last - first).toNat)
  rw [filter_le_range hlt] at hperm
  have hlen := hperm.length_eq
  rw [List.length_range] at hlen
  have hcycle := @reorder32_cycle_from (calcR4blockMask (last - first)) (last - first) k first last
    hk hmask (by omega) _ (2 ^ k) first 0 (Nat.pow_le_pow_right (by decide) hk) rfl
    (by rw [hlen]; exact Nat.zero_add _)
  have hinit : reorder32Init first last =
      ⟨0, calcR4blockMask (last - first), first, last, first, last - first, 0⟩ := by
    unfold reorder32Init
    rw [if_neg]
    rw [UInt32.lt_iff_toNat_lt]
    omega
  rw [← hinit] at hcycle
  refine ⟨_, hcycle, (hperm.map _).trans ?_⟩
  rw [hnitems, List.range'_eq_map_range, List.map_map,
    show last.toNat + 1 - first.toNat = last.toNat - first.toNat + 1 by omega]
  apply List.Perm.of_eq
  apply List.map_congr_left
  intro v _
  simp only [Function.comp_apply, UInt32.ofNat_add, UInt32.ofNat_toNat]

theorem reorder32_cycle
    (hsize : max first.toNat last.toNat - min first.toNat last.toNat < 2 ^ 32 - 1) :
    ∃ items, Cycle reorder32Next (reorder32Init first last) items (reorder32Init first last) ∧
      items.Perm (closedRange first last) := by
  unfold closedRange
  by_cases hle : first.toNat ≤ last.toNat
  · rw [Nat.min_eq_left hle, Nat.max_eq_right hle] at hsize ⊢
    exact reorder32_cycle_ordered hle hsize
  · have hle' := Nat.le_of_not_le hle
    rw [Nat.min_eq_right hle', Nat.max_eq_left hle'] at hsize ⊢
    have hswap : reorder32Init first last = reorder32Init last first := by
      unfold reorder32Init
      rw [if_pos, if_neg] <;> rw [UInt32.lt_iff_toNat_lt] <;> omega
    rw [hswap]
    exact reorder32_cycle_ordered hle' hsize

theorem reorderMapLoop_of_cycle {mapgen mapgen' : Reorder32} {items : List UInt32}
    (h : Cycle reorder32Next mapgen items mapgen') : ∀ mapval,
    reorderMapLoop items.length mapgen mapval = some (items.map asInt) := by
  induction h with
  | finish h => exact fun _ => rfl
  | item h hrest ih =>
    intro mapval
    rw [List.length_cons, reorderMapLoop, h]
    dsimp only
    rw [ih]
    rfl

theorem length_closedRange (first last : UInt32) : (closedRange first last).length =
    max first.toNat last.toNat + 1 - min first.toNat last.toNat := by
  rw [closedRange, List.length_map, List.length_range']

theorem reorderMap_spec {n : ℕ} (hpos : 0 < n) (hle : n ≤ 2 ^ 31 - 1) :
    ∃ map, reorderMap n = some map ∧ map.Perm ((List.range n).map Int.ofNat) := by
  have hlast : (UInt32.ofNat n - 1).toNat = n - 1 := by
    have hn : (UInt32.ofNat n).toNat = n := by
      rw [UInt32.toNat_ofNat']
      omega
    rw [UInt32.toNat_sub_of_le, hn]
    · rfl
    · rw [UInt32.le_iff_toNat_le, hn]
      exact hpos
  have hzero : (0 : UInt32).toNat = 0 := rfl
  obtain ⟨items, hcycle, hperm⟩ := @reorder32_cycle 0 (UInt32.ofNat n - 1) (by
    rw [hlast, hzero]
    omega)
  have hrange : closedRange 0 (UInt32.ofNat n - 1) = (List.range n).map UInt32.ofNat := by
    rw [closedRange, hlast, hzero, Nat.min_eq_left (Nat.zero_le _), Nat.max_eq_right (Nat.zero_le _),
      Nat.sub_zero, Nat.sub_add_cancel hpos, List.range_eq_range']
  rw [hrange] at hperm
  have hlen : items.length = n := by
    rw [hperm.length_eq, List.length_map, List.length_range]
  have hmap := reorderMapLoop_of_cycle hcycle 0
  rw [hlen] at hmap
  refine ⟨_, hmap, (hperm.map asInt).trans ?_⟩
  apply List.Perm.of_eq
  rw [List.map_map]
  apply List.map_congr_left
  intro i hi
  have hlt := List.mem_range.mp hi
  have htoNat : (UInt32.ofNat i).toNat = i := by
    rw [UInt32.toNat_ofNat']
    omega
  rw [Function.comp_apply, asInt, htoNat, if_pos (by omega)]
  rfl

/-! A cycle gives each value of the range once, and the next cycle is the same. -/

/-- Two cycles of one sequence, in which each value of the closed range is once. -/
def Enumerates (first last : UInt32) : Prop :=
  ∃ items blk blk', Cycle reorder32Next (reorder32Init first last) items blk ∧
    Cycle reorder32Next blk items blk' ∧ items.Nodup ∧
    (∀ x, x ∈ items ↔ min first.toNat last.toNat ≤ x.toNat ∧ x.toNat ≤ max first.toNat last.toNat) ∧
    items.length = max first.toNat last.toNat - min first.toNat last.toNat + 1

theorem nodup_closedRange (first last : UInt32) : (closedRange first last).Nodup := by
  apply List.Nodup.map_on _ List.nodup_range'
  intro x hx y hy hxy
  have hlast : max first.toNat last.toNat < 2 ^ 32 := Nat.max_lt.mpr ⟨first.toNat_lt, last.toNat_lt⟩
  rw [List.mem_range'_1] at hx hy
  have h := congrArg UInt32.toNat hxy
  rw [UInt32.toNat_ofNat', UInt32.toNat_ofNat', Nat.mod_eq_of_lt (by omega),
    Nat.mod_eq_of_lt (by omega)] at h
  exact h

theorem mem_closedRange {x : UInt32} : x ∈ closedRange first last ↔
    min first.toNat last.toNat ≤ x.toNat ∧ x.toNat ≤ max first.toNat last.toNat := by
  have hlast : max first.toNat last.toNat < 2 ^ 32 := Nat.max_lt.mpr ⟨first.toNat_lt, last.toNat_lt⟩
  unfold closedRange
  rw [List.mem_map]
  constructor
  · rintro ⟨i, hi, rfl⟩
    rw [List.mem_range'_1] at hi
    rw [UInt32.toNat_ofNat', Nat.mod_eq_of_lt (by omega)]
    omega
  · intro hx
    refine ⟨x.toNat, ?_, UInt32.ofNat_toNat⟩
    rw [List.mem_range'_1]
    omega

/-- In the range of all numbers no value is passed over, no counter is above the
number of items, and the flag for an overflow is never set. -/
theorem reorder32Next_full {blk : Reorder32} (hflags : blk.flags = 0)
    (hmask : blk.mask = 0xffffffff) (hnitems : blk.nitems = 0xffffffff) :
    ∃ x blk', reorder32Next blk = some (some x, blk') ∧ blk'.flags = 0 ∧
      blk'.mask = 0xffffffff ∧ blk'.nitems = 0xffffffff := by
  have hle (x : UInt32) : ¬ (x > 0xffffffff) := by
    rw [gt_iff_lt, UInt32.lt_iff_toNat_lt]
    exact Nat.not_lt.mpr (Nat.le_of_lt_succ x.toNat_lt)
  have hsearch (rounds : ℕ) (curr : UInt32) :
      reorder32Search 0xffffffff 0xffffffff (rounds + 1) curr =
        some ((curr * 5 + 1) &&& 0xffffffff) := by
    unfold reorder32Search
    rw [if_neg (hle _)]
  have hnever : ¬ (blk.ival > blk.nitems ∨ blk.flags &&& reorder32Overflowed ≠ 0) := by
    rw [hnitems, hflags]
    rintro (h | h)
    · exact hle _ h
    · exact h UInt32.zero_and
  unfold reorder32Next
  rw [if_neg hnever, hmask, hnitems, show (2 : ℕ) ^ 32 = 2 ^ 32 - 1 + 1 from rfl, hsearch]
  refine ⟨_, _, rfl, ?_, rfl, rfl⟩
  rw [hflags, UInt32.zero_and, ite_self]

theorem not_cycle_full {blk blk' : Reorder32} {items : List UInt32}
    (h : Cycle reorder32Next blk items blk') :
    blk.flags = 0 → blk.mask = 0xffffffff → blk.nitems ≠ 0xffffffff := by
  induction h with
  | finish hend =>
    intro hflags hmask hnitems
    obtain ⟨x, blk', hnext, -⟩ := reorder32Next_full hflags hmask hnitems
    exact absurd (hnext.symm.trans hend) (by simp)
  | item hitem hrest ih =>
    intro hflags hmask hnitems
    obtain ⟨x, blk', hnext, hflags', hmask', hnitems'⟩ := reorder32Next_full hflags hmask hnitems
    obtain ⟨-, rfl⟩ := Prod.mk.inj (Option.some.inj (hnext.symm.trans hitem))
    exact ih hflags' hmask' hnitems'

theorem reorder32Init_full (hfirst : min first.toNat last.toNat = 0)
    (hlast : max first.toNat last.toNat = 2 ^ 32 - 1) :
    reorder32Init first last = reorder32Init 0 0xffffffff := by
  by_cases hlt : last < first
  · have hlt' := UInt32.lt_iff_toNat_lt.mp hlt
    have h0 : last = 0 := UInt32.toNat_inj.mp (by change last.toNat = 0; omega)
    have h1 : first = 0xffffffff := UInt32.toNat_inj.mp (by change first.toNat = 2 ^ 32 - 1; omega)
    rw [h0, h1]
    rfl
  · have hle := Nat.not_lt.mp (mt UInt32.lt_iff_toNat_lt.mpr hlt)
    have h0 : first = 0 := UInt32.toNat_inj.mp (by change first.toNat = 0; omega)
    have h1 : last = 0xffffffff := UInt32.toNat_inj.mp (by change last.toNat = 2 ^ 32 - 1; omega)
    rw [h0, h1]

theorem enumerates_of_lt
    (hsize : max first.toNat last.toNat - min first.toNat last.toNat < 2 ^ 32 - 1) :
    Enumerates first last := by
  obtain ⟨items, hcycle, hperm⟩ := reorder32_cycle hsize
  refine ⟨items, _, _, hcycle, hcycle, hperm.nodup_iff.mpr (nodup_closedRange first last), ?_, ?_⟩
  · intro x
    rw [hperm.mem_iff]
    exact mem_closedRange
  · rw [hperm.length_eq, length_closedRange]
    omega

/-- Every range is enumerated but that of all numbers. -/
theorem reorder32_enumerates_iff (first last : UInt32) : Enumerates first last ↔
    ¬ (min first.toNat last.toNat = 0 ∧ max first.toNat last.toNat = 2 ^ 32 - 1) := by
  constructor
  · rintro ⟨items, blk, blk', hcycle, -⟩ ⟨hfirst, hlast⟩
    rw [reorder32Init_full hfirst hlast] at hcycle
    exact not_cycle_full hcycle rfl (by decide) rfl
  · intro hsize
    apply enumerates_of_lt
    have hmax : max first.toNat last.toNat < 2 ^ 32 :=
      Nat.max_lt.mpr ⟨first.toNat_lt, last.toNat_lt⟩
    omega

theorem not_enumerates_full : ¬ Enumerates 0 0xffffffff := by
  rintro ⟨items, blk, blk', hcycle, -⟩
  exact not_cycle_full hcycle rfl (by decide) rfl

end Yans.Util
