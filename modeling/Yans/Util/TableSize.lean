import Yans.Library.RobinHood.Search
import Mathlib.Data.Nat.Size
import Mathlib.Data.Nat.Bitwise

/-! Capacity arithmetic shared by the hash tables of `lib/util`: rounding up to
a power of two, the rehash limit, and masking as reduction modulo the
capacity. All of it is 32-bit. -/
namespace Yans.Util.TableSize

/-- The rounding from the bit-twiddling hacks that each table file repeats. -/
def roundUpPow2 (v : UInt32) : UInt32 :=
  let v := v - 1
  let v := v ||| v >>> 1
  let v := v ||| v >>> 2
  let v := v ||| v >>> 4
  let v := v ||| v >>> 8
  let v := v ||| v >>> 16
  v + 1

/-- `REHASH_ROUND_UP`, for allocating. -/
def rehashRoundUp (val : UInt32) : UInt32 := val + val / 6

/-- `REHASH_LIMIT`, for calculating the limit. -/
def rehashLimit (val : UInt32) : UInt32 := val - val / 6

/-- The number of keys at which a table of the largest 32-bit capacity would
have to grow. -/
def maxKeys : ℕ := 2 ^ 31 - 2 ^ 31 / 6

/-- One smearing step doubles the window of bits that are or-ed together. -/
private theorem testBit_smear {x y : ℕ} (width wide : ℕ) (hwide : wide = width + width)
    (h : ∀ i, y.testBit i = true ↔ ∃ j < width, x.testBit (i + j) = true) (i : ℕ) :
    (y ||| y >>> width).testBit i = true ↔ ∃ j < wide, x.testBit (i + j) = true := by
  subst hwide
  rw [Nat.testBit_or, Nat.testBit_shiftRight, Bool.or_eq_true, h, h]
  constructor
  · rintro (⟨j, hj, hbit⟩ | ⟨j, hj, hbit⟩)
    · exact ⟨j, by omega, hbit⟩
    · exact ⟨width + j, by omega, by rwa [show i + (width + j) = width + i + j by omega]⟩
  · rintro ⟨j, hj, hbit⟩
    by_cases hlow : j < width
    · exact .inl ⟨j, hlow, hbit⟩
    · exact .inr ⟨j - width, by omega, by rwa [show width + i + (j - width) = i + j by omega]⟩

/-- Or-ing a window at least as wide as the number fills it with ones. -/
private theorem smear_eq {x y width : ℕ} (hx : x < 2 ^ width)
    (h : ∀ i, y.testBit i = true ↔ ∃ j < width, x.testBit (i + j) = true) :
    y = 2 ^ Nat.size x - 1 := by
  apply Nat.eq_of_testBit_eq
  intro i
  rw [Bool.eq_iff_iff, h, Nat.testBit_two_pow_sub_one, decide_eq_true_eq]
  constructor
  · rintro ⟨j, hj, hbit⟩
    by_contra hle
    have hlt : x < 2 ^ (i + j) :=
      (Nat.lt_size_self x).trans_le (Nat.pow_le_pow_right (by decide) (by omega))
    rw [Nat.testBit_lt_two_pow hlt] at hbit
    contradiction
  · intro hi
    have hsize : Nat.size x ≤ width := Nat.size_le.mpr hx
    refine ⟨Nat.size x - 1 - i, by omega, ?_⟩
    rw [show i + (Nat.size x - 1 - i) = Nat.size x - 1 by omega]
    apply Nat.testBit_of_two_pow_le_and_two_pow_add_one_gt
    · exact Nat.lt_size.mp (by omega)
    · rw [Nat.sub_add_cancel (by omega)]
      exact Nat.lt_size_self x

private theorem toNat_smear (y shift : UInt32) (hshift : shift.toNat < 32) :
    (y ||| y >>> shift).toNat = y.toNat ||| y.toNat >>> shift.toNat := by
  rw [UInt32.toNat_or, UInt32.toNat_shiftRight, Nat.mod_eq_of_lt hshift]

private theorem smear_toNat (x : UInt32) :
    let v := x ||| x >>> 1
    let v := v ||| v >>> 2
    let v := v ||| v >>> 4
    let v := v ||| v >>> 8
    let v := v ||| v >>> 16
    v.toNat = 2 ^ Nat.size x.toNat - 1 := by
  have hstart : ∀ i, x.toNat.testBit i = true ↔ ∃ j < 1, x.toNat.testBit (i + j) = true := by
    intro i
    simp
  have h2 := testBit_smear 1 2 rfl hstart
  have h4 := testBit_smear 2 4 rfl h2
  have h8 := testBit_smear 4 8 rfl h4
  have h16 := testBit_smear 8 16 rfl h8
  have h32 := testBit_smear 16 32 rfl h16
  rw [← smear_eq x.toNat_lt h32]
  dsimp only
  rw [toNat_smear _ 16 (by decide), toNat_smear _ 8 (by decide), toNat_smear _ 4 (by decide),
    toNat_smear _ 2 (by decide), toNat_smear _ 1 (by decide)]
  rfl

theorem toNat_roundUpPow2 {v : UInt32} (hpos : 0 < v.toNat) (hle : v.toNat ≤ 2 ^ 31) :
    (roundUpPow2 v).toNat = 2 ^ Nat.size (v.toNat - 1) := by
  have hsub : (v - 1).toNat = v.toNat - 1 := by
    rw [UInt32.toNat_sub_of_le]
    · rfl
    · rw [UInt32.le_iff_toNat_le]
      exact hpos
  have hsize : Nat.size (v.toNat - 1) ≤ 31 := Nat.size_le.mpr (by omega)
  have hpow : 2 ^ Nat.size (v.toNat - 1) ≤ 2 ^ 31 := Nat.pow_le_pow_right (by decide) hsize
  have hsmear := smear_toNat (v - 1)
  rw [hsub] at hsmear
  unfold roundUpPow2
  rw [UInt32.toNat_add, hsmear]
  have hone : (1 : UInt32).toNat = 1 := rfl
  rw [hone, Nat.sub_add_cancel (Nat.one_le_two_pow)]
  exact Nat.mod_eq_of_lt (by omega)

theorem roundUpPow2_of_le {v : UInt32} (hpos : 0 < v.toNat) (hle : v.toNat ≤ 2 ^ 31) :
    ∃ k ≤ 31, (roundUpPow2 v).toNat = 2 ^ k ∧ v.toNat ≤ 2 ^ k := by
  have hsize : Nat.size (v.toNat - 1) ≤ 31 := Nat.size_le.mpr (by omega)
  have hlt := Nat.lt_size_self (v.toNat - 1)
  exact ⟨Nat.size (v.toNat - 1), hsize, toNat_roundUpPow2 hpos hle, by omega⟩

theorem roundUpPow2_of_gt {v : UInt32} (hgt : 2 ^ 31 < v.toNat) : (roundUpPow2 v).toNat = 0 := by
  have hsub : (v - 1).toNat = v.toNat - 1 := by
    rw [UInt32.toNat_sub_of_le]
    · rfl
    · rw [UInt32.le_iff_toNat_le]
      exact Nat.one_le_of_lt hgt
  have hlt := v.toNat_lt
  have hsize : Nat.size (v.toNat - 1) = 32 := by
    apply Nat.le_antisymm
    · exact Nat.size_le.mpr (by omega)
    · exact Nat.lt_size.mpr (by omega)
  have hsmear := smear_toNat (v - 1)
  rw [hsub, hsize] at hsmear
  unfold roundUpPow2
  rw [UInt32.toNat_add, hsmear]
  rfl

theorem toNat_and_mask {cap : UInt32} {k : ℕ} (hcap : cap.toNat = 2 ^ k) (v : UInt32) :
    (v &&& (cap - 1)).toNat = v.toNat % cap.toNat := by
  have hone : 1 ≤ cap := by
    rw [UInt32.le_iff_toNat_le, hcap]
    exact Nat.one_le_two_pow
  rw [UInt32.toNat_and, UInt32.toNat_sub_of_le _ _ hone, hcap]
  exact Nat.and_two_pow_sub_one_eq_mod v.toNat k

theorem toNat_rehashLimit (cap : UInt32) :
    (rehashLimit cap).toNat = cap.toNat - cap.toNat / 6 := by
  unfold rehashLimit
  have hdiv : (cap / 6).toNat = cap.toNat / 6 := UInt32.toNat_div cap 6
  rw [UInt32.toNat_sub_of_le, hdiv]
  rw [UInt32.le_iff_toNat_le, hdiv]
  exact Nat.div_le_self _ _

structure Sized (cap modmask limit : UInt32) : Prop where
  pow : ∃ k ≤ 31, cap.toNat = 2 ^ k
  mask : modmask = cap - 1
  limit_eq : limit = rehashLimit cap

namespace Sized

variable {cap modmask limit : UInt32} (sized : Sized cap modmask limit)
include sized

theorem cap_pos : 0 < cap.toNat := by
  obtain ⟨k, _, hk⟩ := sized.pow
  rw [hk]
  exact Nat.two_pow_pos k

theorem cap_le : cap.toNat ≤ 2 ^ 31 := by
  obtain ⟨k, hle, hk⟩ := sized.pow
  rw [hk]
  exact Nat.pow_le_pow_right (by decide) hle

theorem index_eq (v : UInt32) : (v &&& modmask).toNat = v.toNat % cap.toNat := by
  obtain ⟨k, _, hk⟩ := sized.pow
  rw [sized.mask, toNat_and_mask hk]

theorem index_lt (v : UInt32) : (v &&& modmask).toNat < cap.toNat := by
  rw [sized.index_eq]
  exact Nat.mod_lt _ sized.cap_pos

theorem advances :
    Library.RobinHood.Advances (fun n => (UInt32.ofNat n &&& modmask).toNat) cap.toNat := by
  intro n hn
  have hle := sized.cap_le
  have hsmall : n < 2 ^ 32 := by omega
  dsimp only
  rw [sized.index_eq, UInt32.toNat_ofNat', Nat.mod_eq_of_lt hsmall]

theorem limit_toNat : limit.toNat = cap.toNat - cap.toNat / 6 := by
  rw [sized.limit_eq, toNat_rehashLimit]

theorem double : cap.toNat = 2 ^ 31 ∧ cap <<< 1 < cap ∨
    2 * cap.toNat ≤ 2 ^ 31 ∧ ¬ cap <<< 1 < cap ∧ (cap <<< 1).toNat = 2 * cap.toNat := by
  have hshift : (cap <<< 1).toNat = 2 * cap.toNat % 2 ^ 32 := by
    rw [UInt32.toNat_shiftLeft, Nat.shiftLeft_eq, mul_comm]
    rfl
  rw [UInt32.lt_iff_toNat_lt, hshift]
  by_cases hmax : cap.toNat = 2 ^ 31
  · left
    refine ⟨hmax, ?_⟩
    rw [hmax]
    decide
  · right
    have hroom : 2 * cap.toNat ≤ 2 ^ 31 := by
      obtain ⟨k, hk, hpow⟩ := sized.pow
      have hne : k ≠ 31 := by
        rintro rfl
        exact hmax hpow
      rw [hpow, ← pow_succ']
      exact Nat.pow_le_pow_right (by decide) (by omega)
    rw [Nat.mod_eq_of_lt (by omega)]
    omega

end Sized

/-- The capacity computed for a requested number of slots: it overflows exactly
when the request exceeds the largest power of two. -/
theorem sized_roundUp {nslots : UInt32} (hpos : 0 < nslots.toNat) :
    2 ^ 31 < nslots.toNat ∧ roundUpPow2 nslots < nslots ∨
    nslots.toNat ≤ 2 ^ 31 ∧ ¬ roundUpPow2 nslots < nslots ∧
      Sized (roundUpPow2 nslots) (roundUpPow2 nslots - 1) (rehashLimit (roundUpPow2 nslots)) ∧
      nslots.toNat ≤ (roundUpPow2 nslots).toNat := by
  rw [UInt32.lt_iff_toNat_lt]
  by_cases hgt : 2 ^ 31 < nslots.toNat
  · left
    rw [roundUpPow2_of_gt hgt]
    exact ⟨hgt, hpos⟩
  · right
    obtain ⟨k, hk, hpow, hle⟩ := roundUpPow2_of_le hpos (not_lt.mp hgt)
    rw [← hpow] at hle
    exact ⟨not_lt.mp hgt, by omega, ⟨⟨k, hk, hpow⟩, rfl, rfl⟩, hle⟩

theorem rehashRoundUp_cases (nslots : UInt32) :
    2 ^ 31 < nslots.toNat + nslots.toNat / 6 ∧ rehashRoundUp nslots < nslots ∨
    ¬ rehashRoundUp nslots < nslots ∧
      (rehashRoundUp nslots).toNat = nslots.toNat + nslots.toNat / 6 := by
  have hdiv : (nslots / 6).toNat = nslots.toNat / 6 := UInt32.toNat_div nslots 6
  have hlt := nslots.toNat_lt
  rw [UInt32.lt_iff_toNat_lt, rehashRoundUp, UInt32.toNat_add, hdiv]
  by_cases hwrap : nslots.toNat + nslots.toNat / 6 < 2 ^ 32
  · right
    rw [Nat.mod_eq_of_lt hwrap]
    omega
  · left
    rw [Nat.mod_eq_sub_mod (by omega), Nat.mod_eq_of_lt (by omega)]
    omega

/-- The slots a table is initialised with when `nslots` are asked for: beyond
`2 ^ 31` either the rounding wraps or the capacity does. -/
theorem initSlots_cases {nslots wanted : UInt32}
    (hwanted : wanted = if nslots = 0 then 1 else nslots) :
    2 ^ 31 < nslots.toNat + nslots.toNat / 6 ∧
      (rehashRoundUp wanted < wanted ∨
        ¬ rehashRoundUp wanted < wanted ∧ 2 ^ 31 < (rehashRoundUp wanted).toNat) ∨
    nslots.toNat + nslots.toNat / 6 ≤ 2 ^ 31 ∧ ¬ rehashRoundUp wanted < wanted ∧
      0 < (rehashRoundUp wanted).toNat ∧ (rehashRoundUp wanted).toNat ≤ 2 ^ 31 := by
  have hpos : 0 < wanted.toNat := by
    rw [hwanted]
    split
    · decide
    · rename_i hne
      apply Nat.pos_of_ne_zero
      intro hzero
      exact hne (UInt32.toNat_inj.mp hzero)
  have hlarge : 2 ^ 31 < wanted.toNat + wanted.toNat / 6 ↔
      2 ^ 31 < nslots.toNat + nslots.toNat / 6 := by
    rw [hwanted]
    split
    · rename_i hzero
      rw [hzero]
      decide
    · exact Iff.rfl
  obtain ⟨hgt, hwrap⟩ | ⟨hfits, hexact⟩ := rehashRoundUp_cases wanted
  · exact .inl ⟨hlarge.mp hgt, .inl hwrap⟩
  · by_cases hbig : 2 ^ 31 < nslots.toNat + nslots.toNat / 6
    · have := hlarge.mpr hbig
      exact .inl ⟨hbig, .inr ⟨hfits, by omega⟩⟩
    · have := mt hlarge.mp hbig
      exact .inr ⟨by omega, hfits, by omega, by omega⟩

end Yans.Util.TableSize
