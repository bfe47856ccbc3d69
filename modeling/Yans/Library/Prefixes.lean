import Mathlib.Algebra.Group.Nat.Defs
import Mathlib.Data.Nat.Bitwise

/-! Prefixes of numbers of a fixed width: clearing or setting the lower `n` bits,
and the numbers that share the bits above them. -/
namespace Yans.Library.Prefixes

/-- The number with the lower `n` bits cleared. -/
def clearLow (v n : ℕ) : ℕ := v / 2 ^ n * 2 ^ n

/-- The number with the lower `n` bits set. -/
def setLow (v n : ℕ) : ℕ := clearLow v n + (2 ^ n - 1)

theorem clearLow_le (v n : ℕ) : clearLow v n ≤ v := Nat.div_mul_le_self v (2 ^ n)

theorem le_clearLow (v n : ℕ) : v ≤ clearLow (v + (2 ^ n - 1)) n := by
  have hpos := Nat.two_pow_pos n
  have hlt := Nat.lt_div_mul_add hpos (a := v + (2 ^ n - 1))
  unfold clearLow
  omega

theorem testBit_mask {w n i : ℕ} (hn : n ≤ w) :
    (2 ^ w - 2 ^ n).testBit i = (decide (i < w) && !decide (i < n)) := by
  have hpos := Nat.two_pow_pos n
  have hpow : 2 ^ n ≤ 2 ^ w := Nat.pow_le_pow_right (by decide) hn
  have hbits := @Nat.testBit_two_pow_sub_succ (2 ^ n - 1) w (by omega) i
  rw [Nat.sub_add_cancel hpos, Nat.testBit_two_pow_sub_one] at hbits
  exact hbits

theorem testBit_clearLow (v n i : ℕ) :
    (clearLow v n).testBit i = (!decide (i < n) && v.testBit i) := by
  unfold clearLow
  rw [← Nat.shiftRight_eq_div_pow, ← Nat.shiftLeft_eq, Nat.testBit_shiftLeft,
    Nat.testBit_shiftRight]
  by_cases hi : i < n
  · simp [hi]
  · have hge : n ≤ i := Nat.le_of_not_lt hi
    rw [Nat.add_sub_cancel' hge]
    simp [hi, hge]

theorem testBit_setLow (v n i : ℕ) :
    (setLow v n).testBit i = (decide (i < n) || v.testBit i) := by
  have hpos := Nat.two_pow_pos n
  have hor : setLow v n = clearLow v n ||| (2 ^ n - 1) := by
    unfold setLow clearLow
    rw [← Nat.shiftLeft_eq, Nat.shiftLeft_add_eq_or_of_lt (by omega)]
  rw [hor, Nat.testBit_or, testBit_clearLow, Nat.testBit_two_pow_sub_one]
  by_cases hi : i < n
  · simp [hi]
  · simp [hi]

theorem div_eq_iff_testBit {v x n : ℕ} :
    x / 2 ^ n = v / 2 ^ n ↔ ∀ i, n ≤ i → x.testBit i = v.testBit i := by
  rw [← Nat.shiftRight_eq_div_pow, ← Nat.shiftRight_eq_div_pow]
  constructor
  · intro h i hi
    have hbit := congrArg (fun quotient => quotient.testBit (i - n)) h
    rwa [Nat.testBit_shiftRight, Nat.testBit_shiftRight, Nat.add_sub_cancel' hi] at hbit
  · intro h
    apply Nat.eq_of_testBit_eq
    intro i
    rw [Nat.testBit_shiftRight, Nat.testBit_shiftRight]
    exact h (n + i) (Nat.le_add_right n i)

theorem between_iff_testBit {v x n : ℕ} :
    clearLow v n ≤ x ∧ x ≤ setLow v n ↔ ∀ i, n ≤ i → x.testBit i = v.testBit i := by
  have hpos := Nat.two_pow_pos n
  rw [← div_eq_iff_testBit, Nat.div_eq_iff hpos]
  unfold setLow clearLow
  omega

end Yans.Library.Prefixes
