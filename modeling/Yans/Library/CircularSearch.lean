import Mathlib.Data.Nat.ModEq
import Mathlib.Tactic.Common

/-! A search that starts anywhere in a table, wraps around behind its last
entry and gives up where it started. -/
namespace Yans.Library.CircularSearch

/-- The tests from entry `i` on. -/
def around (test : ℕ → Bool) (n start : ℕ) : ℕ → ℕ → Option ℕ
  | 0, _ => none
  | fuel + 1, i =>
    if test i then some i
    else
      let next := (i + 1) % n
      if next ≠ start then around test n start fuel next else none

variable {test : ℕ → Bool} {n start : ℕ}

theorem add_mod_ne {k j : ℕ} (hkj : k < j) (hj : j < n) : (start + k) % n ≠ (start + j) % n := by
  intro h
  have hmodEq : start + k ≡ start + j [MOD n] := h
  have := Nat.ModEq.add_left_cancel' start hmodEq
  rw [Nat.ModEq, Nat.mod_eq_of_lt (by omega), Nat.mod_eq_of_lt hj] at this
  omega

/-- The induction is on the distance to the entry. -/
theorem around_from (hstart : start < n) {i : ℕ} (htest : test i = true) (d : ℕ) :
    ∀ {k fuel : ℕ}, k + d < n → (start + (k + d)) % n = i → d < fuel →
      (∀ j < n, test j = true → j = i) →
      around test n start fuel ((start + k) % n) = some i := by
  induction d with
  | zero =>
    intro k fuel _ hi hfuel _
    obtain ⟨fuel, rfl⟩ := Nat.exists_eq_add_of_le' hfuel
    rw [Nat.add_zero] at hi
    rw [hi, around, if_pos htest]
  | succ d ih =>
    intro k fuel hk hi hfuel hunique
    obtain ⟨fuel, rfl⟩ := Nat.exists_eq_add_of_le' (show 1 ≤ fuel by omega)
    have hother : ¬ test ((start + k) % n) = true := by
      intro hhere
      have hidx := hunique _ (Nat.mod_lt _ (by omega)) hhere
      exact add_mod_ne (show k < k + (d + 1) by omega) hk (hidx.trans hi.symm)
    have hnext : ((start + k) % n + 1) % n = (start + (k + 1)) % n := by
      rw [Nat.mod_add_mod, Nat.add_assoc]
    have hround : (start + (k + 1)) % n ≠ start := by
      intro h
      have hzero : (start + 0) % n = start := Nat.mod_eq_of_lt hstart
      exact add_mod_ne (show 0 < k + 1 by omega) (by omega) (hzero.trans h.symm)
    rw [around, if_neg hother]
    dsimp only
    rw [hnext, if_pos hround]
    exact ih (by omega) (by rw [Nat.add_right_comm k 1 d, Nat.add_assoc k d 1]; exact hi) (by omega)
      hunique

theorem around_of_unique {i : ℕ} (hi : i < n) (htest : test i = true)
    (hunique : ∀ j < n, test j = true → j = i) (hstart : start < n) :
    around test n start n start = some i := by
  have hzero : (start + 0) % n = start := Nat.mod_eq_of_lt hstart
  have hreach : ∃ d < n, (start + (0 + d)) % n = i := by
    by_cases hle : start ≤ i
    · exact ⟨i - start, by omega, by rw [Nat.mod_eq_of_lt (by omega)]; omega⟩
    · refine ⟨i + n - start, by omega, ?_⟩
      rw [show start + (0 + (i + n - start)) = i + n by omega, Nat.add_mod_right,
        Nat.mod_eq_of_lt hi]
  obtain ⟨d, hd, hreach⟩ := hreach
  have h := @around_from test n start hstart i htest d 0 n (by omega) hreach hd hunique
  rwa [hzero] at h

end Yans.Library.CircularSearch
