import Mathlib.Algebra.Ring.Nat
import Mathlib.Data.List.Nodup
import Mathlib.Data.List.Perm.Subperm
import Mathlib.Data.List.Range
import Mathlib.Data.Nat.ModEq
import Mathlib.Logic.Function.Iterate
import Mathlib.Tactic.Ring

/-! The linear congruential generator `x ↦ a * x + c` modulo a power of two. When
`a` is one modulo four and `c` is odd, it goes through all residues before it
repeats itself, from every seed. -/
namespace Yans.Library.Lcg

def affine (a c x : ℕ) : ℕ := a * x + c

def step (a c m x : ℕ) : ℕ := affine a c x % m

/-- The next `n` values. -/
def orbit (a c m : ℕ) : ℕ → ℕ → List ℕ
  | 0, _ => []
  | n + 1, x => step a c m x :: orbit a c m n (step a c m x)

section

variable {a c m : ℕ}

theorem length_orbit (n : ℕ) : ∀ x, (orbit a c m n x).length = n := by
  induction n with
  | zero => exact fun x => rfl
  | succ n ih => exact fun x => congrArg Nat.succ (ih _)

theorem lt_of_mem_orbit (hm : 0 < m) (n : ℕ) : ∀ x y, y ∈ orbit a c m n x → y < m := by
  induction n with
  | zero => exact nofun
  | succ n ih =>
    intro x y hy
    obtain rfl | hy := List.mem_cons.mp hy
    · exact Nat.mod_lt _ hm
    · exact ih _ y hy

theorem affine_mod (x : ℕ) : affine a c (x % m) % m = affine a c x % m := by
  unfold affine
  rw [Nat.add_mod, Nat.mul_mod, Nat.mod_mod, ← Nat.mul_mod, ← Nat.add_mod]

theorem iterate_affine_mod (n : ℕ) : ∀ x, (affine a c)^[n] (x % m) % m = (affine a c)^[n] x % m := by
  induction n with
  | zero => exact fun x => Nat.mod_mod _ _
  | succ n ih =>
    intro x
    rw [Function.iterate_succ_apply, Function.iterate_succ_apply, ← ih, affine_mod, ih]

theorem mem_orbit (n : ℕ) : ∀ x y, y ∈ orbit a c m n x ↔
    ∃ i < n, y = (affine a c)^[i + 1] x % m := by
  induction n with
  | zero => simp [orbit]
  | succ n ih =>
    intro x y
    rw [orbit, List.mem_cons, ih]
    constructor
    · rintro (rfl | ⟨i, hi, rfl⟩)
      · exact ⟨0, Nat.succ_pos _, rfl⟩
      · refine ⟨i + 1, Nat.succ_lt_succ hi, ?_⟩
        rw [step, iterate_affine_mod, ← Function.iterate_succ_apply]
    · rintro ⟨i, hi, rfl⟩
      cases i with
      | zero => exact Or.inl rfl
      | succ i =>
        refine Or.inr ⟨i, Nat.lt_of_succ_lt_succ hi, ?_⟩
        rw [step, iterate_affine_mod, ← Function.iterate_succ_apply]

theorem iterate_two_pow_affine (ha : a % 4 = 1) (hc : c % 2 = 1) (k : ℕ) :
    ∃ t s, ∀ x, (affine a c)^[2 ^ k] x = x + 2 ^ k + 2 ^ (k + 1) * (2 * t * x + s) := by
  induction k with
  | zero =>
    refine ⟨a / 4, c / 2, fun x => ?_⟩
    have hmul : a * x = x + 4 * (a / 4) * x := by
      conv_lhs => rw [← Nat.mod_add_div a 4, ha]
      ring
    have hadd : c = 1 + 2 * (c / 2) := by omega
    calc (affine a c)^[2 ^ 0] x = a * x + c := rfl
      _ = x + 4 * (a / 4) * x + (1 + 2 * (c / 2)) := by rw [← hmul, ← hadd]
      _ = x + 2 ^ 0 + 2 ^ (0 + 1) * (2 * (a / 4) * x + c / 2) := by ring
  | succ k ih =>
    obtain ⟨t, s, hdouble⟩ := ih
    refine ⟨t + 2 ^ (k + 1) * t * t, s + t * (2 ^ k + 2 ^ (k + 1) * s), fun x => ?_⟩
    rw [pow_succ, Nat.mul_two, Function.iterate_add_apply, hdouble, hdouble]
    ring

theorem iterate_mul_two_pow (ha : a % 4 = 1) (hc : c % 2 = 1) (k q x : ℕ) :
    ∃ s, (affine a c)^[q * 2 ^ k] x = x + q * 2 ^ k + 2 ^ (k + 1) * s := by
  obtain ⟨t, s₀, hpow⟩ := iterate_two_pow_affine ha hc k
  induction q with
  | zero => exact ⟨0, by simp⟩
  | succ q ih =>
    obtain ⟨s, hs⟩ := ih
    refine ⟨s + (2 * t * (x + q * 2 ^ k + 2 ^ (k + 1) * s) + s₀), ?_⟩
    rw [Nat.succ_mul, Nat.add_comm, Function.iterate_add_apply, hs, hpow]
    ring

theorem dvd_of_iterate_mod (ha : a % 4 = 1) (hc : c % 2 = 1) {d x : ℕ} (k : ℕ)
    (h : (affine a c)^[d] x % 2 ^ k = x % 2 ^ k) : 2 ^ k ∣ d := by
  induction k with
  | zero => exact one_dvd d
  | succ k ih =>
    have hlow : (affine a c)^[d] x % 2 ^ k = x % 2 ^ k := by
      have hdvd : 2 ^ k ∣ 2 ^ (k + 1) := ⟨2, rfl⟩
      rw [← Nat.mod_mod_of_dvd _ hdvd, h, Nat.mod_mod_of_dvd _ hdvd]
    obtain ⟨q, rfl⟩ := ih hlow
    obtain ⟨s, hs⟩ := iterate_mul_two_pow ha hc k q x
    rw [Nat.mul_comm, hs, Nat.add_mul_mod_self_left] at h
    -- adding `q * 2 ^ k` changes nothing modulo `2 ^ (k + 1)`, so `q` is even
    have hzero : q * 2 ^ k ≡ 0 [MOD 2 ^ (k + 1)] :=
      Nat.ModEq.add_left_cancel' x h
    have hdvd := (Nat.modEq_zero_iff_dvd).mp hzero
    rw [Nat.mul_comm] at hdvd
    exact hdvd

theorem orbit_nodup (ha : a % 4 = 1) (hc : c % 2 = 1) {k : ℕ} (n : ℕ) : ∀ x, n ≤ 2 ^ k →
    (orbit a c (2 ^ k) n x).Nodup := by
  induction n with
  | zero => exact fun x _ => List.nodup_nil
  | succ n ih =>
    intro x hn
    refine List.nodup_cons.mpr ⟨?_, ih _ (Nat.le_of_succ_le hn)⟩
    rw [mem_orbit]
    rintro ⟨i, hi, heq⟩
    have hback : (affine a c)^[i + 1] (step a c (2 ^ k) x) % 2 ^ k = step a c (2 ^ k) x % 2 ^ k := by
      rw [← heq, step, Nat.mod_mod]
    have hle := Nat.le_of_dvd (Nat.succ_pos i) (dvd_of_iterate_mod ha hc k hback)
    omega

theorem orbit_perm (ha : a % 4 = 1) (hc : c % 2 = 1) (k x : ℕ) :
    (orbit a c (2 ^ k) (2 ^ k) x).Perm (List.range (2 ^ k)) := by
  have hsub : orbit a c (2 ^ k) (2 ^ k) x ⊆ List.range (2 ^ k) := by
    intro y hy
    exact List.mem_range.mpr (lt_of_mem_orbit (Nat.two_pow_pos k) _ x y hy)
  have hsubperm := List.subperm_of_subset (orbit_nodup ha hc _ x (Nat.le_refl _)) hsub
  apply hsubperm.perm_of_length_le
  rw [List.length_range, length_orbit]

end

end Yans.Library.Lcg
