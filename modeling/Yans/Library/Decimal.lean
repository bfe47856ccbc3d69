import Mathlib.Algebra.Group.Nat.Defs
import Mathlib.Data.Nat.Notation
import Mathlib.Tactic.Common

/-! Decimal numerals over ASCII bytes: printing from the right, and the value a
left-to-right reader accumulates. -/
namespace Yans.Library.Decimal

def IsDigit (c : UInt8) : Prop := 48 ≤ c ∧ c ≤ 57

instance (c : UInt8) : Decidable (IsDigit c) :=
  inferInstanceAs (Decidable (48 ≤ c ∧ c ≤ 57))

def digitValue (c : UInt8) : ℕ := c.toNat - 48

/-- The value accumulated after reading `digits` on top of `start`. -/
def value (start : ℕ) (digits : List UInt8) : ℕ :=
  digits.foldl (fun acc c => acc * 10 + digitValue c) start

/-- Put the numeral of `n` in front of what is already there, the last digit
first. -/
def printOnto (n : ℕ) (tail : List UInt8) : List UInt8 :=
  let tail := UInt8.ofNat (48 + n % 10) :: tail
  if n / 10 = 0 then tail else printOnto (n / 10) tail
termination_by n

def numeral (n : ℕ) : List UInt8 := printOnto n []

theorem digit_toNat (n : ℕ) : (UInt8.ofNat (48 + n % 10)).toNat = 48 + n % 10 := by
  rw [UInt8.toNat_ofNat']
  exact Nat.mod_eq_of_lt (by omega)

theorem isDigit_iff {c : UInt8} : IsDigit c ↔ 48 ≤ c.toNat ∧ c.toNat ≤ 57 := by
  unfold IsDigit
  rw [UInt8.le_iff_toNat_le, UInt8.le_iff_toNat_le]
  exact Iff.rfl

theorem isDigit_digit (n : ℕ) : IsDigit (UInt8.ofNat (48 + n % 10)) := by
  rw [isDigit_iff, digit_toNat]
  omega

theorem digitValue_digit (n : ℕ) : digitValue (UInt8.ofNat (48 + n % 10)) = n % 10 := by
  unfold digitValue
  rw [digit_toNat]
  omega

theorem printOnto_eq (n : ℕ) (tail : List UInt8) :
    printOnto n tail =
      if n / 10 = 0 then UInt8.ofNat (48 + n % 10) :: tail
      else printOnto (n / 10) (UInt8.ofNat (48 + n % 10) :: tail) := by
  rw [printOnto]

theorem printOnto_append (n : ℕ) : ∀ tail, printOnto n tail = numeral n ++ tail := by
  induction n using Nat.strongRecOn with
  | _ n ih =>
    intro tail
    unfold numeral
    rw [printOnto_eq n tail, printOnto_eq n []]
    split
    · rfl
    · rename_i hmore
      have hlt : n / 10 < n := by omega
      rw [ih _ hlt (_ :: tail), ih _ hlt [_], List.append_assoc]
      rfl

theorem numeral_small {n : ℕ} (h : n / 10 = 0) : numeral n = [UInt8.ofNat (48 + n % 10)] := by
  unfold numeral
  rw [printOnto_eq, if_pos h]

theorem numeral_step {n : ℕ} (h : n / 10 ≠ 0) :
    numeral n = numeral (n / 10) ++ [UInt8.ofNat (48 + n % 10)] := by
  rw [← printOnto_append]
  unfold numeral
  rw [printOnto_eq, if_neg h]

theorem numeral_ne_nil (n : ℕ) : numeral n ≠ [] := by
  by_cases h : n / 10 = 0
  · simp [numeral_small h]
  · simp [numeral_step h]

theorem length_numeral_le (n : ℕ) : (numeral n).length ≤ n + 1 := by
  induction n using Nat.strongRecOn with
  | _ n ih =>
    by_cases h : n / 10 = 0
    · simp [numeral_small h]
    · have hrest := ih (n / 10) (by omega)
      rw [numeral_step h, List.length_append, List.length_singleton]
      omega

theorem length_numeral_lt (k : ℕ) : ∀ {n : ℕ}, n < 10 ^ (k + 1) → (numeral n).length ≤ k + 1 := by
  induction k with
  | zero =>
    intro n hn
    rw [numeral_small (by omega)]
    exact Nat.le_refl _
  | succ k ih =>
    intro n hn
    by_cases hsmall : n / 10 = 0
    · rw [numeral_small hsmall, List.length_singleton]
      omega
    · have hdiv : n / 10 < 10 ^ (k + 1) := by
        rw [Nat.pow_succ] at hn
        omega
      rw [numeral_step hsmall, List.length_append, List.length_singleton]
      exact Nat.succ_le_succ (ih hdiv)

theorem length_numeral_pos (n : ℕ) : 0 < (numeral n).length :=
  List.length_pos_iff.mpr (numeral_ne_nil n)

theorem length_numeral_mono {n : ℕ} : ∀ {m : ℕ}, m ≤ n →
    (numeral m).length ≤ (numeral n).length := by
  induction n using Nat.strongRecOn with
  | _ n ih =>
    intro m hle
    by_cases hm : m / 10 = 0
    · rw [numeral_small hm]
      exact length_numeral_pos n
    · have hn : n / 10 ≠ 0 := by omega
      have hrest := ih (n / 10) (by omega) (show m / 10 ≤ n / 10 by omega)
      rw [numeral_step hm, numeral_step hn, List.length_append, List.length_append,
        List.length_singleton, List.length_singleton]
      omega

theorem isDigit_of_mem_numeral (n : ℕ) : ∀ c ∈ numeral n, IsDigit c := by
  induction n using Nat.strongRecOn with
  | _ n ih =>
    intro c hc
    by_cases h : n / 10 = 0
    · rw [numeral_small h, List.mem_singleton] at hc
      rw [hc]
      exact isDigit_digit n
    · rw [numeral_step h, List.mem_append, List.mem_singleton] at hc
      obtain hc | rfl := hc
      · exact ih (n / 10) (by omega) c hc
      · exact isDigit_digit n

theorem value_append (start : ℕ) (left right : List UInt8) :
    value start (left ++ right) = value (value start left) right :=
  List.foldl_append

theorem value_numeral (n : ℕ) : value 0 (numeral n) = n := by
  induction n using Nat.strongRecOn with
  | _ n ih =>
    by_cases h : n / 10 = 0
    · rw [numeral_small h]
      simp only [value, List.foldl_cons, List.foldl_nil, digitValue_digit]
      omega
    · rw [numeral_step h, value_append, ih (n / 10) (by omega)]
      simp only [value, List.foldl_cons, List.foldl_nil, digitValue_digit]
      omega

theorem le_value (digits : List UInt8) : ∀ start, start ≤ value start digits := by
  induction digits with
  | nil => exact fun start => Nat.le_refl start
  | cons c rest ih =>
    intro start
    calc start ≤ start * 10 + digitValue c := by omega
      _ ≤ value start (c :: rest) := ih _

end Yans.Library.Decimal
