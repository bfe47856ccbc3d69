import Yans.Library.Memory
import Mathlib.Tactic.Common

/-! Files of records of one size, kept one after the other. -/
namespace Yans.Library.Records

open Memory

def Record (size : ℕ) : Type := { bytes : Bytes // bytes.length = size }

variable {size : ℕ}

instance : DecidableEq (Record size) := inferInstanceAs (DecidableEq { _bytes : Bytes // _ })

def join (records : List (Record size)) : Bytes := records.flatMap Subtype.val

/-- `fread` of whole records, at most `n` of them. -/
def readRecords : ℕ → Bytes → List (Record size)
  | 0, _ => []
  | n + 1, bytes =>
    if h : size ≤ bytes.length then
      ⟨bytes.take size, List.length_take_of_le h⟩ :: readRecords n (bytes.drop size)
    else []

theorem join_nil : join ([] : List (Record size)) = [] := rfl

theorem join_cons (record : Record size) (records : List (Record size)) :
    join (record :: records) = record.val ++ join records := List.flatMap_cons

theorem join_append (front rest : List (Record size)) :
    join (front ++ rest) = join front ++ join rest := List.flatMap_append

theorem length_join (records : List (Record size)) :
    (join records).length = records.length * size := by
  induction records with
  | nil => rw [join_nil, List.length_nil, List.length_nil, Nat.zero_mul]
  | cons record records ih =>
    rw [join_cons, List.length_append, ih, record.property, List.length_cons, Nat.succ_mul,
      Nat.add_comm]

theorem drop_join (records : List (Record size)) (n : ℕ) :
    (join records).drop (n * size) = join (records.drop n) := by
  induction n generalizing records with
  | zero => rw [Nat.zero_mul, List.drop_zero, List.drop_zero]
  | succ n ih =>
    cases records with
    | nil => rw [List.drop_nil, join_nil, List.drop_nil]
    | cons record records =>
      rw [join_cons, Nat.succ_mul, Nat.add_comm, ← List.drop_drop,
        List.drop_left' record.property, ih, List.drop_succ_cons]

theorem readRecords_join (n : ℕ) (records : List (Record size)) (h : n ≤ records.length) :
    readRecords n (join records) = records.take n := by
  induction n generalizing records with
  | zero => rfl
  | succ n ih =>
    cases records with
    | nil => exact absurd h (Nat.not_succ_le_zero n)
    | cons record records =>
      have hlength : size ≤ (join (record :: records)).length := by
        rw [length_join]
        exact Nat.le_mul_of_pos_left size (Nat.succ_pos _)
      rw [readRecords, dif_pos hlength, List.take_succ_cons]
      congr 1
      · apply Subtype.ext
        exact List.take_left' record.property
      · rw [join_cons, List.drop_left' record.property]
        exact ih records (Nat.le_of_succ_le_succ h)

end Yans.Library.Records
