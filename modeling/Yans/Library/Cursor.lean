import Mathlib.Data.List.Basic
import Mathlib.Data.Nat.Notation
import Mathlib.Order.Nat

/-! A cursor that walks through a list of closed intervals, number by number. It
is the index of an interval and a number of it; what it still has to visit loses
its first item at every step. -/
namespace Yans.Library.Cursor

variable {α : Type*} (lo hi : α → ℕ)

/-- The numbers of an interval from `pos` on, with the interval they belong to. -/
def rest (e : α) (pos : ℕ) : List (α × ℕ) := (List.range' pos (hi e + 1 - pos)).map fun n => (e, n)

def all (entries : List α) : List (α × ℕ) := entries.flatMap fun e => rest hi e (lo e)

/-- What is left at the number `pos` of the interval `i`. -/
def left (entries : List α) (i pos : ℕ) : List (α × ℕ) :=
  match entries[i]? with
  | none => []
  | some e => rest hi e pos ++ all lo hi (entries.drop (i + 1))

variable {lo hi} {entries : List α} {e : α} {i pos : ℕ}

theorem rest_cons (h : pos ≤ hi e) : rest hi e pos = (e, pos) :: rest hi e (pos + 1) := by
  unfold rest
  rw [show hi e + 1 - pos = hi e + 1 - (pos + 1) + 1 by omega, List.range'_succ, List.map_cons]

theorem rest_nil (h : hi e < pos) : rest hi e pos = [] := by
  unfold rest
  rw [show hi e + 1 - pos = 0 by omega]
  rfl

theorem left_end (h : entries.length ≤ i) : left lo hi entries i pos = [] := by
  rw [left, List.getElem?_eq_none h]

theorem left_start (hget : entries[i]? = some e) :
    left lo hi entries i (lo e) = all lo hi (entries.drop i) := by
  obtain ⟨hi', rfl⟩ := List.getElem?_eq_some_iff.mp hget
  rw [left, hget, List.drop_eq_getElem_cons hi']
  rfl

theorem left_within (hget : entries[i]? = some e) (h : pos ≤ hi e) :
    left lo hi entries i pos = (e, pos) :: left lo hi entries i (pos + 1) := by
  unfold left
  rw [hget]
  dsimp only
  rw [rest_cons h, List.cons_append]

theorem left_last (hget : entries[i]? = some e) :
    left lo hi entries i (hi e) = (e, hi e) :: all lo hi (entries.drop (i + 1)) := by
  unfold left
  rw [hget]
  dsimp only
  rw [rest_cons (Nat.le_refl _), rest_nil (Nat.lt_succ_self _)]
  rfl

end Yans.Library.Cursor
