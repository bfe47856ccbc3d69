import Mathlib.Algebra.Order.BigOperators.Group.Finset
import Mathlib.Data.Fintype.Card
import Mathlib.Logic.Function.Basic

/-! Parties that are each at a place, and how many of them are at places of one
kind when one party moves. -/
namespace Yans.Library.Parties

variable {Party Place : Type*} [Fintype Party] [DecidableEq Party]
  (kind : Place → Prop) [DecidablePred kind] (places : Party → Place)

def count : ℕ := ∑ party, if kind (places party) then 1 else 0

theorem count_update (party : Party) (place : Place) :
    count kind (Function.update places party place) + (if kind (places party) then 1 else 0) =
      count kind places + if kind place then 1 else 0 := by
  have hbefore := Finset.add_sum_erase Finset.univ
    (fun other => if kind (places other) then 1 else 0) (Finset.mem_univ party)
  have hafter := Finset.add_sum_erase Finset.univ
    (fun other => if kind (Function.update places party place other) then 1 else 0)
    (Finset.mem_univ party)
  have hrest : ∑ other ∈ Finset.univ.erase party,
      (if kind (Function.update places party place other) then 1 else 0) =
        ∑ other ∈ Finset.univ.erase party, if kind (places other) then 1 else 0 := by
    refine Finset.sum_congr rfl fun other hother => ?_
    rw [Function.update_of_ne (Finset.ne_of_mem_erase hother)]
  rw [Function.update_self, hrest] at hafter
  unfold count
  rw [← hbefore, ← hafter, Nat.add_comm _ (if kind place then 1 else 0), Nat.add_comm, Nat.add_left_comm]

variable {kind places}

variable {party : Party} {place : Place}

theorem count_update_of_iff (h : kind place ↔ kind (places party)) :
    count kind (Function.update places party place) = count kind places := by
  have hcount := count_update kind places party place
  simp only [h] at hcount
  exact Nat.add_right_cancel hcount

theorem count_update_enter (hbefore : ¬ kind (places party))
    (hafter : kind place) :
    count kind (Function.update places party place) = count kind places + 1 := by
  have hcount := count_update kind places party place
  rw [if_neg hbefore, if_pos hafter] at hcount
  exact hcount

theorem count_update_leave (hbefore : kind (places party))
    (hafter : ¬ kind place) :
    count kind (Function.update places party place) + 1 = count kind places := by
  have hcount := count_update kind places party place
  rw [if_pos hbefore, if_neg hafter] at hcount
  exact hcount

theorem count_pos (h : kind (places party)) : 0 < count kind places := by
  have hcount := Finset.add_sum_erase Finset.univ
    (fun other => if kind (places other) then 1 else 0) (Finset.mem_univ party)
  rw [if_pos h] at hcount
  unfold count
  omega

omit [DecidableEq Party] in
theorem count_le_card : count kind places ≤ Fintype.card Party := by
  have hones : ∑ _party : Party, 1 = Fintype.card Party := (Finset.card_eq_sum_ones _).symm
  refine (Finset.sum_le_sum fun party _ => ?_).trans_eq hones
  split <;> decide

omit [DecidableEq Party] in
theorem count_eq_zero (h : ∀ party, ¬ kind (places party)) : count kind places = 0 :=
  Finset.sum_eq_zero fun party _ => if_neg (h party)

theorem not_kind_of_count (h : count kind places = 0) (party : Party) : ¬ kind (places party) :=
  fun hkind => absurd h (count_pos hkind).ne'

end Yans.Library.Parties
