import Mathlib.Data.List.Infix
import Mathlib.Tactic.Common

/-! Searching for a text in a text that grows at its end. What has been searched need not be
searched again, apart from the end in which an occurrence may have begun. -/
namespace Yans.Library.Needles

variable {α : Type*}

/-- An occurrence of `needle` starts at offset `i`. -/
def Occurs (needle s : List α) (i : ℕ) : Prop := needle <+: s.drop i

def IsFirst (needle s : List α) (i : ℕ) : Prop :=
  Occurs needle s i ∧ ∀ j < i, ¬ Occurs needle s j

def find [DecidableEq α] (needle : List α) : List α → Option ℕ
  | [] => if needle = [] then some 0 else none
  | a :: s => if needle <+: a :: s then some 0 else (find needle s).map (· + 1)

variable {needle s t : List α} {i k : ℕ}

theorem Occurs.length_le (h : Occurs needle s i) (hne : needle ≠ []) :
    i + needle.length ≤ s.length := by
  have hlength := List.IsPrefix.length_le h
  have hpos := List.length_pos_iff.mpr hne
  rw [List.length_drop] at hlength
  omega

theorem Occurs.append (h : Occurs needle s i) (hne : needle ≠ []) (t : List α) :
    Occurs needle (s ++ t) i := by
  have hlength := h.length_le hne
  unfold Occurs
  rw [List.drop_append_of_le_length (by omega)]
  exact List.IsPrefix.trans h (List.prefix_append _ _)

theorem Occurs.of_append (h : Occurs needle (s ++ t) i) (hroom : i + needle.length ≤ s.length) :
    Occurs needle s i := by
  unfold Occurs at h
  rw [List.drop_append_of_le_length (by omega)] at h
  refine List.prefix_of_prefix_length_le h (List.prefix_append _ _) ?_
  rw [List.length_drop]
  omega

theorem occurs_drop : Occurs needle (s.drop k) i ↔ Occurs needle s (k + i) := by
  rw [Occurs, Occurs, List.drop_drop]

theorem occurs_cons {a : α} : Occurs needle (a :: s) (i + 1) ↔ Occurs needle s i := Iff.rfl

theorem IsFirst.append (h : IsFirst needle s i) (hne : needle ≠ []) (t : List α) :
    IsFirst needle (s ++ t) i := by
  have hlength := h.1.length_le hne
  refine ⟨h.1.append hne t, fun j hj hoccurs => ?_⟩
  exact h.2 j hj (hoccurs.of_append (by omega))

theorem IsFirst.of_drop (h : IsFirst needle (s.drop k) i) (hskip : ∀ j < k, ¬ Occurs needle s j) :
    IsFirst needle s (k + i) := by
  refine ⟨occurs_drop.mp h.1, fun j hj hoccurs => ?_⟩
  by_cases hlt : j < k
  · exact hskip j hlt hoccurs
  · obtain ⟨d, rfl⟩ := Nat.exists_eq_add_of_le (Nat.not_lt.mp hlt)
    exact h.2 d (by omega) (occurs_drop.mpr hoccurs)

theorem not_occurs_nil (hne : needle ≠ []) (i : ℕ) : ¬ Occurs needle [] i := by
  intro h
  have hlength := h.length_le hne
  have hpos := List.length_pos_iff.mpr hne
  rw [List.length_nil] at hlength
  omega

section Find
variable [DecidableEq α]

theorem find_eq_some (h : find needle s = some i) : IsFirst needle s i := by
  induction s generalizing i with
  | nil =>
    rw [find] at h
    split at h
    · rename_i hempty
      cases h
      exact ⟨hempty ▸ List.nil_prefix, fun j hj => absurd hj (Nat.not_lt_zero j)⟩
    · cases h
  | cons a s ih =>
    rw [find] at h
    split at h
    · rename_i hhere
      cases h
      exact ⟨hhere, fun j hj => absurd hj (Nat.not_lt_zero j)⟩
    · rename_i hhere
      obtain ⟨k, hk, rfl⟩ := Option.map_eq_some_iff.mp h
      obtain ⟨hoccurs, hfirst⟩ := ih hk
      refine ⟨occurs_cons.mpr hoccurs, fun j hj => ?_⟩
      cases j with
      | zero => exact hhere
      | succ j => exact hfirst j (Nat.lt_of_succ_lt_succ hj)

theorem find_eq_none (hne : needle ≠ []) (h : find needle s = none) (i : ℕ) :
    ¬ Occurs needle s i := by
  induction s generalizing i with
  | nil => exact not_occurs_nil hne i
  | cons a s ih =>
    rw [find] at h
    split at h
    · cases h
    · rename_i hhere
      cases i with
      | zero => exact hhere
      | succ i => exact ih (Option.map_eq_none_iff.mp h) i

end Find

end Yans.Library.Needles
