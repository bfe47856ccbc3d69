import Mathlib.Data.Finset.Card
import Mathlib.Data.Finset.Dedup
import Mathlib.Data.Set.Function

/-! The distinct elements of a list in the order of their first occurrences,
`List.eraseDups`, one element at a time from the left. -/
namespace Yans.Library.FirstOccurrences

variable {α β : Type}

section

variable [BEq α] [LawfulBEq α] [BEq β] [LawfulBEq β]

theorem eraseDups_concat (as : List α) (a : α) :
    (as ++ [a]).eraseDups = if a ∈ as then as.eraseDups else as.eraseDups ++ [a] := by
  rw [List.eraseDups_append]
  split
  · rename_i hmem
    simp [List.removeAll, hmem]
  · rename_i hnew
    simp [List.removeAll, hnew]
    rfl

theorem nodup_eraseDups (as : List α) : as.eraseDups.Nodup := by
  induction as using List.reverseRecOn with
  | nil => exact List.nodup_nil
  | append_singleton as a ih =>
    rw [eraseDups_concat]
    split
    · exact ih
    · rename_i hnew
      rw [List.nodup_append]
      refine ⟨ih, List.nodup_singleton a, ?_⟩
      intro x hx y hy hxy
      rw [List.mem_singleton] at hy
      rw [List.mem_eraseDups] at hx
      exact hnew (hy ▸ hxy ▸ hx)

theorem length_eraseDups [DecidableEq α] (as : List α) : as.eraseDups.length = as.toFinset.card := by
  have hset : as.eraseDups.toFinset = as.toFinset := by
    ext a
    simp
  rw [← hset, List.toFinset_card_of_nodup (nodup_eraseDups as)]

theorem eraseDups_map {f : α → β} (as : List α) (hinj : Set.InjOn f {a | a ∈ as}) :
    (as.map f).eraseDups = as.eraseDups.map f := by
  induction as using List.reverseRecOn with
  | nil => rfl
  | append_singleton as a ih =>
    have hbefore : Set.InjOn f {a | a ∈ as} :=
      hinj.mono fun x hx => List.mem_append_left [a] hx
    have hiff : f a ∈ as.map f ↔ a ∈ as := by
      refine ⟨fun hmem => ?_, List.mem_map_of_mem⟩
      obtain ⟨x, hx, hfx⟩ := List.mem_map.mp hmem
      have hxa : x = a := hinj (List.mem_append_left [a] hx) (List.mem_concat_self) hfx
      exact hxa ▸ hx
    rw [List.map_append, List.map_singleton, eraseDups_concat, eraseDups_concat, ih hbefore]
    by_cases hmem : a ∈ as
    · rw [if_pos (hiff.mpr hmem), if_pos hmem]
    · rw [if_neg fun h => hmem (hiff.mp h), if_neg hmem, List.map_append, List.map_singleton]

/-- Append an element that is new, if there is room for it among `n`. -/
def push (n : ℕ) (as : List α) (a : α) : List α :=
  if a ∈ as ∨ n ≤ as.length then as else as ++ [a]

theorem take_eraseDups_concat (n : ℕ) (as : List α) (a : α) :
    (as ++ [a]).eraseDups.take n = push n (as.eraseDups.take n) a := by
  rw [eraseDups_concat, push]
  by_cases hfull : n ≤ (as.eraseDups.take n).length
  · have hle : n ≤ as.eraseDups.length := hfull.trans (List.length_take_le' _ _)
    rw [if_pos (Or.inr hfull)]
    split
    · rfl
    · rw [List.take_append_of_le_length hle]
  · have hlt : as.eraseDups.length < n := by
      rw [List.length_take] at hfull
      omega
    rw [List.take_of_length_le hlt.le]
    by_cases hmem : a ∈ as
    · rw [if_pos hmem, if_pos (Or.inl (List.mem_eraseDups.mpr hmem)),
        List.take_of_length_le hlt.le]
    · rw [if_neg hmem, if_neg (by simp [hmem, hlt]), List.take_of_length_le]
      rw [List.length_append, List.length_singleton]
      omega

end

theorem eq_of_map_eq {f : α → β} {s : Set α} (hinj : Set.InjOn f s) {left : List α} :
    ∀ {right : List α}, (∀ a ∈ left, a ∈ s) → (∀ a ∈ right, a ∈ s) →
      left.map f = right.map f → left = right := by
  induction left with
  | nil =>
    intro right _ _ h
    exact (List.map_eq_nil_iff.mp h.symm).symm
  | cons a left ih =>
    intro right hleft hright h
    cases right with
    | nil => cases h
    | cons b right =>
      obtain ⟨hhead, htail⟩ := List.cons.inj h
      rw [hinj (hleft a List.mem_cons_self) (hright b List.mem_cons_self) hhead,
        ih (fun x hx => hleft x (List.mem_cons_of_mem a hx))
          (fun x hx => hright x (List.mem_cons_of_mem b hx)) htail]

end Yans.Library.FirstOccurrences
