import Yans.Library.Compaction
import Mathlib.Data.List.Sort
import Mathlib.Order.Lattice
import Mathlib.Order.Nat

/-! Lists of closed intervals of natural numbers, for any type of entries with
a lower and an upper end: merging a sorted list gives the one list with gaps
that covers the same numbers. -/
namespace Yans.Library.Intervals

open Compaction

variable {α : Type*} (lo hi : α → ℕ)

/-- `x` lies in one of the intervals. -/
def Covers (entries : List α) (x : ℕ) : Prop := ∃ e ∈ entries, lo e ≤ x ∧ x ≤ hi e

def Gapped (entries : List α) : Prop := entries.Pairwise fun a b => hi a + 1 < lo b

def Proper (entries : List α) : Prop := ∀ e ∈ entries, lo e ≤ hi e

def SortedByLo (entries : List α) : Prop := entries.Pairwise fun a b => lo a ≤ lo b

/-- The numbers of the intervals, one interval after the other. -/
def elements (entries : List α) : List ℕ :=
  entries.flatMap fun e => List.range' (lo e) (hi e + 1 - lo e)

structure Joining (joins : α → α → Bool) (absorb : α → α → α) : Prop where
  joins_iff : ∀ a b, joins a b = true ↔ lo b ≤ hi a + 1
  lo_absorb : ∀ a b, lo (absorb a b) = lo a
  hi_absorb : ∀ a b, hi (absorb a b) = max (hi a) (hi b)
  absorb_of_le : ∀ a b, hi b ≤ hi a → absorb a b = a

variable {lo hi}

@[simp] theorem covers_nil (x : ℕ) : ¬ Covers lo hi [] x := by
  simp [Covers]

theorem covers_cons (e : α) (entries : List α) (x : ℕ) :
    Covers lo hi (e :: entries) x ↔ (lo e ≤ x ∧ x ≤ hi e) ∨ Covers lo hi entries x := by
  simp [Covers]

theorem covers_append (left right : List α) (x : ℕ) :
    Covers lo hi (left ++ right) x ↔ Covers lo hi left x ∨ Covers lo hi right x := by
  simp only [Covers, List.mem_append, or_and_right, exists_or]

theorem covers_perm {left right : List α} (h : left.Perm right) (x : ℕ) :
    Covers lo hi left x ↔ Covers lo hi right x := by
  simp only [Covers, h.mem_iff]

theorem mem_elements (entries : List α) (x : ℕ) :
    x ∈ elements lo hi entries ↔ Covers lo hi entries x := by
  unfold elements Covers
  rw [List.mem_flatMap]
  apply exists_congr
  intro e
  rw [List.mem_range'_1]
  constructor
  · rintro ⟨he, hlo, hhi⟩
    exact ⟨he, hlo, by omega⟩
  · rintro ⟨he, hlo, hhi⟩
    exact ⟨he, hlo, by omega⟩

variable {entries : List α}

theorem elements_pairwise (h : Gapped lo hi entries) :
    (elements lo hi entries).Pairwise (· < ·) := by
  unfold elements
  rw [List.pairwise_flatMap]
  refine ⟨fun e _ => List.pairwise_lt_range', ?_⟩
  apply h.imp
  intro a b hgap x hx y hy
  rw [List.mem_range'_1] at hx hy
  omega

theorem length_le_elements (h : Proper lo hi entries) :
    entries.length ≤ (elements lo hi entries).length := by
  induction entries with
  | nil => exact Nat.le_refl _
  | cons e entries ih =>
    have hrest := ih fun e he => h e (List.mem_cons_of_mem _ he)
    have he := h e List.mem_cons_self
    unfold elements at hrest ⊢
    rw [List.flatMap_cons, List.length_append, List.length_range', List.length_cons]
    omega

theorem elements_eq_of_covers {left right : List α} (hleft : Gapped lo hi left)
    (hright : Gapped lo hi right) (h : ∀ x, Covers lo hi left x ↔ Covers lo hi right x) :
    elements lo hi left = elements lo hi right := by
  apply (elements_pairwise hleft).eq_of_mem_iff (elements_pairwise hright)
  intro x
  rw [mem_elements, mem_elements, h x]

theorem pairwise_insertionSort (cmp : α → α → ℤ)
    (hcmp : ∀ a b, cmp a b ≤ 0 ↔ lo a < lo b ∨ (lo a = lo b ∧ hi a ≤ hi b)) (entries : List α) :
    (entries.insertionSort fun a b => cmp a b ≤ 0).Pairwise fun a b => cmp a b ≤ 0 := by
  have htotal : ∀ a b, cmp a b ≤ 0 ∨ cmp b a ≤ 0 := by
    intro a b
    rw [hcmp, hcmp]
    omega
  have htrans : ∀ a b c, cmp a b ≤ 0 → cmp b c ≤ 0 → cmp a c ≤ 0 := by
    intro a b c
    rw [hcmp, hcmp, hcmp]
    omega
  have : Std.Total fun a b => cmp a b ≤ 0 := ⟨htotal⟩
  have : IsTrans α fun a b => cmp a b ≤ 0 := ⟨htrans⟩
  exact List.pairwise_insertionSort (fun a b => cmp a b ≤ 0) entries

section

variable {joins : α → α → Bool} {absorb : α → α → α} (joining : Joining lo hi joins absorb)

include joining

theorem sorted_absorb {cur next : α} {rest : List α} (hsorted : SortedByLo lo (cur :: next :: rest)) :
    SortedByLo lo (absorb cur next :: rest) := by
  obtain ⟨hcur, hrest⟩ := List.pairwise_cons.mp hsorted
  refine List.pairwise_cons.mpr ⟨fun b hb => ?_, (List.pairwise_cons.mp hrest).2⟩
  rw [joining.lo_absorb]
  exact hcur b (List.mem_cons_of_mem _ hb)

theorem proper_absorb {cur next : α} {rest : List α} (hproper : Proper lo hi (cur :: next :: rest)) :
    Proper lo hi (absorb cur next :: rest) := by
  intro e he
  obtain rfl | he := List.mem_cons.mp he
  · have hcur := hproper cur List.mem_cons_self
    rw [joining.lo_absorb, joining.hi_absorb]
    exact hcur.trans (le_max_left _ _)
  · exact hproper e (List.mem_cons_of_mem _ (List.mem_cons_of_mem _ he))

theorem lo_le_of_mem_mergeFrom (rest : List α) : ∀ cur e, e ∈ mergeFrom joins absorb cur rest →
    SortedByLo lo (cur :: rest) → lo cur ≤ lo e := by
  induction rest with
  | nil =>
    intro cur e he _
    rw [mergeFrom, List.mem_singleton] at he
    rw [he]
  | cons next rest ih =>
    intro cur e he hsorted
    obtain ⟨hcur, hrest⟩ := List.pairwise_cons.mp hsorted
    unfold mergeFrom at he
    split at he
    · have hle := ih _ e he (sorted_absorb joining hsorted)
      rwa [joining.lo_absorb] at hle
    · obtain rfl | he := List.mem_cons.mp he
      · exact le_rfl
      · exact (hcur next List.mem_cons_self).trans (ih next e he hrest)

theorem gapped_mergeFrom (rest : List α) : ∀ cur, SortedByLo lo (cur :: rest) →
    Gapped lo hi (mergeFrom joins absorb cur rest) := by
  induction rest with
  | nil => exact fun cur _ => List.pairwise_singleton _ _
  | cons next rest ih =>
    intro cur hsorted
    unfold mergeFrom
    split
    · exact ih _ (sorted_absorb joining hsorted)
    · rename_i hjoins
      rw [joining.joins_iff] at hjoins
      have hrest := (List.pairwise_cons.mp hsorted).2
      refine List.pairwise_cons.mpr ⟨fun e he => ?_, ih next hrest⟩
      have hle := lo_le_of_mem_mergeFrom joining rest next e he hrest
      omega

theorem covers_mergeFrom (x : ℕ) (rest : List α) : ∀ cur, SortedByLo lo (cur :: rest) →
    Proper lo hi (cur :: rest) →
    (Covers lo hi (mergeFrom joins absorb cur rest) x ↔ Covers lo hi (cur :: rest) x) := by
  induction rest with
  | nil => exact fun cur _ _ => Iff.rfl
  | cons next rest ih =>
    intro cur hsorted hproper
    have hrest := (List.pairwise_cons.mp hsorted).2
    unfold mergeFrom
    split
    · rename_i hjoins
      rw [joining.joins_iff] at hjoins
      have hnext := (List.pairwise_cons.mp hsorted).1 next List.mem_cons_self
      have hcur := hproper cur List.mem_cons_self
      rw [ih _ (sorted_absorb joining hsorted) (proper_absorb joining hproper), covers_cons,
        covers_cons, covers_cons, joining.lo_absorb, joining.hi_absorb, ← or_assoc]
      apply or_congr_left
      omega
    · rw [covers_cons, covers_cons,
        ih next hrest (fun e he => hproper e (List.mem_cons_of_mem _ he))]

theorem proper_mergeFrom (rest : List α) : ∀ cur, Proper lo hi (cur :: rest) →
    Proper lo hi (mergeFrom joins absorb cur rest) := by
  induction rest with
  | nil => exact fun cur hproper => hproper
  | cons next rest ih =>
    intro cur hproper
    unfold mergeFrom
    split
    · exact ih _ (proper_absorb joining hproper)
    · intro e he
      obtain rfl | he := List.mem_cons.mp he
      · exact hproper e List.mem_cons_self
      · exact ih next (fun e he => hproper e (List.mem_cons_of_mem _ he)) e he

theorem hi_le_getLast {final : α} (rest : List α) : ∀ cur, SortedByLo lo (cur :: rest) →
    Proper lo hi (cur :: rest) → (mergeFrom joins absorb cur rest).getLast? = some final →
    ∀ e ∈ cur :: rest, hi e ≤ hi final := by
  induction rest with
  | nil =>
    intro cur _ _ hfinal e he
    rw [List.mem_singleton.mp he]
    obtain rfl : cur = final := by simpa [mergeFrom] using hfinal
    exact le_rfl
  | cons next rest ih =>
    intro cur hsorted hproper hfinal e he
    have hrest := (List.pairwise_cons.mp hsorted).2
    have hproper' : Proper lo hi (next :: rest) :=
      fun e he => hproper e (List.mem_cons_of_mem _ he)
    unfold mergeFrom at hfinal
    split at hfinal
    · have hall := ih _ (sorted_absorb joining hsorted) (proper_absorb joining hproper) hfinal
      have hmax := hall _ List.mem_cons_self
      rw [joining.hi_absorb] at hmax
      obtain rfl | he := List.mem_cons.mp he
      · exact (le_max_left _ _).trans hmax
      · obtain rfl | he := List.mem_cons.mp he
        · exact (le_max_right _ _).trans hmax
        · exact hall e (List.mem_cons_of_mem _ he)
    · rename_i hjoins
      rw [joining.joins_iff] at hjoins
      rw [List.getLast?_cons_of_ne_nil (mergeFrom_ne_nil _ _)] at hfinal
      have hall := ih next hrest hproper' hfinal
      obtain rfl | he := List.mem_cons.mp he
      · have hnext := hall next List.mem_cons_self
        have hle := hproper' next List.mem_cons_self
        omega
      · exact hall e he

theorem merge_spec (hsorted : SortedByLo lo entries)
    (hproper : Proper lo hi entries) :
    Gapped lo hi (merge joins absorb entries) ∧ Proper lo hi (merge joins absorb entries) ∧
      ∀ x, Covers lo hi (merge joins absorb entries) x ↔ Covers lo hi entries x := by
  cases entries with
  | nil => exact ⟨List.Pairwise.nil, by simp [Proper, merge], fun x => Iff.rfl⟩
  | cons first rest =>
    exact ⟨gapped_mergeFrom joining rest first hsorted, proper_mergeFrom joining rest first hproper,
      fun x => covers_mergeFrom joining x rest first hsorted hproper⟩

theorem compact_scan_spec {beyond : List α} (hentries : entries ≠ [])
    (hsorted : SortedByLo lo entries) (hproper : Proper lo hi entries) :
    ∃ tail, compact joins absorb false (entries ++ beyond) entries.length =
        (merge joins absorb entries ++ tail ++ beyond, (merge joins absorb entries).length) ∧
      (∀ e ∈ tail, e ∈ entries) ∧
      (merge joins absorb entries ++ tail).length = entries.length := by
  cases entries with
  | nil => exact absurd rfl hentries
  | cons first rest =>
    have hlast := List.getLast?_eq_getLast_of_ne_nil
      (@mergeFrom_ne_nil _ joins absorb first rest)
    apply @compact_scan _ _ _ (first :: rest) beyond _ hlast
    intro e he
    have hle := hi_le_getLast joining rest first hsorted hproper hlast e he
    have hlo := hproper e he
    exact ⟨(joining.joins_iff _ _).mpr (by omega), joining.absorb_of_le _ _ hle⟩

end

end Yans.Library.Intervals
