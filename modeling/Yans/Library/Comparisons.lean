import Yans.Library.Strings

/-! Comparison functions with the three results of C: which ones order what
they compare, and how such functions are put together. -/
namespace Yans.Library.Comparisons

open Memory Strings

variable {α β : Type}

structure IsComparison (cmp : α → α → ℤ) (S : α → Prop) : Prop where
  swap : ∀ a b, S a → S b → (cmp a b ≤ 0 ↔ 0 ≤ cmp b a)
  trans : ∀ a b c, S a → S b → S c → cmp a b ≤ 0 → cmp b c ≤ 0 → cmp a c ≤ 0

namespace IsComparison

variable {cmp second : α → α → ℤ} {S : α → Prop}

section

variable (h : IsComparison cmp S)

include h

theorem total {a b : α} (ha : S a) (hb : S b) :
    0 ≤ cmp a b ∨ 0 ≤ cmp b a := by
  have hswap := h.swap a b ha hb
  omega

theorem trans_nonneg {a b c : α} (ha : S a) (hb : S b) (hc : S c)
    (hab : 0 ≤ cmp a b) (hbc : 0 ≤ cmp b c) : 0 ≤ cmp a c := by
  have hswap := h.swap c a hc ha
  have hswap' := h.swap b a hb ha
  have hswap'' := h.swap c b hc hb
  have htrans := h.trans c b a hc hb ha
  omega

theorem mono {T : α → Prop} (hle : ∀ a, T a → S a) :
    IsComparison cmp T where
  swap a b ha hb := h.swap a b (hle a ha) (hle b hb)
  trans a b c ha hb hc := h.trans a b c (hle a ha) (hle b hb) (hle c hc)

theorem comap (f : β → α) :
    IsComparison (fun a b => cmp (f a) (f b)) fun b => S (f b) where
  swap a b := h.swap (f a) (f b)
  trans a b c := h.trans (f a) (f b) (f c)

theorem neg : IsComparison (fun a b => -cmp a b) S where
  swap a b ha hb := by
    have hswap := h.swap b a hb ha
    omega
  trans a b c ha hb hc hab hbc := by
    have htrans := @trans_nonneg _ _ _ h a b c ha hb hc
    omega

theorem lex (h' : IsComparison second S) :
    IsComparison (fun a b => if cmp a b = 0 then second a b else cmp a b) S where
  swap a b ha hb := by
    have hswap := h.swap a b ha hb
    have hback := h.swap b a hb ha
    have hsecond := h'.swap a b ha hb
    split <;> split <;> omega
  trans a b c ha hb hc := by
    have hab := h.swap a b ha hb
    have hba := h.swap b a hb ha
    have hbc := h.swap b c hb hc
    have hcb := h.swap c b hc hb
    have hac := h.swap a c ha hc
    have hca := h.swap c a hc ha
    have htrans := h.trans a b c ha hb hc
    have hfirst := h.trans b c a hb hc ha
    have hlast := h.trans c a b hc ha hb
    have hsecond := h'.trans a b c ha hb hc
    split <;> split <;> split <;> omega

theorem of_sign (hle : ∀ a b, S a → S b → (second a b ≤ 0 ↔ cmp a b ≤ 0))
    (hge : ∀ a b, S a → S b → (0 ≤ second a b ↔ 0 ≤ cmp a b)) : IsComparison second S where
  swap a b ha hb := by
    rw [hle a b ha hb, hge b a hb ha]
    exact h.swap a b ha hb
  trans a b c ha hb hc := by
    rw [hle a b ha hb, hle b c hb hc, hle a c ha hc]
    exact h.trans a b c ha hb hc

end

end IsComparison

/-- The first result other than zero among the first `n` places. -/
def firstDifference (cmp : α → α → ℤ) : ℕ → (ℕ → α) → (ℕ → α) → ℤ
  | 0, _, _ => 0
  | n + 1, u, v =>
    if cmp (u 0) (v 0) = 0 then firstDifference cmp n (fun i => u (i + 1)) fun i => v (i + 1)
    else cmp (u 0) (v 0)

theorem firstDifference_eq_zero {cmp : α → α → ℤ} (n : ℕ) : ∀ {u v : ℕ → α},
    (∀ i, cmp (u i) (v i) = 0) → firstDifference cmp n u v = 0 := by
  induction n with
  | zero => exact fun _ => rfl
  | succ n ih =>
    intro u v h
    rw [firstDifference, if_pos (h 0)]
    exact ih fun i => h (i + 1)

theorem firstDifference_eq {cmp : α → α → ℤ} (i : ℕ) : ∀ {n : ℕ} {u v : ℕ → α}, i < n →
    (∀ j < i, cmp (u j) (v j) = 0) → cmp (u i) (v i) ≠ 0 →
    firstDifference cmp n u v = cmp (u i) (v i) := by
  induction i with
  | zero =>
    intro n u v hn _ hne
    obtain ⟨n, rfl⟩ := Nat.exists_eq_succ_of_ne_zero hn.ne'
    rw [firstDifference, if_neg hne]
  | succ i ih =>
    intro n u v hn heq hne
    obtain ⟨n, rfl⟩ := Nat.exists_eq_succ_of_ne_zero (Nat.ne_zero_of_lt hn)
    rw [firstDifference, if_pos (heq 0 i.succ_pos)]
    apply ih (Nat.lt_of_succ_lt_succ hn) (fun j hj => heq (j + 1) (Nat.succ_lt_succ hj)) hne

theorem isComparison_firstDifference {cmp : α → α → ℤ} {S : α → Prop} (h : IsComparison cmp S)
    (n : ℕ) : IsComparison (firstDifference cmp n) fun u => ∀ i, S (u i) := by
  induction n with
  | zero => exact ⟨fun _ _ _ _ => Iff.rfl, fun _ _ _ _ _ _ _ _ => Int.le_refl 0⟩
  | succ n ih =>
    have hfirst : IsComparison (fun u v : ℕ → α => cmp (u 0) (v 0)) fun u => ∀ i, S (u i) :=
      (h.comap fun u : ℕ → α => u 0).mono fun (u : ℕ → α) (hu : ∀ i, S (u i)) => hu 0
    have hrest := (ih.comap fun (u : ℕ → α) i => u (i + 1)).mono
      fun (u : ℕ → α) (hu : ∀ i, S (u i)) i => hu (i + 1)
    exact hfirst.lex hrest

theorem memcmp_succ (n : ℕ) (left right : Bytes) :
    memcmp (n + 1) left right =
      if (left.headD 0).toNat = (right.headD 0).toNat then memcmp n left.tail right.tail
      else (left.headD 0).toNat - (right.headD 0).toNat := by
  rw [memcmp]
  by_cases heq : left.headD 0 = right.headD 0
  · rw [if_pos (congrArg UInt8.toNat heq)]
    exact if_neg (not_not.mpr heq)
  · rw [if_neg fun h => heq (UInt8.toNat_inj.mp h)]
    exact if_pos heq

theorem memcmp_swap (n : ℕ) : ∀ left right : Bytes, memcmp n right left = -memcmp n left right := by
  induction n with
  | zero => exact fun _ _ => rfl
  | succ n ih =>
    intro left right
    have htail := ih left.tail right.tail
    rw [memcmp_succ, memcmp_succ]
    split <;> split <;> omega

theorem memcmp_trans (n : ℕ) : ∀ a b c : Bytes, memcmp n a b ≤ 0 → memcmp n b c ≤ 0 →
    memcmp n a c ≤ 0 := by
  induction n with
  | zero => exact fun _ _ _ _ _ => Int.le_refl 0
  | succ n ih =>
    intro a b c
    have htail := ih a.tail b.tail c.tail
    rw [memcmp_succ, memcmp_succ, memcmp_succ]
    split <;> split <;> split <;> omega

theorem isComparison_memcmp (n : ℕ) : IsComparison (memcmp n) fun _ => True where
  swap a b _ _ := by
    have hswap := memcmp_swap n b a
    omega
  trans a b c _ _ _ := memcmp_trans n a b c

theorem headD_cstring (mem : Bytes) : (cstring mem).headD 0 = mem.headD 0 := by
  cases mem with
  | nil => rfl
  | cons a mem =>
    rw [cstring_cons]
    by_cases ha : a = 0
    · rw [if_pos ha, ha]
      rfl
    · rw [if_neg ha]
      rfl

theorem strcmp_eq_memcmp (n : ℕ) : ∀ left right : Bytes, (cstring left).length < n →
    strcmp left right = memcmp n (cstring left) (cstring right) := by
  induction n with
  | zero => exact fun _ _ h => absurd h (Nat.not_lt_zero _)
  | succ n ih =>
    intro left right hleft
    rw [memcmp_succ, headD_cstring, headD_cstring]
    cases left with
    | nil =>
      rw [strcmp]
      change (0 : ℤ) - (right.headD 0).toNat = if 0 = (right.headD 0).toNat then _ else _
      by_cases hb : right.headD 0 = 0
      · rw [(cstring_eq_nil_iff right).mpr hb, hb]
        exact (memcmp_self n []).symm
      · rw [if_neg fun h => hb (UInt8.toNat_inj.mp h.symm)]
        rfl
    | cons a left =>
      rw [strcmp, List.headD_cons]
      by_cases hab : a = right.headD 0
      · rw [if_pos (congrArg UInt8.toNat hab), if_neg (not_not.mpr hab)]
        by_cases ha : a = 0
        · have hright : cstring right = [] := (cstring_eq_nil_iff right).mpr (hab.symm.trans ha)
          rw [if_pos ha, cstring_cons, if_pos ha, hright]
          exact (memcmp_self n []).symm
        · have hright : right = a :: right.tail := by
            cases right with
            | nil => exact absurd hab ha
            | cons b right => rw [hab, List.headD_cons, List.tail_cons]
          rw [cstring_cons, if_neg ha, List.length_cons] at hleft
          rw [if_neg ha, hright, cstring_cons, cstring_cons, if_neg ha, if_neg ha, List.tail_cons,
            List.tail_cons, List.tail_cons]
          exact ih _ _ (Nat.lt_of_succ_lt_succ hleft)
      · rw [if_neg fun h => hab (UInt8.toNat_inj.mp h), if_pos hab]

theorem isComparison_strcmp : IsComparison strcmp fun _ => True where
  swap a b _ _ := by
    obtain ⟨n, hn⟩ : ∃ n, n = (cstring a).length + (cstring b).length + 1 := ⟨_, rfl⟩
    have hswap := memcmp_swap n (cstring b) (cstring a)
    rw [strcmp_eq_memcmp n a b (by omega), strcmp_eq_memcmp n b a (by omega)]
    omega
  trans a b c _ _ _ := by
    obtain ⟨n, hn⟩ : ∃ n, n = (cstring a).length + (cstring b).length + 1 := ⟨_, rfl⟩
    rw [strcmp_eq_memcmp n a b (by omega), strcmp_eq_memcmp n b c (by omega),
      strcmp_eq_memcmp n a c (by omega)]
    exact memcmp_trans n _ _ _

end Yans.Library.Comparisons
