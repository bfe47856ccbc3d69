import Mathlib.Data.List.TakeWhile
import Mathlib.Tactic.Common

/-! The tokens of a list: its maximal runs of elements that are no separators. -/
namespace Yans.Library.Tokens

variable {α : Type*} (sep : α → Bool)

structure IsToken (s text : List α) : Prop where
  nonempty : text ≠ []
  unbroken : ∀ c ∈ text, sep c = false
  maximal : ∃ before after, s = before ++ (text ++ after) ∧
    (∀ c ∈ before.getLast?, sep c = true) ∧ ∀ c ∈ after.head?, sep c = true

variable {sep} {s text : List α}

theorem not_isToken_nil : ¬ IsToken sep [] text := by
  rintro ⟨hne, -, before, after, hs, -, -⟩
  simp_all

theorem isToken_sep {c : α} (hc : sep c = true) :
    IsToken sep (c :: s) text ↔ IsToken sep s text := by
  constructor
  · rintro ⟨hne, hunbroken, before, after, hs, hbefore, hafter⟩
    refine ⟨hne, hunbroken, ?_⟩
    cases before with
    | nil =>
      obtain ⟨d, text, rfl⟩ := List.exists_cons_of_ne_nil hne
      obtain ⟨rfl, -⟩ := List.cons.inj hs
      exact absurd hc (by rw [hunbroken c List.mem_cons_self]; exact Bool.false_ne_true)
    | cons d before =>
      obtain ⟨-, rfl⟩ := List.cons.inj hs
      refine ⟨before, after, rfl, fun e he => hbefore e ?_, hafter⟩
      rw [List.getLast?_cons, Option.mem_def.mp he]
      rfl
  · rintro ⟨hne, hunbroken, before, after, rfl, hbefore, hafter⟩
    refine ⟨hne, hunbroken, c :: before, after, rfl, ?_, hafter⟩
    intro e he
    rw [List.getLast?_cons, Option.mem_some_iff] at he
    cases hlast : before.getLast? with
    | none =>
      rw [hlast, Option.getD_none] at he
      rwa [← he]
    | some d =>
      rw [hlast, Option.getD_some] at he
      rw [← he]
      exact hbefore d hlast

theorem exists_front {c : α} (hc : sep c = false) (rest : List α) :
    ∃ front tail, c :: rest = front ++ tail ∧ front ≠ [] ∧ (∀ d ∈ front, sep d = false) ∧
      (∀ d ∈ tail.head?, sep d = true) ∧ tail.length ≤ rest.length := by
  have hhead : (c :: rest).takeWhile (fun d => !sep d) =
      c :: rest.takeWhile (fun d => !sep d) := List.takeWhile_cons_of_pos (by simp [hc])
  refine ⟨(c :: rest).takeWhile (fun d => !sep d), (c :: rest).dropWhile (fun d => !sep d),
    List.takeWhile_append_dropWhile.symm, by rw [hhead]; exact List.cons_ne_nil _ _, ?_, ?_, ?_⟩
  · intro d hd
    simpa using List.mem_takeWhile_imp hd
  · intro d hd
    have hne : (c :: rest).dropWhile (fun d => !sep d) ≠ [] := by
      intro hnil
      rw [hnil] at hd
      exact absurd hd (by simp)
    have hnot := List.head_dropWhile_not (fun d => !sep d) hne
    rw [List.head?_eq_some_head hne, Option.mem_some_iff] at hd
    rw [hd] at hnot
    simpa using hnot
  · rw [List.dropWhile_cons_of_pos (by simp [hc])]
    exact (List.dropWhile_suffix _).length_le

theorem front_unique {front tail after : List α} (hs : front ++ tail = text ++ after)
    (hfront : ∀ c ∈ front, sep c = false) (htext : ∀ c ∈ text, sep c = false)
    (htail : ∀ c ∈ tail.head?, sep c = true) (hafter : ∀ c ∈ after.head?, sep c = true) :
    text = front := by
  obtain ⟨more, rfl, hrest⟩ | ⟨more, rfl, hrest⟩ := List.append_eq_append_iff.mp hs
  · cases more with
    | nil => rw [List.append_nil]
    | cons c more =>
      rw [hrest] at htail
      have hsep := htail c rfl
      rw [htext c (by simp)] at hsep
      exact absurd hsep Bool.false_ne_true
  · cases more with
    | nil => rw [List.append_nil]
    | cons c more =>
      rw [hrest] at hafter
      have hsep := hafter c rfl
      rw [hfront c (by simp)] at hsep
      exact absurd hsep Bool.false_ne_true

theorem isToken_append {front tail : List α} (hne : front ≠ [])
    (hunbroken : ∀ c ∈ front, sep c = false) (htail : ∀ c ∈ tail.head?, sep c = true) :
    IsToken sep (front ++ tail) text ↔ text = front ∨ IsToken sep tail text := by
  constructor
  · rintro ⟨hne', hunbroken', before, after, hs, hbefore, hafter⟩
    obtain ⟨more, rfl, hrest⟩ | ⟨more, rfl, hrest⟩ := List.append_eq_append_iff.mp hs
    · right
      refine ⟨hne', hunbroken', more, after, hrest, fun c hc => hbefore c ?_, hafter⟩
      rw [List.getLast?_append, Option.mem_def.mp hc]
      rfl
    · left
      -- a separator before the token would be in the run
      have hnil : before = [] := by
        by_contra hbefore_ne
        have hlast := hbefore _ (List.getLast?_eq_some_getLast hbefore_ne)
        have hmem := List.mem_append_left more (List.getLast_mem hbefore_ne)
        rw [hunbroken _ hmem] at hlast
        exact absurd hlast Bool.false_ne_true
      rw [hnil, List.nil_append] at hs hunbroken ⊢
      exact front_unique hs hunbroken hunbroken' htail hafter
  · rintro (rfl | ⟨hne', hunbroken', before, after, rfl, hbefore, hafter⟩)
    · exact ⟨hne, hunbroken, [], tail, rfl, nofun, htail⟩
    · refine ⟨hne', hunbroken', front ++ before, after, by rw [List.append_assoc], ?_, hafter⟩
      intro c hc
      rw [List.getLast?_append] at hc
      cases hlast : before.getLast? with
      | none =>
        obtain ⟨d, text, rfl⟩ := List.exists_cons_of_ne_nil hne'
        rw [List.getLast?_eq_none_iff.mp hlast] at htail
        have hd := htail d rfl
        rw [hunbroken' d List.mem_cons_self] at hd
        exact absurd hd Bool.false_ne_true
      | some d =>
        rw [hlast] at hc
        exact hbefore c (hlast.trans hc)

/-! ### Tokens with their places -/

variable (sep) in
/-- The token of `len` elements that starts at `start`. -/
structure IsTokenAt (s : List α) (start len : ℕ) : Prop where
  nonempty : 0 < len
  unbroken : ∀ i, start ≤ i → i < start + len → ∃ c, s[i]? = some c ∧ sep c = false
  left : ∀ i, start = i + 1 → ∀ c, s[i]? = some c → sep c = true
  right : ∀ c, s[start + len]? = some c → sep c = true

theorem IsTokenAt.eq_of_overlap {a n b k : ℕ} (h : IsTokenAt sep s a n)
    (h' : IsTokenAt sep s b k) (hle : a ≤ b) (hlt : b < a + n) : b = a ∧ k = n := by
  have hstart : b = a := by
    by_contra hne
    obtain ⟨c, hc, hbreak⟩ := h.unbroken (b - 1) (by omega) (by omega)
    rw [h'.left (b - 1) (by omega) c hc] at hbreak
    cases hbreak
  subst hstart
  refine ⟨rfl, ?_⟩
  apply le_antisymm
  · by_contra hlong
    obtain ⟨c, hc, hbreak⟩ := h'.unbroken (b + n) (by omega) (by omega)
    rw [h.right c hc] at hbreak
    cases hbreak
  · by_contra hlong
    obtain ⟨c, hc, hbreak⟩ := h.unbroken (b + k) (by omega) (by omega)
    rw [h'.right c hc] at hbreak
    cases hbreak

variable (sep) in
/-- The tokens of what is left of a list from index `i` on, as pairs of start
and length; `open_` is the start of a token that has begun before `i`. -/
def tokensFrom : List α → ℕ → Option ℕ → List (ℕ × ℕ)
  | [], _, none => []
  | [], i, some start => [(start, i - start)]
  | c :: rest, i, open_ =>
    if sep c then (open_.map fun start => (start, i - start)).toList ++ tokensFrom rest (i + 1) none
    else tokensFrom rest (i + 1) (some (open_.getD i))

variable (sep) in
def tokens (s : List α) : List (ℕ × ℕ) := tokensFrom sep s 0 none

variable (sep) in
/-- What is known of the elements before index `i`: an open token began with
them and has not ended, or else the last of them is a separator. -/
def Begun (s : List α) (i : ℕ) : Option ℕ → Prop
  | none => ∀ j, i = j + 1 → ∀ c, s[j]? = some c → sep c = true
  | some start => start < i ∧ (∀ j, start ≤ j → j < i → ∃ c, s[j]? = some c ∧ sep c = false) ∧
      ∀ j, start = j + 1 → ∀ c, s[j]? = some c → sep c = true

theorem Begun.closed {i start : ℕ} (h : Begun sep s i (some start))
    (hright : ∀ c, s[i]? = some c → sep c = true) : IsTokenAt sep s start (i - start) := by
  obtain ⟨hlt, hunbroken, hleft⟩ := h
  have hend : start + (i - start) = i := by omega
  refine ⟨by omega, ?_, hleft, ?_⟩
  · rw [hend]
    exact hunbroken
  · rw [hend]
    exact hright

theorem Begun.goes_on {i : ℕ} {open_ : Option ℕ} {c : α} (h : Begun sep s i open_)
    (hc : s[i]? = some c) (hsep : sep c = false) :
    Begun sep s (i + 1) (some (open_.getD i)) := by
  cases open_ with
  | none =>
    refine ⟨Nat.lt_succ_self i, ?_, h⟩
    intro j hle hlt
    obtain rfl : j = i := by simp only [Option.getD_none] at hle; omega
    exact ⟨c, hc, hsep⟩
  | some start =>
    obtain ⟨hlt, hunbroken, hleft⟩ := h
    refine ⟨Nat.lt_succ_of_lt hlt, ?_, hleft⟩
    intro j hle hj
    obtain hj | rfl := Nat.lt_succ_iff_lt_or_eq.mp hj
    · exact hunbroken j hle hj
    · exact ⟨c, hc, hsep⟩

/-- What is listed are the tokens that are open or start from `i` on. The
induction is on what is left of the list. -/
theorem mem_tokensFrom {a n : ℕ} (rest : List α) : ∀ (i : ℕ) (open_ : Option ℕ),
    s.drop i = rest → Begun sep s i open_ →
      ((a, n) ∈ tokensFrom sep rest i open_ ↔ IsTokenAt sep s a n ∧ open_.getD i ≤ a) := by
  induction rest with
  | nil =>
    intro i open_ hrest hbegun
    have hover : ∀ j, i ≤ j → s[j]? = none := by
      intro j hj
      rw [List.getElem?_eq_none_iff]
      have := List.drop_eq_nil_iff.mp hrest
      omega
    have hnone : ∀ k, IsTokenAt sep s a k → ¬ i ≤ a := by
      intro k h hle
      obtain ⟨c, hc, -⟩ := h.unbroken a le_rfl (Nat.lt_add_of_pos_right h.nonempty)
      rw [hover a hle] at hc
      cases hc
    cases open_ with
    | none =>
      simp only [tokensFrom, List.not_mem_nil, false_iff, Option.getD_none, not_and]
      exact hnone n
    | some start =>
      have htoken := hbegun.closed (fun c hc => by rw [hover i le_rfl] at hc; cases hc)
      simp only [tokensFrom, List.mem_singleton, Prod.mk.injEq, Option.getD_some]
      constructor
      · rintro ⟨rfl, rfl⟩
        exact ⟨htoken, le_rfl⟩
      · rintro ⟨h, hle⟩
        have := hnone n h
        exact htoken.eq_of_overlap h hle (by omega)
  | cons c rest ih =>
    intro i open_ hrest hbegun
    have hc : s[i]? = some c := by
      have := congrArg (fun l => l[0]?) hrest
      simpa using this
    have hdrop : s.drop (i + 1) = rest := by
      rw [← List.tail_drop, hrest, List.tail_cons]
    unfold tokensFrom
    split
    · rename_i hsep
      have hbegun' : Begun sep s (i + 1) none := by
        intro j hj d hd
        obtain rfl : j = i := by omega
        rw [hc] at hd
        cases hd
        exact hsep
      have hpast : ∀ k, IsTokenAt sep s a k → a ≠ i := by
        rintro k h rfl
        obtain ⟨d, hd, hbreak⟩ := h.unbroken a le_rfl (Nat.lt_add_of_pos_right h.nonempty)
        rw [hc] at hd
        cases hd
        rw [hsep] at hbreak
        cases hbreak
      rw [List.mem_append, ih (i + 1) none hdrop hbegun']
      cases open_ with
      | none =>
        simp only [Option.map_none, Option.toList_none, List.not_mem_nil, false_or,
          Option.getD_none]
        constructor
        · rintro ⟨h, hle⟩
          exact ⟨h, by omega⟩
        · rintro ⟨h, hle⟩
          have := hpast n h
          exact ⟨h, by omega⟩
      | some start =>
        have htoken := hbegun.closed (fun d hd => by rw [hc] at hd; cases hd; exact hsep)
        simp only [Option.map_some, Option.toList_some, List.mem_singleton, Prod.mk.injEq,
          Option.getD_none, Option.getD_some]
        have hlt := hbegun.1
        constructor
        · rintro (⟨rfl, rfl⟩ | ⟨h, hle⟩)
          · exact ⟨htoken, le_rfl⟩
          · exact ⟨h, by omega⟩
        · rintro ⟨h, hle⟩
          have := hpast n h
          by_cases hin : a < i
          · exact Or.inl (htoken.eq_of_overlap h hle (by omega))
          · exact Or.inr ⟨h, by omega⟩
    · rename_i hsep
      rw [Bool.not_eq_true] at hsep
      rw [ih (i + 1) _ hdrop (hbegun.goes_on hc hsep)]
      rfl

theorem mem_tokens {a n : ℕ} : (a, n) ∈ tokens sep s ↔ IsTokenAt sep s a n := by
  have h := @mem_tokensFrom _ sep s a n s 0 none List.drop_zero
    (fun j hj => absurd hj (by omega))
  rw [tokens, h]
  simp

theorem tokensFrom_sorted (rest : List α) : ∀ (i : ℕ) (open_ : Option ℕ),
    (∀ start ∈ open_, start ≤ i) →
      (tokensFrom sep rest i open_).Pairwise (fun a b => a.1 + a.2 < b.1) ∧
        ∀ a ∈ tokensFrom sep rest i open_, open_.getD i ≤ a.1 := by
  induction rest with
  | nil =>
    intro i open_ hopen
    cases open_ with
    | none => simp [tokensFrom]
    | some start => simp [tokensFrom]
  | cons c rest ih =>
    intro i open_ hopen
    unfold tokensFrom
    split
    · obtain ⟨hsorted, hfrom⟩ := ih (i + 1) none (by simp)
      simp only [Option.getD_none] at hfrom
      cases open_ with
      | none =>
        refine ⟨hsorted, fun a ha => ?_⟩
        have := hfrom a ha
        simp only [Option.getD_none]
        omega
      | some start =>
        have hstart := hopen start rfl
        simp only [Option.map_some, Option.toList_some, List.singleton_append,
          List.pairwise_cons, List.mem_cons, Option.getD_some]
        refine ⟨⟨fun a ha => ?_, hsorted⟩, ?_⟩
        · have := hfrom a ha
          omega
        · rintro a (rfl | ha)
          · exact le_rfl
          · have := hfrom a ha
            omega
    · obtain ⟨hsorted, hfrom⟩ := ih (i + 1) (some (open_.getD i)) (by
        intro start hstart
        cases open_ with
        | none => cases hstart; exact Nat.le_succ i
        | some first => cases hstart; exact Nat.le_succ_of_le (hopen _ rfl))
      exact ⟨hsorted, hfrom⟩

theorem tokens_sorted : (tokens sep s).Pairwise (fun a b => a.1 + a.2 < b.1) :=
  (tokensFrom_sorted s 0 none (by simp)).1

end Yans.Library.Tokens
