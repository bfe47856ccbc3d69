import Yans.Library.Intervals

/-! Merging intervals that lie in different realms, where only neighbours of one
realm are joined, and where nothing but the lowest number of a realm is joined to
an interval that ends at its highest. What comes out keeps its distance exactly
when no such obstacle stands between two intervals that are close. -/
namespace Yans.Library.Realms

open Compaction Intervals

variable {α ζ : Type*} (lo hi : α → ℕ) (realm : α → ζ) (bottom top : ζ → ℕ) (ok : α → Prop)

/-- Intervals of one realm are more than `d` apart. -/
def Apart (d : ℕ) (entries : List α) : Prop :=
  entries.Pairwise fun a b => realm a = realm b → hi a + d < lo b

/-- Between two intervals of one realm that are not more than `d` apart there is
no other realm, and the first of them does not end at the top of it, unless the
second starts at the bottom. -/
def Clear (d : ℕ) (entries : List α) : Prop :=
  ∀ before a between b after, entries = before ++ a :: (between ++ b :: after) →
    realm a = realm b → lo b ≤ hi a + d →
    (∀ e ∈ between, realm e = realm a) ∧ (hi a = top (realm a) → lo b = bottom (realm a))

/-- `ok` intervals are not empty and inside their realm. -/
structure Joining (joins : α → α → Bool) (absorb : α → α → α) : Prop where
  le : ∀ a, ok a → lo a ≤ hi a
  le_top : ∀ a, ok a → hi a ≤ top (realm a)
  joins_iff : ∀ a b, ok a → ok b → (joins a b = true ↔ realm a = realm b ∧ lo b ≤ hi a + 1 ∧
    (hi a = top (realm a) → lo b = bottom (realm a)))
  ok_absorb : ∀ a b, ok a → ok b → realm a = realm b → ok (absorb a b)
  realm_absorb : ∀ a b, realm (absorb a b) = realm a
  lo_absorb : ∀ a b, lo (absorb a b) = lo a
  hi_absorb : ∀ a b, hi (absorb a b) = max (hi a) (hi b)

/-- `x` of the realm `z` lies in one of the intervals. -/
def CoversIn (entries : List α) (z : ζ) (x : ℕ) : Prop :=
  ∃ e ∈ entries, realm e = z ∧ lo e ≤ x ∧ x ≤ hi e

variable {lo hi realm bottom top ok}

theorem clear_cons {d : ℕ} {a : α} {rest : List α} :
    Clear lo hi realm bottom top d (a :: rest) ↔
      (∀ between b after, rest = between ++ b :: after → realm a = realm b → lo b ≤ hi a + d →
        (∀ e ∈ between, realm e = realm a) ∧ (hi a = top (realm a) → lo b = bottom (realm a))) ∧
      Clear lo hi realm bottom top d rest := by
  constructor
  · intro h
    refine ⟨fun between b after hrest => h [] a between b after (by rw [hrest]; rfl), ?_⟩
    intro before a' between b after hrest
    exact h (a :: before) a' between b after (by rw [hrest]; rfl)
  · rintro ⟨hfirst, hrest⟩ before a' between b after heq
    cases before with
    | nil =>
      rw [List.nil_append, List.cons.injEq] at heq
      obtain ⟨rfl, rfl⟩ := heq
      exact hfirst between b after rfl
    | cons e before =>
      rw [List.cons_append, List.cons.injEq] at heq
      exact hrest before a' between b after heq.2

theorem clear_nil {d : ℕ} : Clear lo hi realm bottom top d [] := by
  intro before a between b after h
  exact absurd h.symm (by simp)

section

variable {joins : α → α → Bool} {absorb : α → α → α}
  (joining : Joining lo hi realm bottom top ok joins absorb)

include joining

theorem exists_of_mem_mergeFrom (rest : List α) : ∀ cur e, e ∈ mergeFrom joins absorb cur rest →
    ∃ b ∈ cur :: rest, lo e = lo b ∧ realm e = realm b := by
  induction rest with
  | nil =>
    intro cur e he
    rw [mergeFrom, List.mem_singleton] at he
    exact ⟨cur, List.mem_cons_self, by rw [he], by rw [he]⟩
  | cons next rest ih =>
    intro cur e he
    unfold mergeFrom at he
    split at he
    · obtain ⟨b, hb, hlo, hrealm⟩ := ih _ e he
      obtain rfl | hb := List.mem_cons.mp hb
      · rw [joining.lo_absorb] at hlo
        rw [joining.realm_absorb] at hrealm
        exact ⟨cur, List.mem_cons_self, hlo, hrealm⟩
      · exact ⟨b, List.mem_cons_of_mem _ (List.mem_cons_of_mem _ hb), hlo, hrealm⟩
    · obtain rfl | he := List.mem_cons.mp he
      · exact ⟨e, List.mem_cons_self, rfl, rfl⟩
      · obtain ⟨b, hb, h⟩ := ih next e he
        exact ⟨b, List.mem_cons_of_mem _ hb, h⟩

theorem realm_sorted_absorb {cur next : α} {rest : List α}
    (hsorted : SortedByLo lo (cur :: next :: rest)) : SortedByLo lo (absorb cur next :: rest) := by
  obtain ⟨hcur, hrest⟩ := List.pairwise_cons.mp hsorted
  refine List.pairwise_cons.mpr ⟨fun b hb => ?_, (List.pairwise_cons.mp hrest).2⟩
  rw [joining.lo_absorb]
  exact hcur b (List.mem_cons_of_mem _ hb)

theorem sorted_mergeFrom (rest : List α) : ∀ cur, SortedByLo lo (cur :: rest) →
    SortedByLo lo (mergeFrom joins absorb cur rest) := by
  induction rest with
  | nil => exact fun cur _ => List.pairwise_singleton _ _
  | cons next rest ih =>
    intro cur hsorted
    unfold mergeFrom
    split
    · exact ih _ (realm_sorted_absorb joining hsorted)
    · obtain ⟨hcur, hrest⟩ := List.pairwise_cons.mp hsorted
      refine List.pairwise_cons.mpr ⟨fun e he => ?_, ih next hrest⟩
      obtain ⟨b, hb, hlo, -⟩ := exists_of_mem_mergeFrom joining rest next e he
      rw [hlo]
      exact hcur b hb

theorem ok_absorb_cons {cur next : α} {rest : List α} (hok : ∀ e ∈ cur :: next :: rest, ok e)
    (hjoins : joins cur next = true) : ∀ e ∈ absorb cur next :: rest, ok e := by
  have hcur := hok cur List.mem_cons_self
  have hnext := hok next (List.mem_cons_of_mem _ List.mem_cons_self)
  intro e he
  obtain rfl | he := List.mem_cons.mp he
  · exact joining.ok_absorb _ _ hcur hnext ((joining.joins_iff _ _ hcur hnext).mp hjoins).1
  · exact hok e (List.mem_cons_of_mem _ (List.mem_cons_of_mem _ he))

theorem ok_mergeFrom (rest : List α) : ∀ cur, (∀ e ∈ cur :: rest, ok e) →
    ∀ e ∈ mergeFrom joins absorb cur rest, ok e := by
  induction rest with
  | nil => exact fun cur hok => hok
  | cons next rest ih =>
    intro cur hok
    unfold mergeFrom
    split
    · rename_i hjoins
      exact ih _ (ok_absorb_cons joining hok hjoins)
    · intro e he
      obtain rfl | he := List.mem_cons.mp he
      · exact hok e List.mem_cons_self
      · exact ih next (fun e he => hok e (List.mem_cons_of_mem _ he)) e he

theorem exists_mergeFrom_of_mem (rest : List α) : ∀ cur, SortedByLo lo (cur :: rest) →
    (∀ e ∈ cur :: rest, ok e) → ∀ b ∈ cur :: rest, ∃ e ∈ mergeFrom joins absorb cur rest,
      realm e = realm b ∧ lo e ≤ lo b ∧ hi b ≤ hi e := by
  induction rest with
  | nil =>
    intro cur _ _ b hb
    rw [List.mem_singleton] at hb
    exact ⟨cur, by rw [mergeFrom]; exact List.mem_cons_self, by rw [hb], by rw [hb], by rw [hb]⟩
  | cons next rest ih =>
    intro cur hsorted hok b hb
    obtain ⟨hcur, hrest⟩ := List.pairwise_cons.mp hsorted
    have hlo := hcur next List.mem_cons_self
    unfold mergeFrom
    split
    · rename_i hjoins
      have hrealm := ((joining.joins_iff _ _ (hok cur List.mem_cons_self)
        (hok next (List.mem_cons_of_mem _ List.mem_cons_self))).mp hjoins).1
      have hall := ih _ (realm_sorted_absorb joining hsorted) (ok_absorb_cons joining hok hjoins)
      obtain ⟨e, he, her, hel, heh⟩ := hall _ List.mem_cons_self
      rw [joining.realm_absorb] at her
      rw [joining.lo_absorb] at hel
      rw [joining.hi_absorb] at heh
      obtain rfl | hb := List.mem_cons.mp hb
      · exact ⟨e, he, her, hel, (le_max_left _ _).trans heh⟩
      obtain rfl | hb := List.mem_cons.mp hb
      · exact ⟨e, he, her.trans hrealm, hel.trans hlo, (le_max_right _ _).trans heh⟩
      · exact hall b (List.mem_cons_of_mem _ hb)
    · obtain rfl | hb := List.mem_cons.mp hb
      · exact ⟨b, List.mem_cons_self, rfl, le_rfl, le_rfl⟩
      · obtain ⟨e, he, h⟩ := ih next hrest (fun e he => hok e (List.mem_cons_of_mem _ he)) b hb
        exact ⟨e, List.mem_cons_of_mem _ he, h⟩

theorem coversIn_mergeFrom (z : ζ) (x : ℕ) (rest : List α) : ∀ cur, SortedByLo lo (cur :: rest) →
    (∀ e ∈ cur :: rest, ok e) → (CoversIn lo hi realm (mergeFrom joins absorb cur rest) z x ↔
      CoversIn lo hi realm (cur :: rest) z x) := by
  induction rest with
  | nil => exact fun cur _ _ => Iff.rfl
  | cons next rest ih =>
    intro cur hsorted hok
    have hcur := hok cur List.mem_cons_self
    have hnext := hok next (List.mem_cons_of_mem _ List.mem_cons_self)
    have hlo := (List.pairwise_cons.mp hsorted).1 next List.mem_cons_self
    have hrest : ∀ e ∈ next :: rest, ok e := fun e he => hok e (List.mem_cons_of_mem _ he)
    have hcons : ∀ (e : α) (entries : List α), CoversIn lo hi realm (e :: entries) z x ↔
        (realm e = z ∧ lo e ≤ x ∧ x ≤ hi e) ∨ CoversIn lo hi realm entries z x := by
      simp [CoversIn]
    unfold mergeFrom
    split
    · rename_i hjoins
      obtain ⟨hrealm, hnear, -⟩ := (joining.joins_iff _ _ hcur hnext).mp hjoins
      rw [ih _ (realm_sorted_absorb joining hsorted) (ok_absorb_cons joining hok hjoins), hcons,
        hcons, hcons, joining.realm_absorb, joining.lo_absorb, joining.hi_absorb, ← or_assoc,
        ← hrealm, ← and_or_left]
      apply or_congr_left
      apply and_congr_right
      intro _
      omega
    · rw [hcons, hcons, ih next (List.pairwise_cons.mp hsorted).2 hrest]

theorem clear_absorb_iff {d : ℕ} {cur next : α} {rest : List α}
    (hok : ∀ e ∈ cur :: next :: rest, ok e) (hjoins : joins cur next = true) :
    Clear lo hi realm bottom top d (cur :: next :: rest) ↔
      Clear lo hi realm bottom top d (absorb cur next :: rest) := by
  have hcur := hok cur List.mem_cons_self
  have hnext := hok next (List.mem_cons_of_mem _ List.mem_cons_self)
  have htop := joining.le_top cur hcur
  have htop' := joining.le_top next hnext
  obtain ⟨hrealm, hnear, hblocked⟩ := (joining.joins_iff _ _ hcur hnext).mp hjoins
  rw [clear_cons, clear_cons, clear_cons, joining.realm_absorb, joining.hi_absorb, ← and_assoc]
  apply and_congr_left
  intro _
  constructor
  · rintro ⟨hfirst, hsecond⟩ between b after rfl hb hclose
    have hb_ok := hok b (by simp)
    have hb_top := (joining.le b hb_ok).trans (joining.le_top b hb_ok)
    rw [← hb] at hb_top
    have hof_cur : lo b ≤ hi cur + d → (∀ e ∈ between, realm e = realm cur) ∧
        (hi cur = top (realm cur) → lo b = bottom (realm cur)) := by
      intro h
      obtain ⟨hall, hlow⟩ := hfirst (next :: between) b after rfl hb h
      exact ⟨fun e he => hall e (List.mem_cons_of_mem _ he), hlow⟩
    have hof_next : lo b ≤ hi next + d → (∀ e ∈ between, realm e = realm cur) ∧
        (hi next = top (realm cur) → lo b = bottom (realm cur)) := by
      intro h
      have hsame := hsecond between b after rfl (hrealm.symm.trans hb) h
      rwa [← hrealm] at hsame
    constructor
    · obtain h | h : lo b ≤ hi cur + d ∨ lo b ≤ hi next + d := by omega
      · exact (hof_cur h).1
      · exact (hof_next h).1
    · intro hmax
      rw [← hrealm] at htop'
      obtain h | h : hi cur = top (realm cur) ∨ hi next = top (realm cur) := by omega
      · exact (hof_cur (by omega)).2 h
      · exact (hof_next (by omega)).2 h
  · intro habsorb
    constructor
    · intro between b after hsplit hb hclose
      cases between with
      | nil =>
        rw [List.nil_append, List.cons.injEq] at hsplit
        rw [← hsplit.1]
        exact ⟨by simp, hblocked⟩
      | cons e between =>
        rw [List.cons_append, List.cons.injEq] at hsplit
        obtain ⟨hall, hlow⟩ := habsorb between b after hsplit.2 hb (by omega)
        refine ⟨fun e' he' => ?_, fun hmax => hlow (by rw [← hrealm] at htop'; omega)⟩
        obtain rfl | he' := List.mem_cons.mp he'
        · rw [← hsplit.1, hrealm]
        · exact hall e' he'
    · intro between b after hsplit hb hclose
      obtain ⟨hall, hlow⟩ := habsorb between b after hsplit (hrealm.trans hb) (by omega)
      rw [← hrealm]
      exact ⟨hall, fun hmax => hlow (by omega)⟩

theorem apart_mergeFrom_iff {d : ℕ} (hd : d ≤ 1) (rest : List α) : ∀ cur,
    SortedByLo lo (cur :: rest) → (∀ e ∈ cur :: rest, ok e) →
    (Apart lo hi realm d (mergeFrom joins absorb cur rest) ↔
      Clear lo hi realm bottom top d (cur :: rest)) := by
  induction rest with
  | nil =>
    intro cur _ _
    refine iff_of_true (List.pairwise_singleton _ _) (clear_cons.mpr ⟨?_, clear_nil⟩)
    intro between b after h
    exact absurd h.symm (by simp)
  | cons next rest ih =>
    intro cur hsorted hok
    have hcur := hok cur List.mem_cons_self
    have hnext := hok next (List.mem_cons_of_mem _ List.mem_cons_self)
    have hrest_ok : ∀ e ∈ next :: rest, ok e := fun e he => hok e (List.mem_cons_of_mem _ he)
    obtain ⟨hlo, hrest⟩ := List.pairwise_cons.mp hsorted
    unfold mergeFrom
    split
    · rename_i hjoins
      rw [clear_absorb_iff joining hok hjoins]
      exact ih _ (realm_sorted_absorb joining hsorted) (ok_absorb_cons joining hok hjoins)
    · rename_i hjoins
      rw [joining.joins_iff _ _ hcur hnext] at hjoins
      rw [Apart, List.pairwise_cons, clear_cons]
      apply and_congr _ (ih next hrest hrest_ok)
      constructor
      · intro hapart between b after hsplit hb hclose
        obtain ⟨e, he, her, hel, -⟩ := exists_mergeFrom_of_mem joining rest next hrest hrest_ok b
          (by rw [hsplit]; simp)
        have hlt := hapart e he (hb.trans her.symm)
        omega
      · intro hclear e he hrealm
        obtain ⟨b, hb, hlob, hrealmb⟩ := exists_of_mem_mergeFrom joining rest next e he
        by_contra hnear
        obtain ⟨between, after, hsplit⟩ := List.append_of_mem hb
        have hrealm' := hrealm.trans hrealmb
        have hbetween := (hclear between b after hsplit hrealm' (by omega)).1
        -- everything up to `b` is of the same realm, so that `next` had to be joined
        have hsame : realm cur = realm next := by
          cases between with
          | nil =>
            rw [List.nil_append, List.cons.injEq] at hsplit
            rw [hsplit.1]
            exact hrealm'
          | cons first between =>
            rw [List.cons_append, List.cons.injEq] at hsplit
            rw [hsplit.1]
            exact (hbetween first List.mem_cons_self).symm
        have hlob' : lo next ≤ lo b := by
          obtain rfl | hb := List.mem_cons.mp hb
          · exact le_rfl
          · exact (List.pairwise_cons.mp hrest).1 b hb
        have hlow := (hclear [] next rest rfl hsame (by omega)).2
        exact hjoins ⟨hsame, by omega, hlow⟩

theorem merge_spec {entries : List α} (hsorted : SortedByLo lo entries)
    (hok : ∀ e ∈ entries, ok e) :
    SortedByLo lo (merge joins absorb entries) ∧ (∀ e ∈ merge joins absorb entries, ok e) ∧
      (∀ z x, CoversIn lo hi realm (merge joins absorb entries) z x ↔
        CoversIn lo hi realm entries z x) ∧
      ∀ d ≤ 1, (Apart lo hi realm d (merge joins absorb entries) ↔
        Clear lo hi realm bottom top d entries) := by
  cases entries with
  | nil =>
    refine ⟨hsorted, hok, fun z x => Iff.rfl, fun d _ => iff_of_true List.Pairwise.nil clear_nil⟩
  | cons first rest =>
    exact ⟨sorted_mergeFrom joining rest first hsorted, ok_mergeFrom joining rest first hok,
      fun z x => coversIn_mergeFrom joining z x rest first hsorted hok,
      fun d hd => apart_mergeFrom_iff joining hd rest first hsorted hok⟩

end

end Yans.Library.Realms
