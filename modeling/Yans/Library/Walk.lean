import Mathlib.Data.Set.Finite.Basic
import Mathlib.Logic.Relation

/-! Depth-first walks over a graph that is discovered on the way. A plan gives
an error or the places to visit next, in order; a walk visits them one after
the other and stops at the first error. Whether a walk returns is a question
about cycles, because nothing marks what has been visited. -/
namespace Yans.Library.Walk

variable {Place Err : Type}

/-- The result of a walk; `none` is a walk that is not over yet. -/
abbrev Outcome (Err : Type) := Option (Except Err Unit)

/-- Go on with `rest` once `first` is accepted. -/
def Outcome.andThen (first rest : Outcome Err) : Outcome Err :=
  match first with
  | some (.ok ()) => rest
  | other => other

def walkAll (visit : Place → Outcome Err) : List Place → Outcome Err
  | [] => some (.ok ())
  | place :: places => (visit place).andThen (walkAll visit places)

def walk (plan : Place → Except Err (List Place)) : ℕ → Place → Outcome Err
  | 0, _ => none
  | fuel + 1, place =>
    match plan place with
    | .error err => some (.error err)
    | .ok places => walkAll (walk plan fuel) places

@[simp] theorem ok_andThen (rest : Outcome Err) :
    Outcome.andThen (some (.ok ())) rest = rest := rfl

@[simp] theorem error_andThen (err : Err) (rest : Outcome Err) :
    Outcome.andThen (some (.error err)) rest = some (.error err) := rfl

theorem andThen_eq_some {first rest : Outcome Err} {result : Except Err Unit}
    (h : first.andThen rest = some result) :
    first = some (.ok ()) ∧ rest = some result ∨ first = some result := by
  unfold Outcome.andThen at h
  split at h
  · exact .inl ⟨rfl, h⟩
  · exact .inr h

variable {plan : Place → Except Err (List Place)}

variable {visit : Place → Outcome Err}

theorem walkAll_mono {visit' : Place → Outcome Err}
    (hvisit : ∀ place result, visit place = some result → visit' place = some result)
    (places : List Place) : ∀ result, walkAll visit places = some result →
      walkAll visit' places = some result := by
  induction places with
  | nil => exact fun _ h => h
  | cons place places ih =>
    intro result h
    unfold walkAll at h ⊢
    obtain ⟨hfirst, hrest⟩ | hfirst := andThen_eq_some h
    · rw [hvisit _ _ hfirst, ok_andThen, ih _ hrest]
    · rw [hfirst] at h
      rw [hvisit _ _ hfirst]
      cases result with
      | ok => exact ih _ h
      | error err => rfl

variable {n : ℕ}

theorem walk_mono {m : ℕ} (hle : n ≤ m) : ∀ {place : Place} {result : Except Err Unit},
    walk plan n place = some result → walk plan m place = some result := by
  induction n generalizing m with
  | zero => exact fun h => absurd h (by simp [walk])
  | succ n ih =>
    intro place result h
    obtain ⟨m, rfl⟩ : ∃ k, m = k + 1 := ⟨m - 1, by omega⟩
    unfold walk at h ⊢
    cases hplan : plan place with
    | error err =>
      rw [hplan] at h
      exact h
    | ok places =>
      rw [hplan] at h
      exact walkAll_mono (fun place result hvisit => ih (by omega) hvisit) places result h

variable {place : Place}

theorem walk_unique {m : ℕ} {left right : Except Err Unit}
    (hleft : walk plan n place = some left) (hright : walk plan m place = some right) :
    left = right := by
  have hleft' := walk_mono (Nat.le_max_left n m) hleft
  rw [walk_mono (Nat.le_max_right n m) hright] at hleft'
  exact (Option.some.inj hleft').symm

/-- A place with nothing but accepted places below it. -/
inductive Accepted (plan : Place → Except Err (List Place)) : Place → Prop where
  | intro {place : Place} {places : List Place} (plan_eq : plan place = .ok places)
      (below : ∀ next ∈ places, Accepted plan next) : Accepted plan place

theorem walkAll_ok (places : List Place)
    (h : ∀ place ∈ places, visit place = some (.ok ())) :
    walkAll visit places = some (.ok ()) := by
  induction places with
  | nil => rfl
  | cons place places ih =>
    unfold walkAll
    rw [h place List.mem_cons_self, ok_andThen]
    exact ih fun next hnext => h next (List.mem_cons_of_mem _ hnext)

theorem forall_ok_of_walkAll {places : List Place}
    (h : walkAll visit places = some (.ok ())) :
    ∀ place ∈ places, visit place = some (.ok ()) := by
  induction places with
  | nil => simp
  | cons place places ih =>
    unfold walkAll at h
    have hboth : visit place = some (.ok ()) ∧ walkAll visit places = some (.ok ()) := by
      obtain hboth | hfirst := andThen_eq_some h
      · exact hboth
      · rw [hfirst, ok_andThen] at h
        exact ⟨hfirst, h⟩
    intro next hnext
    obtain rfl | hnext := List.mem_cons.mp hnext
    · exact hboth.1
    · exact ih hboth.2 next hnext

theorem Accepted.walk (h : Accepted plan place) :
    ∃ n, walk plan n place = some (.ok ()) := by
  induction h with
  | @intro place places hplan hbelow ih =>
    -- enough fuel for each place below, hence for all of them
    have hall : ∃ n, ∀ next ∈ places, Walk.walk plan n next = some (.ok ()) := by
      clear hplan
      induction places with
      | nil => exact ⟨0, by simp⟩
      | cons next rest ihrest =>
        obtain ⟨n, hn⟩ := ih next List.mem_cons_self
        obtain ⟨m, hm⟩ := ihrest (fun x hx => hbelow x (List.mem_cons_of_mem _ hx))
          fun x hx => ih x (List.mem_cons_of_mem _ hx)
        refine ⟨max n m, ?_⟩
        intro x hx
        obtain rfl | hx := List.mem_cons.mp hx
        · exact walk_mono (Nat.le_max_left n m) hn
        · exact walk_mono (Nat.le_max_right n m) (hm x hx)
    obtain ⟨n, hn⟩ := hall
    refine ⟨n + 1, ?_⟩
    unfold Walk.walk
    rw [hplan]
    exact walkAll_ok places hn

theorem accepted_of_walk : ∀ {n : ℕ} {place : Place},
    walk plan n place = some (.ok ()) → Accepted plan place := by
  intro n
  induction n with
  | zero => exact fun h => absurd h (by simp [walk])
  | succ n ih =>
    intro place h
    unfold walk at h
    cases hplan : plan place with
    | error err =>
      rw [hplan] at h
      simp at h
    | ok places =>
      rw [hplan] at h
      exact .intro hplan fun next hnext => ih (forall_ok_of_walkAll h next hnext)

/-- The walk gets from `place` to `next`: everything planned before is accepted. -/
def Edge (plan : Place → Except Err (List Place)) (place next : Place) : Prop :=
  ∃ before after, plan place = .ok (before ++ next :: after) ∧ ∀ p ∈ before, Accepted plan p

def Returns (plan : Place → Except Err (List Place)) (place : Place) : Prop :=
  ∃ n, walk plan n place ≠ none

/-- A cycle that the walk from `place` runs into. -/
def RunsIntoCycle (plan : Place → Except Err (List Place)) (place : Place) : Prop :=
  ∃ next, Relation.ReflTransGen (Edge plan) place next ∧ Relation.TransGen (Edge plan) next next

variable {next : Place}

theorem walkAll_reaches {after : List Place} (before : List Place)
    (hbefore : ∀ p ∈ before, Accepted plan p)
    (h : walkAll (walk plan n) (before ++ next :: after) ≠ none) : walk plan n next ≠ none := by
  induction before with
  | nil =>
    intro hnone
    simp only [List.nil_append, walkAll, hnone] at h
    exact h rfl
  | cons place before ih =>
    obtain ⟨m, hm⟩ := (hbefore place List.mem_cons_self).walk
    rw [List.cons_append, walkAll] at h
    cases hfirst : walk plan n place with
    | none =>
      rw [hfirst] at h
      exact absurd rfl h
    | some result =>
      rw [hfirst, walk_unique hfirst hm, ok_andThen] at h
      exact ih (fun p hp => hbefore p (List.mem_cons_of_mem _ hp)) h

theorem walk_edge (h : walk plan n place ≠ none)
    (hedge : Edge plan place next) : ∃ m < n, walk plan m next ≠ none := by
  obtain ⟨before, after, hplan, hbefore⟩ := hedge
  cases n with
  | zero => exact absurd rfl h
  | succ n =>
    unfold walk at h
    rw [hplan] at h
    exact ⟨n, Nat.lt_succ_self n, walkAll_reaches before hbefore h⟩

theorem walk_transGen (hpath : Relation.TransGen (Edge plan) place next) :
    ∀ {n : ℕ}, walk plan n place ≠ none → ∃ m < n, walk plan m next ≠ none := by
  induction hpath with
  | single hedge => exact fun h => walk_edge h hedge
  | tail _ hedge ih =>
    intro n h
    obtain ⟨m, hm, hmid⟩ := ih h
    obtain ⟨k, hk, hlast⟩ := walk_edge hmid hedge
    exact ⟨k, hk.trans hm, hlast⟩

theorem not_runsIntoCycle_of_returns (h : Returns plan place) :
    ¬ RunsIntoCycle plan place := by
  classical
  rintro ⟨next, hpath, hcycle⟩
  have hnext : ∃ n, walk plan n next ≠ none := by
    obtain ⟨n, hn⟩ := h
    obtain rfl | hpath := Relation.reflTransGen_iff_eq_or_transGen.mp hpath
    · exact ⟨n, hn⟩
    · obtain ⟨m, -, hm⟩ := walk_transGen hpath hn
      exact ⟨m, hm⟩
  -- the least fuel on a cycle would have to be smaller than itself
  obtain ⟨m, hm, hagain⟩ := walk_transGen hcycle (Nat.find_spec hnext)
  exact Nat.find_min hnext hm hagain

theorem returns_of_edges
    (h : ∀ next, Edge plan place next → Returns plan next) : Returns plan place := by
  cases hplan : plan place with
  | error err => exact ⟨1, by simp [walk, hplan]⟩
  | ok places =>
    have hall : ∀ after before, places = before ++ after → (∀ p ∈ before, Accepted plan p) →
        ∃ n, walkAll (walk plan n) after ≠ none := by
      intro after
      induction after with
      | nil => exact fun _ _ _ => ⟨0, by simp [walkAll]⟩
      | cons next after ih =>
        intro before hsplit hbefore
        obtain ⟨n, hn⟩ := h next ⟨before, after, hsplit ▸ hplan, hbefore⟩
        obtain ⟨result, hresult⟩ := Option.ne_none_iff_exists'.mp hn
        cases result with
        | error err => exact ⟨n, by simp [walkAll, hresult]⟩
        | ok =>
          have haccepted := accepted_of_walk hresult
          obtain ⟨m, hm⟩ := ih (before ++ [next]) (by simp [hsplit]) (by
            intro p hp
            obtain hp | hp := List.mem_append.mp hp
            · exact hbefore p hp
            · exact List.mem_singleton.mp hp ▸ haccepted)
          obtain ⟨rest, hrest⟩ := Option.ne_none_iff_exists'.mp hm
          refine ⟨max n m, ?_⟩
          rw [walkAll, walk_mono (Nat.le_max_left n m) hresult, ok_andThen,
            walkAll_mono (fun _ _ hvisit => walk_mono (Nat.le_max_right n m) hvisit) after _ hrest]
          simp
    obtain ⟨n, hn⟩ := hall places [] rfl (by simp)
    refine ⟨n + 1, ?_⟩
    unfold walk
    rw [hplan]
    exact hn

theorem returns_iff {region : Set Place} (hfinite : region.Finite)
    (hclosed : ∀ place next, place ∈ region → Edge plan place next → next ∈ region)
    (hplace : place ∈ region) :
    Returns plan place ↔ ¬ RunsIntoCycle plan place := by
  refine ⟨not_runsIntoCycle_of_returns, ?_⟩
  intro hacyclic
  have := hfinite.to_subtype
  let reached : Type := {p : region // Relation.ReflTransGen (Edge plan) place p.1}
  have : Finite reached := Finite.of_injective Subtype.val Subtype.val_injective
  let back : reached → reached → Prop := fun next from' => Edge plan from'.1.1 next.1.1
  have hpath : ∀ {a b : reached}, Relation.TransGen back a b →
      Relation.TransGen (Edge plan) b.1.1 a.1.1 := by
    intro a b h
    induction h with
    | single h => exact .single h
    | tail _ h ih => exact .head h ih
  have hirrefl : Std.Irrefl (Relation.TransGen back) :=
    ⟨fun a h => hacyclic ⟨a.1.1, a.2, hpath h⟩⟩
  have hwf : WellFounded (Relation.TransGen back) := Finite.wellFounded_of_trans_of_irrefl _
  have hreturns : ∀ a : reached, Returns plan a.1.1 := by
    intro a
    refine hwf.induction (C := fun b => Returns plan b.1.1) a ?_
    intro a ih
    refine returns_of_edges fun next hedge => ?_
    exact ih ⟨⟨next, hclosed _ _ a.1.2 hedge⟩, a.2.tail hedge⟩ (.single hedge)
  exact hreturns ⟨⟨place, hplace⟩, .refl⟩

end Yans.Library.Walk
