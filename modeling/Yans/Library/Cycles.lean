import Mathlib.Data.Nat.Notation
import Mathlib.Tactic.Common

/-! Iterators that give one item at a call and say when they are through, ready
to start again. A call that does not return is `none`. -/
namespace Yans.Library.Cycles

variable {σ τ β : Type*} (next : σ → Option (Option β × σ))

inductive Cycle : σ → List β → σ → Prop
  | finish {s s' : σ} (h : next s = some (none, s')) : Cycle s [] s'
  | item {s s' s'' : σ} {b : β} {bs : List β} (h : next s = some (some b, s'))
    (hrest : Cycle s' bs s'') : Cycle s (b :: bs) s''

inductive Chain : σ → List (List β) → σ → Prop
  | nil {s : σ} : Chain s [] s
  | cons {s s' s'' : σ} {run : List β} {runs : List (List β)} (h : Cycle next s run s')
    (hrest : Chain s' runs s'') : Chain s (run :: runs) s''

variable {next}

theorem cycle_of_eq {s₁ s₂ s' : σ} {bs : List β} (h : next s₁ = next s₂) (hcycle : Cycle next s₂ bs s') :
    Cycle next s₁ bs s' := by
  cases hcycle with
  | finish hend => exact Cycle.finish (h.trans hend)
  | item hitem hrest => exact Cycle.item (h.trans hitem) hrest

theorem cycle_unique {s s₁ s₂ : σ} {bs₁ bs₂ : List β} (h₁ : Cycle next s bs₁ s₁) :
    Cycle next s bs₂ s₂ → bs₁ = bs₂ := by
  induction h₁ generalizing bs₂ with
  | finish hend =>
    intro h₂
    cases h₂ with
    | finish => rfl
    | item hitem => exact absurd (hend.symm.trans hitem) (by simp)
  | item hitem hrest ih =>
    intro h₂
    cases h₂ with
    | finish hend => exact absurd (hend.symm.trans hitem) (by simp)
    | item hitem' hrest' =>
      obtain ⟨hb, rfl⟩ := Prod.mk.inj (Option.some.inj (hitem.symm.trans hitem'))
      rw [Option.some.inj hb, ih hrest']

theorem chain_of_invariant {inv : σ → Prop} {good : List β → Prop}
    (hcycle : ∀ s, inv s → ∃ run s', Cycle next s run s' ∧ good run ∧ inv s') (n : ℕ) :
    ∀ s, inv s → ∃ runs s', Chain next s runs s' ∧ runs.length = n ∧ ∀ run ∈ runs, good run := by
  induction n with
  | zero => exact fun s _ => ⟨[], s, Chain.nil, rfl, by simp⟩
  | succ n ih =>
    intro s hs
    obtain ⟨run, s', hrun, hgood, hinv⟩ := hcycle s hs
    obtain ⟨runs, s'', hruns, hlen, hall⟩ := ih s' hinv
    refine ⟨run :: runs, s'', Chain.cons hrun hruns, by rw [List.length_cons, hlen], ?_⟩
    intro r hr
    obtain rfl | hr := List.mem_cons.mp hr
    · exact hgood
    · exact hall r hr

theorem cycle_of_simulation {next' : τ → Option (Option β × τ)} (related : σ → τ → Prop)
    {ends : τ → Prop}
    (hitem : ∀ s t b s', related s t → next s = some (some b, s') →
      ∃ t', next' t = some (some b, t') ∧ related s' t')
    (hend : ∀ s t s', related s t → next s = some (none, s') →
      ∃ t', next' t = some (none, t') ∧ ends t')
    {s s' : σ} {bs : List β} (h : Cycle next s bs s') :
    ∀ t, related s t → ∃ t', Cycle next' t bs t' ∧ ends t' := by
  induction h with
  | finish h =>
    intro t hst
    obtain ⟨t', hnext, hends⟩ := hend _ t _ hst h
    exact ⟨t', Cycle.finish hnext, hends⟩
  | item h hrest ih =>
    intro t hst
    obtain ⟨t', hnext, hst'⟩ := hitem _ t _ _ hst h
    obtain ⟨t'', hcycle, hends⟩ := ih t' hst'
    exact ⟨t'', Cycle.item hnext hcycle, hends⟩

end Yans.Library.Cycles
