/-! Computations that thread a state and may bail out with an error. A relation
between the states of two computations is carried through both of them, as long
as the first one ends in a state that is allowed. -/
namespace Yans.Library.Computations

/-- `none` is a computation that is not over, or one without a meaning. -/
def Computation (σ ε α : Type) : Type := σ → Option (Except ε α × σ)

namespace Computation

variable {σ τ ε α β : Type}

def pure (a : α) : Computation σ ε α := fun s => some (.ok a, s)

def bind (m : Computation σ ε α) (f : α → Computation σ ε β) : Computation σ ε β := fun s =>
  match m s with
  | none => none
  | some (.error err, s) => some (.error err, s)
  | some (.ok a, s) => f a s

instance : Monad (Computation σ ε) where
  pure := pure
  bind := bind

def bail (err : ε) : Computation σ ε α := fun s => some (.error err, s)

variable {m : Computation σ ε α} {f : α → Computation σ ε β} {s : σ}

theorem bind_of_ok {s' : σ} {a : α}
    (h : m s = some (.ok a, s')) : bind m f s = f a s' := by
  unfold bind
  rw [h]

theorem bind_of_error {s' : σ} {err : ε}
    (h : m s = some (.error err, s')) : bind m f s = some (.error err, s') := by
  unfold bind
  rw [h]

theorem bind_assoc {γ : Type} (m : Computation σ ε α) (f : α → Computation σ ε β)
    (g : β → Computation σ ε γ) : bind (bind m f) g = bind m fun a => bind (f a) g := by
  funext s
  unfold bind
  cases m s with
  | none => rfl
  | some reply =>
    obtain ⟨outcome, s'⟩ := reply
    cases outcome <;> rfl

theorem bind_pure (m : Computation σ ε α) : bind m pure = m := by
  funext s
  unfold bind
  cases m s with
  | none => rfl
  | some reply =>
    obtain ⟨outcome, s'⟩ := reply
    cases outcome <;> rfl

theorem bind_eq_some {s'' : σ}
    {result : Except ε β} (h : bind m f s = some (result, s'')) :
    (∃ err, m s = some (.error err, s'') ∧ result = .error err) ∨
      ∃ a s', m s = some (.ok a, s') ∧ f a s' = some (result, s'') := by
  unfold bind at h
  split at h
  · contradiction
  · rename_i err s' hm
    cases h
    exact .inl ⟨err, hm, rfl⟩
  · rename_i a s' hm
    exact .inr ⟨a, s', hm, h⟩

theorem bind_eq_ok {s'' : σ} {b : β}
    (h : bind m f s = some (.ok b, s'')) :
    ∃ a s', m s = some (.ok a, s') ∧ f a s' = some (.ok b, s'') := by
  obtain ⟨err, -, herr⟩ | hok := bind_eq_some h
  · contradiction
  · exact hok

def Preserves (I : σ → Prop) (m : Computation σ ε α) : Prop :=
  ∀ s result s', I s → m s = some (result, s') → I s'

namespace Preserves

variable {I : σ → Prop}

theorem pure (a : α) : Preserves I (@Computation.pure _ ε _ a) := by
  intro s result s' hs h
  cases h
  exact hs

theorem bail (err : ε) : Preserves I (@Computation.bail _ _ α err) := by
  intro s result s' hs h
  cases h
  exact hs

theorem bind {m : Computation σ ε α} {f : α → Computation σ ε β} (h : Preserves I m)
    (h' : ∀ a, Preserves I (f a)) : Preserves I (Computation.bind m f) := by
  intro s result s'' hs hrun
  obtain ⟨err, hm, rfl⟩ | ⟨a, s', hm, hf⟩ := bind_eq_some hrun
  · exact h s _ s'' hs hm
  · exact h' a s' result s'' (h s _ s' hs hm) hf

end Preserves

/-- Where the first computation ends in an allowed state, it started in one,
and from related states the second has the same result and ends in a related
state. -/
def Simulates (R : σ → τ → Prop) (Allowed : σ → Prop) (m : Computation σ ε α)
    (m' : Computation τ ε α) : Prop :=
  ∀ s result s', m s = some (result, s') → Allowed s' →
    Allowed s ∧ ∀ t, R s t → ∃ t', m' t = some (result, t') ∧ R s' t'

namespace Simulates

variable {R : σ → τ → Prop} {Allowed : σ → Prop}

theorem pure (a : α) :
    Simulates R Allowed (@Computation.pure _ ε _ a) (Computation.pure a) := by
  intro s result s' h hallowed
  cases h
  exact ⟨hallowed, fun t ht => ⟨t, rfl, ht⟩⟩

theorem bail (err : ε) :
    Simulates R Allowed (@Computation.bail _ _ α err) (Computation.bail err) := by
  intro s result s' h hallowed
  cases h
  exact ⟨hallowed, fun t ht => ⟨t, rfl, ht⟩⟩

theorem none (m' : Computation τ ε α) : Simulates R Allowed (fun _ => Option.none) m' := by
  intro s result s' h
  contradiction

theorem bind {m : Computation σ ε α} {m' : Computation τ ε α} {f : α → Computation σ ε β}
    {f' : α → Computation τ ε β} (h : Simulates R Allowed m m')
    (h' : ∀ a, Simulates R Allowed (f a) (f' a)) :
    Simulates R Allowed (Computation.bind m f) (Computation.bind m' f') := by
  intro s result s'' hrun hallowed
  obtain ⟨err, hm, rfl⟩ | ⟨a, s', hm, hf⟩ := bind_eq_some hrun
  · obtain ⟨hstart, hsim⟩ := h s _ s'' hm hallowed
    refine ⟨hstart, fun t ht => ?_⟩
    obtain ⟨t'', hm', hend⟩ := hsim t ht
    exact ⟨t'', bind_of_error hm', hend⟩
  · obtain ⟨hmiddle, hsim'⟩ := h' a s' result s'' hf hallowed
    obtain ⟨hstart, hsim⟩ := h s _ s' hm hmiddle
    refine ⟨hstart, fun t ht => ?_⟩
    obtain ⟨t', hm', hrelated⟩ := hsim t ht
    obtain ⟨t'', hf', hend⟩ := hsim' t' hrelated
    exact ⟨t'', (bind_of_ok hm').trans hf', hend⟩

end Simulates

end Computation

end Yans.Library.Computations
