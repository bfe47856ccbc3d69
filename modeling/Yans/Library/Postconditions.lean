import Mathlib.Tactic.Common

/-! Postconditions of computations that may end in a fault: what holds of the
result, and which faults are allowed. -/
namespace Yans.Library.Postconditions

variable {Fault Event α β : Type} {allowed : Fault → Prop} {Holds Holds' : α → Prop}

def Ends (allowed : Fault → Prop) (Holds : α → Prop) : Except Fault α → Prop
  | .ok a => Holds a
  | .error fault => allowed fault

variable {x : Except Fault α}

theorem Ends.mono (h : Ends allowed Holds x)
    (himp : ∀ a, Holds a → Holds' a) : Ends allowed Holds' x := by
  cases x with
  | ok a => exact himp a h
  | error fault => exact h

theorem Ends.bind {Then : β → Prop} {f : α → Except Fault β}
    (h : Ends allowed Holds x) (hnext : ∀ a, Holds a → Ends allowed Then (f a)) :
    Ends allowed Then (x >>= f) := by
  cases x with
  | ok a => exact hnext a h
  | error fault => exact h

/-- What every step keeps holds behind all of them. The induction is on the
events. -/
theorem Ends.foldlM {step : α → Event → Except Fault α} {events : List Event}
    (hstep : ∀ a, ∀ event ∈ events, Holds a → Ends allowed Holds (step a event)) {a : α}
    (h : Holds a) : Ends allowed Holds (events.foldlM step a) := by
  induction events generalizing a with
  | nil => exact h
  | cons event events ih =>
    rw [List.foldlM_cons]
    exact Ends.bind (hstep a event List.mem_cons_self h) fun _ hnext =>
      ih (fun a other hother => hstep a other (List.mem_cons_of_mem _ hother)) hnext

theorem Ends.of_ok (h : Ends allowed Holds x) {a : α} (heq : x = .ok a) :
    Holds a := by
  subst heq
  exact h

theorem Ends.of_error (h : Ends allowed Holds x) {fault : Fault}
    (heq : x = .error fault) : allowed fault := by
  subst heq
  exact h

/-- A fault behind several events is the fault of one of them. The induction is
on the events. -/
theorem foldlM_eq_error_iff {step : α → Event → Except Fault α} {events : List Event} {a : α}
    {fault : Fault} : events.foldlM step a = .error fault ↔
      ∃ before event later b, events = before ++ event :: later ∧
        before.foldlM step a = .ok b ∧ step b event = .error fault := by
  constructor
  · intro h
    induction events generalizing a with
    | nil => cases h
    | cons event events ih =>
      rw [List.foldlM_cons] at h
      cases hfirst : step a event with
      | error other =>
        rw [hfirst] at h
        exact ⟨[], event, events, a, rfl, rfl, hfirst.trans h⟩
      | ok b =>
        rw [hfirst] at h
        obtain ⟨before, other, later, c, rfl, hbefore, hother⟩ := ih h
        refine ⟨event :: before, other, later, c, rfl, ?_, hother⟩
        rw [List.foldlM_cons, hfirst]
        exact hbefore
  · rintro ⟨before, event, later, b, rfl, hbefore, hevent⟩
    rw [List.foldlM_append, hbefore]
    exact congrArg (fun x : Except Fault α => x >>= fun b => later.foldlM step b) hevent

end Yans.Library.Postconditions
