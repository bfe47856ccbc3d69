import Mathlib.Tactic.Common

/-! The states that runs of a step relation lead to, the rule that lifts an
invariant from one step to every run, and runs that go on for ever. -/
namespace Yans.Library.Runs

variable {State Event : Type*}

/-- Runs that start in an initial state and in which every event is allowed in
the state it happens in. -/
inductive Reachable (initial : State → Prop) (allowed : State → Event → Prop)
    (step : State → Event → State → Prop) : State → Prop where
  | initial {s : State} (hinitial : initial s) : Reachable initial allowed step s
  | step {before after : State} {event : Event} (hbefore : Reachable initial allowed step before)
      (hallowed : allowed before event) (hstep : step before event after) :
      Reachable initial allowed step after

variable {initial : State → Prop} {allowed stricter : State → Event → Prop}
  {step : State → Event → State → Prop}

theorem Reachable.invariant {Holds : State → Prop} (hinitial : ∀ s, initial s → Holds s)
    (hstep : ∀ before event after, Holds before → allowed before event →
      step before event after → Holds after)
    {s : State} (h : Reachable initial allowed step s) : Holds s := by
  induction h with
  | initial hs => exact hinitial _ hs
  | step _ hallowed hnext ih => exact hstep _ _ _ ih hallowed hnext

theorem Reachable.relax (hrelax : ∀ s event, stricter s event → allowed s event) {s : State}
    (h : Reachable initial stricter step s) : Reachable initial allowed step s := by
  induction h with
  | initial hs => exact .initial hs
  | step _ hallowed hnext ih => exact .step ih (hrelax _ _ hallowed) hnext

theorem Reachable.foldlM_of {next : State → Event → Option State} {events : List Event}
    (hnext : ∀ event ∈ events, ∀ s after, next s event = some after →
      allowed s event ∧ step s event after)
    {s after : State} (h : Reachable initial allowed step s)
    (hrun : events.foldlM next s = some after) : Reachable initial allowed step after := by
  induction events generalizing s with
  | nil =>
    cases hrun
    exact h
  | cons event events ih =>
    obtain ⟨mid, hmid, hrest⟩ := Option.bind_eq_some_iff.mp hrun
    obtain ⟨hallowed, hstep⟩ := hnext event List.mem_cons_self _ _ hmid
    refine ih (fun other hother => hnext other (List.mem_cons_of_mem _ hother)) ?_ hrest
    exact .step h hallowed hstep

theorem Reachable.foldlM {next : State → Event → Option State}
    (hnext : ∀ s event after, next s event = some after → step s event after)
    {events : List Event} (hallowed : ∀ event ∈ events, ∀ s, allowed s event) {s after : State}
    (h : Reachable initial allowed step s) (hrun : events.foldlM next s = some after) :
    Reachable initial allowed step after := by
  refine h.foldlM_of ?_ hrun
  intro event hevent s after hsome
  exact ⟨hallowed event hevent s, hnext s event after hsome⟩

/-! Runs that go on for ever, and the times of what happens in them -/

structure Endless (initial : State → Prop) (allowed : State → Event → Prop)
    (step : State → Event → State → Prop) where
  state : ℕ → State
  event : ℕ → Event
  start : initial (state 0)
  allows : ∀ time, allowed (state time) (event time)
  steps : ∀ time, step (state time) (event time) (state (time + 1))

theorem Endless.reachable (run : Endless initial allowed step) (time : ℕ) :
    Reachable initial allowed step (run.state time) := by
  induction time with
  | zero => exact .initial run.start
  | succ time ih => exact .step ih (run.allows time) (run.steps time)

def Endless.cons {before after : State} {event : Event} (hallowed : allowed before event)
    (hstep : step before event after) (run : Endless (· = after) allowed step) :
    Endless (· = before) allowed step where
  state
    | 0 => before
    | time + 1 => run.state time
  event
    | 0 => event
    | time + 1 => run.event time
  start := rfl
  allows
    | 0 => hallowed
    | time + 1 => run.allows time
  steps
    | 0 => by simpa only [run.start] using hstep
    | time + 1 => run.steps time

theorem Reachable.endless {s : State} (h : Reachable initial allowed step s)
    (rest : Endless (· = s) allowed step) :
    ∃ (run : Endless initial allowed step) (length : ℕ),
      ∀ time, run.state (time + length) = rest.state time ∧
        run.event (time + length) = rest.event time := by
  induction h with
  | @initial s hinitial =>
    refine ⟨{ rest with start := ?_ }, 0, fun time => ⟨rfl, rfl⟩⟩
    rw [rest.start]
    exact hinitial
  | step _ hallowed hstep ih =>
    obtain ⟨run, length, hrun⟩ := ih (rest.cons hallowed hstep)
    refine ⟨run, length + 1, fun time => ?_⟩
    rw [← Nat.add_assoc, Nat.add_right_comm]
    exact hrun (time + 1)

def WeaklyFair (enabled occurs : ℕ → Prop) : Prop :=
  ∀ start, (∀ time ≥ start, enabled time) → ∃ time ≥ start, occurs time

theorem eventually_of_falls {Measured : ℕ → ℕ → Prop} {Goal : ℕ → Prop}
    (hfalls : ∀ start m, Measured start m →
      ∃ time ≥ start, Goal time ∨ ∃ less < m, Measured time less) {start m : ℕ}
    (h : Measured start m) : ∃ time ≥ start, Goal time := by
  induction m using Nat.strongRecOn generalizing start with
  | ind m ih =>
    obtain ⟨time, htime, hgoal | ⟨less, hless, hmeasured⟩⟩ := hfalls start m h
    · exact ⟨time, htime, hgoal⟩
    · obtain ⟨last, hlast, hgoal⟩ := ih less hless hmeasured
      exact ⟨last, Nat.le_trans htime hlast, hgoal⟩

end Yans.Library.Runs
