import Mathlib.Data.Finset.Basic
import Mathlib.Data.Finset.Lattice.Lemmas
import Yans.Library.Runs

/-! `lib/util/eds.c`: exited children in the main loop. A child may exit at any
point of the loop's code, and the handler of its signal runs right there. A
child is a number that is not used again. -/
namespace Yans.Util.EdsChildren

open Library.Runs

/-- The points of the loop's code, each right before what it is named after. -/
inductive Point where
  | modInit
  /-- The label `select`. -/
  | stoppedTest
  | sigchldTest
  | waitpid
  | onSvcReapedChild (child : ℕ)
  /-- Also the callbacks of the clients. -/
  | callbacks
  | eintrTest (interrupted : Bool)
  | clear
  | select
  /-- From the return of `select` to the label. -/
  | serve
  | returned
deriving DecidableEq

structure State where
  point : Point
  gotListenerSigchld : Bool
  running : Finset ℕ
  /-- Exited and not yet waited for. -/
  zombies : Finset ℕ
  /-- Those that `on_svc_reaped_child` was called with. -/
  reported : Finset ℕ
  exited : Finset ℕ
  /-- Those that had exited when the flag was last tested. -/
  exitedAtTest : Finset ℕ

inductive Outcome where
  | proceed
  | stop
  | interrupt
  | child (child : ℕ)
deriving DecidableEq

inductive Event where
  | loop (outcome : Outcome)
  | fork (child : ℕ)
  | exit (child : ℕ)
deriving DecidableEq

def handleListenerSigchld (s : State) : State := { s with gotListenerSigchld := true }

/-- The loop of `reap_listener_children` and the clearing behind it. -/
def reapListenerChildren (s : State) : Outcome → Option State
  | .child child =>
    if s.point = .waitpid ∧ child ∈ s.zombies then
      some { s with point := .onSvcReapedChild child, zombies := s.zombies.erase child }
    else none
  | .interrupt => if s.point = .waitpid then some { s with point := .eintrTest true } else none
  | .stop => none
  | .proceed =>
    match s.point with
    | .waitpid => if s.zombies = ∅ then some { s with point := .eintrTest false } else none
    | .onSvcReapedChild child =>
      some { s with point := .callbacks, reported := insert child s.reported }
    | .callbacks => some { s with point := .waitpid }
    | .eintrTest interrupted =>
      some { s with point := if interrupted then .waitpid else .clear }
    | .clear => some { s with point := .select, gotListenerSigchld := false }
    | _ => none

def edsServeSingleMainloop (s : State) (outcome : Outcome) : Option State :=
  match s.point, outcome with
  | .modInit, .proceed => some { s with point := .stoppedTest }
  | .modInit, .stop => some { s with point := .returned }
  | .stoppedTest, .proceed => some { s with point := .sigchldTest }
  | .stoppedTest, .stop => some { s with point := .returned }
  | .sigchldTest, .proceed =>
    some
      { s with
        point := if s.gotListenerSigchld then .waitpid else .select
        exitedAtTest := s.exited }
  | .select, .proceed => some { s with point := .serve }
  | .select, .interrupt => some { s with point := .stoppedTest }
  | .select, .stop => some { s with point := .returned }
  | .serve, .proceed => some { s with point := .stoppedTest }
  | .serve, .stop => some { s with point := .returned }
  | .modInit, _ | .stoppedTest, _ | .sigchldTest, _ | .select, _ | .serve, _ => none
  | _, outcome => reapListenerChildren s outcome

def Forks (point : Point) : Prop := point = .modInit ∨ point = .callbacks ∨ point = .serve

instance : DecidablePred Forks := fun _ => inferInstanceAs (Decidable (_ ∨ _))

def step (s : State) : Event → Option State
  | .loop outcome => edsServeSingleMainloop s outcome
  | .fork child =>
    if Forks s.point ∧ child ∉ s.running ∪ s.exited then
      some { s with running := insert child s.running }
    else none
  | .exit child =>
    if child ∈ s.running then
      some (handleListenerSigchld
        { s with
          running := s.running.erase child
          zombies := insert child s.zombies
          exited := insert child s.exited })
    else none

def init : State := ⟨.modInit, false, ∅, ∅, ∅, ∅, ∅⟩

abbrev Run (allowed : State → Event → Prop) (s : State) : Prop :=
  Reachable (· = init) allowed (fun s event s' => step s event = some s') s

/-- Right before `select`, the flag is set or no child is left over that had
exited when the flag was tested. -/
def Remembers (s : State) : Prop :=
  s.point = .select → s.gotListenerSigchld = true ∨ s.exitedAtTest ⊆ s.reported

/-- Between the last `waitpid` and the clearing of the flag. -/
def Window (point : Point) : Prop := point = .eintrTest false ∨ point = .clear

instance : DecidablePred Window := fun _ => inferInstanceAs (Decidable (_ ∨ _))

def Outside (s : State) (event : Event) : Prop := ∀ child, event = .exit child → ¬ Window s.point

def pending : Point → Finset ℕ
  | .onSvcReapedChild child => {child}
  | _ => ∅

structure Kept (s : State) : Prop where
  exited_subset : s.exited ⊆ s.zombies ∪ s.reported ∪ pending s.point
  atTest_subset : s.exitedAtTest ⊆ s.exited
  flag_set : s.zombies = ∅ ∨ s.gotListenerSigchld = true
  window_empty : Window s.point → s.zombies = ∅

theorem kept_init : Kept init where
  exited_subset := Finset.empty_subset _
  atTest_subset := Finset.empty_subset _
  flag_set := Or.inl rfl
  window_empty := fun _ => rfl

variable {s : State}

theorem Kept.goto (h : Kept s) {point : Point} (hpending : pending s.point = ∅)
    (hwindow : Window point → s.zombies = ∅) : Kept { s with point := point } where
  exited_subset := by
    have hsubset := h.exited_subset
    rw [hpending, Finset.union_empty] at hsubset
    exact hsubset.trans Finset.subset_union_left
  atTest_subset := h.atTest_subset
  flag_set := h.flag_set
  window_empty := hwindow

variable {s' : State} {outcome : Outcome}

theorem Kept.reapListenerChildren (h : Kept s)
    (hstep : reapListenerChildren s outcome = some s') : Kept s' := by
  cases outcome with
  | stop => cases hstep
  | interrupt =>
    simp only [EdsChildren.reapListenerChildren] at hstep
    split at hstep
    · rename_i hpoint
      cases hstep
      exact h.goto (by rw [hpoint]; rfl) (by simp [Window])
    · cases hstep
  | child child =>
    simp only [EdsChildren.reapListenerChildren] at hstep
    split at hstep
    · rename_i hwaited
      obtain ⟨hpoint, hchild⟩ := hwaited
      cases hstep
      constructor
      · intro other hother
        have hold := h.exited_subset hother
        rw [hpoint] at hold
        by_cases heq : other = child
        · exact Finset.mem_union_right _ (Finset.mem_singleton.mpr heq)
        · simp only [pending, Finset.union_empty, Finset.mem_union] at hold
          simp only [Finset.mem_union, Finset.mem_erase]
          exact Or.inl (hold.imp_left fun hmem => ⟨heq, hmem⟩)
      · exact h.atTest_subset
      · refine h.flag_set.imp_left fun hempty => ?_
        rw [hempty] at hchild
        exact absurd hchild (Finset.notMem_empty child)
      · simp [Window]
    · cases hstep
  | proceed =>
    simp only [EdsChildren.reapListenerChildren] at hstep
    split at hstep
    · rename_i hpoint
      split at hstep
      · rename_i hempty
        cases hstep
        exact h.goto (by rw [hpoint]; rfl) fun _ => hempty
      · cases hstep
    · rename_i child hpoint
      cases hstep
      constructor
      · intro other hother
        have hold := h.exited_subset hother
        rw [hpoint] at hold
        simp only [pending, Finset.mem_union, Finset.mem_singleton] at hold
        simp only [Finset.mem_union, Finset.mem_insert]
        exact Or.inl (or_assoc.mp hold |>.imp_right Or.symm)
      · exact h.atTest_subset
      · exact h.flag_set
      · simp [Window]
    · rename_i hpoint
      cases hstep
      exact h.goto (by rw [hpoint]; rfl) (by simp [Window])
    · rename_i interrupted hpoint
      cases hstep
      cases interrupted with
      | true => exact h.goto (by rw [hpoint]; rfl) (by simp [Window])
      | false => exact h.goto (by rw [hpoint]; rfl) fun _ => h.window_empty (Or.inl hpoint)
    · rename_i hpoint
      cases hstep
      have hempty := h.window_empty (Or.inr hpoint)
      have hmoved : Kept { s with point := .select } :=
        h.goto (by rw [hpoint]; rfl) (by simp [Window])
      exact ⟨hmoved.exited_subset, hmoved.atTest_subset, Or.inl hempty, hmoved.window_empty⟩
    · cases hstep

theorem edsServeSingleMainloop_cases (hstep : edsServeSingleMainloop s outcome = some s') :
    reapListenerChildren s outcome = some s' ∨
    s.point = .sigchldTest ∧ s' =
      { s with
        point := if s.gotListenerSigchld then .waitpid else .select
        exitedAtTest := s.exited } ∨
    pending s.point = ∅ ∧ ∃ point, ¬ Window point ∧ pending point = ∅ ∧
      s' = { s with point := point } := by
  unfold edsServeSingleMainloop at hstep
  split at hstep
  case h_5 hpoint =>
    cases hstep
    exact Or.inr (Or.inl ⟨hpoint, rfl⟩)
  case h_16 => exact Or.inl hstep
  -- the other points have one successor for each outcome, or none
  all_goals first
    | cases hstep; done
    | rename_i hpoint
      cases hstep
      exact Or.inr (Or.inr ⟨by rw [hpoint]; rfl, _, by simp [Window], rfl, rfl⟩)

theorem Kept.edsServeSingleMainloop (h : Kept s)
    (hstep : edsServeSingleMainloop s outcome = some s') : Kept s' := by
  obtain hreap | ⟨hpoint, rfl⟩ | ⟨hpending, point, hwindow, -, rfl⟩ :=
    edsServeSingleMainloop_cases hstep
  · exact h.reapListenerChildren hreap
  · have hnext : ¬ Window (if s.gotListenerSigchld then .waitpid else .select) := by
      split <;> simp [Window]
    have hmoved := h.goto (by rw [hpoint]; rfl) fun hwindow => absurd hwindow hnext
    exact ⟨hmoved.exited_subset, Finset.Subset.refl _, hmoved.flag_set, hmoved.window_empty⟩
  · exact h.goto hpending fun hwindow' => absurd hwindow' hwindow

theorem Kept.step {event : Event} (h : Kept s) (houtside : Outside s event)
    (hstep : step s event = some s') : Kept s' := by
  cases event with
  | loop outcome => exact h.edsServeSingleMainloop hstep
  | fork child =>
    simp only [EdsChildren.step] at hstep
    split at hstep
    · cases hstep
      exact ⟨h.exited_subset, h.atTest_subset, h.flag_set, h.window_empty⟩
    · cases hstep
  | exit child =>
    simp only [EdsChildren.step] at hstep
    split at hstep
    · cases hstep
      constructor
      · intro other hother
        simp only [handleListenerSigchld, Finset.mem_union, Finset.mem_insert] at hother ⊢
        cases hother with
        | inl hnew => exact Or.inl (Or.inl (Or.inl hnew))
        | inr hold =>
          have hmem := h.exited_subset hold
          simp only [Finset.mem_union] at hmem
          exact hmem.imp_left fun hmem => hmem.imp_left Or.inr
      · exact h.atTest_subset.trans (Finset.subset_insert child s.exited)
      · exact Or.inr rfl
      · exact fun hwindow => absurd hwindow (houtside child rfl)
    · cases hstep

theorem Kept.remembers (h : Kept s) : Remembers s := by
  intro hpoint
  refine h.flag_set.symm.imp_right fun hempty => h.atTest_subset.trans ?_
  have hsubset := h.exited_subset
  have hpending : pending .select = ∅ := rfl
  rwa [hempty, hpoint, hpending, Finset.union_empty, Finset.empty_union] at hsubset

/-- Whether the signal comes in time or not, a child exits once and is reported
after that. -/
structure Once (s : State) : Prop where
  running_exited : ∀ child ∈ s.running, child ∉ s.exited
  zombies_subset : s.zombies ⊆ s.exited
  reported_subset : s.reported ⊆ s.exited
  pending_subset : pending s.point ⊆ s.exited

theorem once_init : Once init where
  running_exited := by simp [init]
  zombies_subset := Finset.empty_subset _
  reported_subset := Finset.empty_subset _
  pending_subset := Finset.empty_subset _

theorem Once.goto (h : Once s) {point : Point} (hpending : pending point ⊆ s.exited) :
    Once { s with point := point } :=
  ⟨h.running_exited, h.zombies_subset, h.reported_subset, hpending⟩

theorem Once.reapListenerChildren (h : Once s)
    (hstep : reapListenerChildren s outcome = some s') : Once s' := by
  have hempty : ∅ ⊆ s.exited := Finset.empty_subset _
  cases outcome with
  | stop => cases hstep
  | interrupt =>
    simp only [EdsChildren.reapListenerChildren] at hstep
    split at hstep
    · cases hstep
      exact h.goto hempty
    · cases hstep
  | child child =>
    simp only [EdsChildren.reapListenerChildren] at hstep
    split at hstep
    · rename_i hwaited
      cases hstep
      have hchild := h.zombies_subset hwaited.2
      exact ⟨h.running_exited, (Finset.erase_subset child s.zombies).trans h.zombies_subset,
        h.reported_subset, Finset.singleton_subset_iff.mpr hchild⟩
    · cases hstep
  | proceed =>
    simp only [EdsChildren.reapListenerChildren] at hstep
    split at hstep
    · split at hstep
      · cases hstep
        exact h.goto hempty
      · cases hstep
    · rename_i child hpoint
      cases hstep
      have hchild : child ∈ s.exited := by
        apply h.pending_subset
        rw [hpoint]
        exact Finset.mem_singleton_self child
      exact ⟨h.running_exited, h.zombies_subset,
        Finset.insert_subset hchild h.reported_subset, hempty⟩
    · cases hstep
      exact h.goto hempty
    · rename_i interrupted hpoint
      cases hstep
      cases interrupted <;> exact h.goto hempty
    · cases hstep
      exact ⟨h.running_exited, h.zombies_subset, h.reported_subset, hempty⟩
    · cases hstep

theorem Once.step {event : Event} (h : Once s) (hstep : step s event = some s') :
    Once s' := by
  cases event with
  | loop outcome =>
    obtain hreap | ⟨-, rfl⟩ | ⟨-, point, -, hpending, rfl⟩ := edsServeSingleMainloop_cases hstep
    · exact h.reapListenerChildren hreap
    · refine ⟨h.running_exited, h.zombies_subset, h.reported_subset, ?_⟩
      dsimp only
      split <;> exact Finset.empty_subset _
    · exact h.goto (hpending ▸ Finset.empty_subset _)
  | fork child =>
    simp only [EdsChildren.step] at hstep
    split at hstep
    · rename_i hfork
      cases hstep
      refine ⟨?_, h.zombies_subset, h.reported_subset, h.pending_subset⟩
      intro other hother
      cases Finset.mem_insert.mp hother with
      | inl hnew =>
        rw [hnew]
        exact fun hexited => hfork.2 (Finset.mem_union_right _ hexited)
      | inr hold => exact h.running_exited other hold
    · cases hstep
  | exit child =>
    simp only [EdsChildren.step] at hstep
    split at hstep
    · cases hstep
      have hmore := Finset.subset_insert child s.exited
      constructor
      · intro other hother
        obtain ⟨hne, hrunning⟩ := Finset.mem_erase.mp hother
        simp only [handleListenerSigchld, Finset.mem_insert, not_or]
        exact ⟨hne, h.running_exited other hrunning⟩
      · exact Finset.insert_subset_insert child h.zombies_subset
      · exact h.reported_subset.trans hmore
      · exact h.pending_subset.trans hmore
    · cases hstep

theorem forgets {child : ℕ} (hwindow : Window s.point) (hexited : child ∈ s.exited)
    (hmissing : child ∉ s.reported) :
    ∃ (events : List Event) (after : State), events.foldlM step s = some after ∧
      ¬ Remembers after := by
  have hforgot : ¬ Remembers
      { s with point := .select, gotListenerSigchld := false, exitedAtTest := s.exited } := by
    intro hremembers
    cases hremembers rfl with
    | inl hflag => cases hflag
    | inr hsubset => exact hmissing (hsubset hexited)
  obtain ⟨point, flag, running, zombies, reported, exited, atTest⟩ := s
  cases hwindow with
  | inl hpoint =>
    obtain rfl : point = .eintrTest false := hpoint
    exact ⟨List.replicate 6 (.loop .proceed), _, rfl, hforgot⟩
  | inr hpoint =>
    obtain rfl : point = .clear := hpoint
    exact ⟨List.replicate 5 (.loop .proceed), _, rfl, hforgot⟩

def sampleEvents : List Event :=
  [.loop .proceed, .loop .proceed, .loop .proceed, .loop .proceed, .fork 0, .fork 1,
    .loop .proceed, .exit 0, .loop .proceed, .loop .proceed, .loop (.child 0), .loop .proceed,
    .loop .proceed, .loop .proceed]

/-- The second child exits after the last `waitpid` and before the flag is
cleared. -/
theorem child_forgotten :
    ∃ s, Run (fun _ _ => True) s ∧ s.point = .select ∧ s.gotListenerSigchld = false ∧
      1 ∈ s.exitedAtTest ∧ 1 ∉ s.reported := by
  have hview : ((sampleEvents ++ .exit 1 :: List.replicate 6 (Event.loop .proceed)).foldlM step
      init).map (fun s : State => (s.point, s.gotListenerSigchld, decide (1 ∈ s.exitedAtTest),
        decide (1 ∈ s.reported))) = some (.select, false, true, false) := by decide
  obtain ⟨s, hrun, hs⟩ := Option.map_eq_some_iff.mp hview
  simp only [Prod.mk.injEq, decide_eq_true_iff, decide_eq_false_iff_not] at hs
  exact ⟨s, .foldlM (fun _ _ _ h => h) (fun _ _ _ => trivial) (.initial rfl) hrun, hs⟩

/-- Nothing is forgotten as long as no child exits between the last `waitpid`
and the clearing of the flag; after each exit there the loop may come to a
`select` where it is forgotten. -/
theorem remembers_outside_window {s : State} :
    (Run Outside s → Remembers s) ∧
    ∀ s' child, Run (fun _ _ => True) s → Window s.point → step s (.exit child) = some s' →
      ∃ (events : List Event) (after : State), events.foldlM step s' = some after ∧
        ¬ Remembers after := by
  constructor
  · intro hreach
    apply Kept.remembers
    apply hreach.invariant
    · rintro s rfl
      exact kept_init
    · exact fun s event s' h houtside hstep => h.step houtside hstep
  · intro s' child hreach hwindow hstep
    have honce : Once s := by
      apply hreach.invariant
      · rintro s rfl
        exact once_init
      · exact fun s event s' h _ hstep => h.step hstep
    simp only [step] at hstep
    split at hstep
    · rename_i hrunning
      cases hstep
      have hmissing : child ∉ s.reported := fun hreported =>
        honce.running_exited child hrunning (honce.reported_subset hreported)
      exact forgets hwindow (Finset.mem_insert_self child s.exited) hmissing
    · cases hstep

/-- The run without the second exit, and what follows from it. -/
theorem remembers_outside_window_sample :
    ∃ s s', sampleEvents.foldlM step init = some s ∧ step s (.exit 1) = some s' ∧
      (∃ (events : List Event) (after : State), events.foldlM step s' = some after ∧
        ¬ Remembers after) ∧
      Remembers init := by
  have hview : (sampleEvents.foldlM step init).map (fun s : State => (s.point, (step s (.exit 1)).isSome)) =
      some (.eintrTest false, true) := by decide
  obtain ⟨s, hrun, hs⟩ := Option.map_eq_some_iff.mp hview
  obtain ⟨hpoint, hexits⟩ := Prod.mk.inj hs
  obtain ⟨s', hexit⟩ := Option.isSome_iff_exists.mp hexits
  have hreach : Run (fun _ _ => True) s :=
    .foldlM (fun _ _ _ h => h) (fun _ _ _ => trivial) (.initial rfl) hrun
  exact ⟨s, s', hrun, hexit, remembers_outside_window.2 s' 1 hreach (Or.inl hpoint) hexit,
    remembers_outside_window.1 (.initial rfl)⟩

end Yans.Util.EdsChildren
