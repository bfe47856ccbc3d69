import Yans.Library.Runs
import Yans.Util.Eds
import Mathlib.Data.List.Count

/-! `reap_listener_children` of `lib/util/eds.c`: what the clients of a service
learn about reaped children. The callbacks take note of the child; they add and
remove no clients. -/
namespace Yans.Util.EdsReaped

open Eds Library.Runs

structure Child where
  pid : ℕ
  status : ℤ
deriving DecidableEq

/-- What one `waitpid` finds; the list of them ends where it finds no child. -/
inductive WaitEvent where
  | reaped (child : Child)
  | interrupted
deriving DecidableEq

structure ReapActions where
  onSvcReapedChild : Bool
  onCliReapedChild : Bool

inductive Call where
  | onSvcReapedChild (child : Child)
  | onCliReapedChild (child : Child) (fd : ℕ)
deriving DecidableEq

/-- The loop over the slots below `maxfd`. -/
def callClients (l : Listener) (child : Child) : List Call :=
  (List.range l.maxfd).flatMap fun fd =>
    if (l.cdata fd).inUse then [.onCliReapedChild child fd] else []

def reapListenerChildren (actions : ReapActions) (l : Listener) : List WaitEvent → List Call
  | [] => []
  | .interrupted :: events => reapListenerChildren actions l events
  | .reaped child :: events =>
    (if actions.onSvcReapedChild then [.onSvcReapedChild child] else []) ++
      (if actions.onCliReapedChild then callClients l child else []) ++
        reapListenerChildren actions l events

inductive SlotEvent where
  | add (fd : ℕ)
  | remove (fd : ℕ)
deriving DecidableEq

def slotStep (svc : EdsService) (l : Listener) : SlotEvent → Listener
  | .add fd => edsServiceAddClient svc l fd
  | .remove fd => edsServiceRemoveClient svc l fd

abbrev Run (svc : EdsService) (l : Listener) : Prop :=
  Reachable (fun l => ∃ opened, l = Listener.init svc opened) (fun _ _ => True)
    (fun l event l' => slotStep svc l event = l') l

/-- Every client in use is called once for each time that the child is reaped,
and no other slot is. -/
def EveryClient (l : Listener) (events : List WaitEvent) (calls : List Call) : Prop :=
  ∀ child fd, calls.count (.onCliReapedChild child fd) =
    if (l.cdata fd).inUse then events.count (.reaped child) else 0

theorem maxfd_add (svc : EdsService) (l : Listener) (fd : ℕ) :
    (edsServiceAddClient svc l fd).maxfd = max l.maxfd fd := by
  simp only [edsServiceAddClient]
  split <;> omega

theorem maxfd_remove (svc : EdsService) (l : Listener) (fd : ℕ) :
    (edsServiceRemoveClient svc l fd).maxfd = l.maxfd := by
  unfold edsServiceRemoveClient
  split <;> rfl

variable {svc : EdsService} {l : Listener}

theorem inUse_of_remove {removed fd : ℕ}
    (h : ((edsServiceRemoveClient svc l removed).cdata fd).inUse = true) :
    (l.cdata fd).inUse = true := by
  unfold edsServiceRemoveClient at h
  split at h
  · exact h
  · dsimp only at h
    by_cases heq : fd = removed
    · rw [heq, Function.update_self] at h
      cases h
    · rwa [Function.update_of_ne heq] at h

theorem Run.foldl (h : Run svc l) (events : List SlotEvent) :
    Run svc (events.foldl (slotStep svc) l) := by
  induction events generalizing l with
  | nil => exact h
  | cons event events ih => exact ih (.step h trivial rfl)

theorem Run.le_maxfd (h : Run svc l) :
    ∀ fd, (l.cdata fd).inUse = true → fd ≤ l.maxfd := by
  apply h.invariant
  · rintro l ⟨opened, rfl⟩ fd hfd
    cases hfd
  · rintro l event l' hle - rfl fd hfd
    cases event with
    | add added =>
      rw [slotStep, maxfd_add]
      by_cases heq : fd = added
      · rw [heq]
        exact le_max_right _ _
      · simp only [slotStep, edsServiceAddClient, Function.update_of_ne heq] at hfd
        exact le_max_of_le_left (hle fd hfd)
    | remove removed =>
      rw [slotStep, maxfd_remove]
      exact hle fd (inUse_of_remove hfd)

theorem count_callClients (l : Listener) (child other : Child) (fd : ℕ) :
    (callClients l other).count (.onCliReapedChild child fd) =
      if other = child ∧ fd < l.maxfd ∧ (l.cdata fd).inUse then 1 else 0 := by
  unfold callClients
  generalize l.maxfd = bound
  induction bound with
  | zero => simp
  | succ bound ih =>
    rw [List.range_succ, List.flatMap_append, List.count_append, ih, List.flatMap_singleton]
    by_cases heq : fd = bound
    · subst heq
      by_cases hin : (l.cdata fd).inUse = true
      · simp [hin, List.count_singleton]
      · simp [hin]
    · have hlast : (if (l.cdata bound).inUse then [Call.onCliReapedChild other bound] else []).count
          (.onCliReapedChild child fd) = 0 := by
        apply List.count_eq_zero_of_not_mem
        split
        · simp [heq]
        · exact List.not_mem_nil
      have hlt : fd < bound + 1 ↔ fd < bound := by omega
      rw [hlast, Nat.add_zero]
      simp only [hlt]

/-- What the whole function calls. The induction is on what `waitpid` finds. -/
theorem count_reapListenerChildren {actions : ReapActions}
    (hactions : actions.onCliReapedChild = true) (l : Listener) (child : Child) (fd : ℕ) (events : List WaitEvent) :
    (reapListenerChildren actions l events).count (.onCliReapedChild child fd) =
      if fd < l.maxfd ∧ (l.cdata fd).inUse then events.count (.reaped child) else 0 := by
  induction events with
  | nil => simp [reapListenerChildren]
  | cons event events ih =>
    cases event with
    | interrupted =>
      rw [reapListenerChildren, ih, List.count_cons_of_ne (fun h => by cases h)]
    | reaped other =>
      have hsvc : (if actions.onSvcReapedChild then [Call.onSvcReapedChild other] else []).count
          (.onCliReapedChild child fd) = 0 := by
        apply List.count_eq_zero_of_not_mem
        split <;> simp
      rw [reapListenerChildren, if_pos hactions, List.count_append, List.count_append, hsvc, ih,
        count_callClients, List.count_cons]
      by_cases hcalled : fd < l.maxfd ∧ (l.cdata fd).inUse
      · by_cases heq : other = child <;> simp [hcalled, heq, Nat.add_comm]
      · simp [hcalled]

/-- The loop leaves out the slot `maxfd`, the highest that ever was in use: all
clients learn about reaped children if and only if that slot is free. -/
theorem reaped_reported_iff {svc : EdsService} {l : Listener} (h : Run svc l)
    {actions : ReapActions} (hactions : actions.onCliReapedChild = true) {events : List WaitEvent}
    {child : Child} (hreaped : .reaped child ∈ events) :
    EveryClient l events (reapListenerChildren actions l events) ↔
      (l.cdata l.maxfd).inUse = false := by
  unfold EveryClient
  simp only [count_reapListenerChildren hactions]
  constructor
  · intro hevery
    rw [← Bool.not_eq_true]
    intro hin
    have hmissed := hevery child l.maxfd
    rw [if_neg (fun hlt => Nat.lt_irrefl _ hlt.1), if_pos hin] at hmissed
    exact (List.count_pos_iff.mpr hreaped).ne hmissed
  · intro hfree other fd
    by_cases hin : (l.cdata fd).inUse = true
    · have hne : fd ≠ l.maxfd := by
        intro heq
        rw [heq, hfree] at hin
        cases hin
      have hlt := lt_of_le_of_ne (h.le_maxfd fd hin) hne
      rw [if_pos ⟨hlt, hin⟩, if_pos hin]
    · rw [if_neg fun hlt => hin hlt.2, if_neg hin]

def service : EdsService := ⟨8, 3, true, false, by decide⟩

def lowerClient : Listener :=
  [SlotEvent.add 4, .add 5, .remove 5].foldl (slotStep service) (Listener.init service {0, 1, 2, 3})

theorem lowerClient_learns :
    EveryClient lowerClient [.reaped ⟨7, 0⟩]
        (reapListenerChildren ⟨false, true⟩ lowerClient [.reaped ⟨7, 0⟩]) ∧
      reapListenerChildren ⟨false, true⟩ lowerClient [.reaped ⟨7, 0⟩] =
        [.onCliReapedChild ⟨7, 0⟩ 4] := by
  have hrun : Run service lowerClient :=
    Run.foldl (.initial ⟨{0, 1, 2, 3}, rfl⟩) [.add 4, .add 5, .remove 5]
  exact ⟨(reaped_reported_iff hrun rfl List.mem_cons_self).mpr (by decide), by decide⟩

def highestClient : Listener :=
  [SlotEvent.add 4].foldl (slotStep service) (Listener.init service {0, 1, 2, 3})

/-- It does not learn about its child. -/
theorem highest_client_missed :
    Run service highestClient ∧ (highestClient.cdata 4).inUse = true ∧
      ¬ EveryClient highestClient [.reaped ⟨7, 0⟩]
        (reapListenerChildren ⟨false, true⟩ highestClient [.reaped ⟨7, 0⟩]) := by
  refine ⟨Run.foldl (.initial ⟨{0, 1, 2, 3}, rfl⟩) [.add 4], by decide, ?_⟩
  intro hevery
  exact absurd (hevery ⟨7, 0⟩ 4) (by decide)

end Yans.Util.EdsReaped
