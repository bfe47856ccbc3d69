import Mathlib.Data.Finset.Card
import Mathlib.Logic.Function.Basic
import Yans.Library.Runs

/-! `apps/sc2/main.c`: the slots of the children that serve requests. A child
may exit at any point of the code, and the handler of its signal runs at any
point at which the signal is not blocked. -/
namespace Yans.Apps.Sc2

open Library.Runs

structure Timespec where
  sec : ℤ
  nsec : ℤ
deriving DecidableEq

def timespecDelta (start «end» : Timespec) : Timespec :=
  if «end».nsec - start.nsec < 0 then
    ⟨«end».sec - start.sec - 1, 1000000000 + «end».nsec - start.nsec⟩
  else ⟨«end».sec - start.sec, «end».nsec - start.nsec⟩

structure Sc2Opts where
  maxreqs : ℕ
  lifetime : ℤ
  once : Bool

/-- The flag `SC2CHLD_WAITED` is the field `waited`. -/
structure Sc2Child where
  waited : Bool
  status : ℤ
  pid : ℤ
  started : Timespec
  completed : Timespec
deriving DecidableEq

/-- The points of the code, each right before what it is named after. -/
inductive Point where
  /-- The head of the loop of `sc2_serve`. -/
  | head
  | checkTest (i : ℕ) (nleft : ℤ) (now : Timespec)
  | kill (i : ℕ) (nleft : ℤ) (now : Timespec)
  | resetTest (i : ℕ)
  /-- `ctx->used--` -/
  | resetUsed (i : ℕ)
  | resetPid (i : ℕ)
  | resetFlags (i : ℕ)
  | termTest
  | capacityTest
  | poll
  | accept
  | gettime
  | block (started : Timespec)
  | fork (started : Timespec)
  | register (pid : ℤ) (started : Timespec)
  /-- With the index behind the loop, or behind a failed `fork`. -/
  | unblock (registered : Option (ℤ × ℕ))
  | slotAssert (i : ℕ)
  | returned
  | aborted
deriving DecidableEq

inductive Call where
  | started (pid : ℤ)
  | timedout (pid : ℤ) (delta : Timespec)
  | reaped (pid status : ℤ) (delta : Timespec)
deriving DecidableEq

/-- Of the system there are the children that have been forked and not been
waited for, and those of them that have exited, with their status. A kill is
logged with whether it went to such a child. The children are numbered by
`fork`; the numbers of those that have been reaped and released are kept, and
those that had been reaped when `sc2_reset_reaped` was called last. -/
structure State where
  used : ℤ
  children : ℕ → Sc2Child
  point : Point
  blocked : Bool
  calls : List Call
  unwaited : Finset ℤ
  exited : List (ℤ × ℤ)
  kills : List (ℤ × Bool)
  nforks : ℕ
  serial : ℕ → ℕ
  reaped : List ℕ
  released : List ℕ
  reapedAtReset : List ℕ

inductive Polled where
  | interrupted
  | failure
  | timeout
  | hangup
  | incoming
  | nothing

structure Outcome where
  now : Timespec
  clock : Bool
  term : Bool
  polled : Polled
  accepted : Bool
  forked : Option ℤ

inductive Event where
  | serve (outcome : Outcome)
  | exit (pid status : ℤ)
  | sigchld (now : Timespec)

variable (opts : Sc2Opts)

def setChild (i : ℕ) (child : Sc2Child) (s : State) : State :=
  { s with children := Function.update s.children i child }

def goto (point : Point) (s : State) : State := { s with point := point }

/-- The test and the kill of one turn of the loop in `sc2_check_procs`; nothing
ever changes `nleft`. -/
def checkTest (i : ℕ) (nleft : ℤ) (now : Timespec) (s : State) : State :=
  if nleft > 0 ∧ i < opts.maxreqs then
    let child := s.children i
    if child.pid > 0 ∧ ¬ child.waited ∧ (timespecDelta child.started now).sec ≥ opts.lifetime then
      goto (.kill i nleft now) s
    else goto (.checkTest (i + 1) nleft now) s
  else goto (.resetTest 0) { s with reapedAtReset := s.reaped }

def killChild (i : ℕ) (nleft : ℤ) (now : Timespec) (s : State) : State :=
  let child := s.children i
  goto (.checkTest (i + 1) nleft now)
    { s with
      kills := s.kills ++ [(child.pid, decide (child.pid ∈ s.unwaited))]
      calls := s.calls ++ [.timedout child.pid (timespecDelta child.started now)] }

/-- The test of one turn of the loop in `sc2_reset_reaped`. -/
def resetTest (i : ℕ) (s : State) : State :=
  if i < opts.maxreqs then
    let child := s.children i
    if child.waited then
      goto (.resetUsed i)
        { s with
          calls := s.calls ++
            [.reaped child.pid child.status (timespecDelta child.started child.completed)] }
    else goto (.resetTest (i + 1)) s
  else goto .termTest s

def resetPid (i : ℕ) (s : State) : State :=
  goto (.resetFlags i) (setChild i { s.children i with pid := 0 }
    { s with released := s.released ++ [s.serial i] })

def resetFlags (i : ℕ) (s : State) : State :=
  goto (.resetTest (i + 1)) (setChild i { s.children i with waited := false } s)

/-- The loop of `sc2_serve_incoming` that looks for a free slot. -/
def freeSlot (s : State) : Option ℕ :=
  (List.range opts.maxreqs).find? fun i => (s.children i).pid ≤ 0

/-- The registration of a child, with its signal blocked. -/
def register (pid : ℤ) (started : Timespec) (s : State) : State :=
  let zero : Timespec := ⟨0, 0⟩
  let s' :=
    match freeSlot opts s with
    | some i =>
      setChild i ⟨false, 0, pid, started, zero⟩
        { s with serial := Function.update s.serial i s.nforks }
    | none => s
  goto (.unblock (some (pid, (freeSlot opts s).getD opts.maxreqs)))
    { s' with used := s.used + 1, nforks := s.nforks + 1 }

/-- The process has the child that it has forked. -/
def fork (pid : ℤ) (s : State) : State := { s with unwaited := insert pid s.unwaited }

def sc2ServeIncoming (s : State) (outcome : Outcome) : Option State :=
  match s.point with
  | .accept => some (goto (if outcome.accepted then .gettime else .returned) s)
  | .gettime => some (goto (if outcome.clock then .block outcome.now else .returned) s)
  | .block started => some (goto (.fork started) { s with blocked := true })
  | .fork started =>
    if opts.once then some (goto .returned s)
    else
      match outcome.forked with
      | none => some (goto (.unblock none) s)
      | some pid =>
        if 0 < pid ∧ pid ∉ s.unwaited then some (goto (.register pid started) (fork pid s)) else none
  | .register pid started => some (register opts pid started s)
  | .unblock none => some (goto .returned { s with blocked := false })
  | .unblock (some (pid, i)) =>
    some (goto (.slotAssert i) { s with blocked := false, calls := s.calls ++ [.started pid] })
  | .slotAssert i => some (goto (if i < opts.maxreqs then .head else .aborted) s)
  | _ => none

def sc2Serve (s : State) (outcome : Outcome) : Option State :=
  match s.point with
  | .head => some (goto (.checkTest 0 s.used outcome.now) s)
  | .checkTest i nleft now => some (checkTest opts i nleft now s)
  | .kill i nleft now => some (killChild i nleft now s)
  | .resetTest i => some (resetTest opts i s)
  | .resetUsed i => some (goto (.resetPid i) { s with used := s.used - 1 })
  | .resetPid i => some (resetPid i s)
  | .resetFlags i => some (resetFlags i s)
  | .termTest => some (goto (if outcome.term then .returned else .capacityTest) s)
  | .capacityTest => some (goto (if s.used ≥ opts.maxreqs then .head else .poll) s)
  | .poll =>
    match outcome.polled with
    | .interrupted | .timeout | .nothing => some (goto .head s)
    | .failure | .hangup => some (goto .returned s)
    | .incoming => some (goto .accept s)
  | .returned | .aborted => none
  | _ => sc2ServeIncoming opts s outcome

def slotOf (pid : ℤ) (s : State) : Option ℕ :=
  (List.range opts.maxreqs).find? fun i => (s.children i).pid = pid

/-- One turn of the loop of the handler; `none` is the failed assertion. -/
def reapChild (now : Timespec) (s : State) (child : ℤ × ℤ) : Option State :=
  (slotOf opts child.1 s).map fun i =>
    setChild i { s.children i with waited := true, completed := now, status := child.2 }
      { s with
        unwaited := s.unwaited.erase child.1
        reaped := s.reaped ++ [s.serial i] }

/-- The handler waits for all children that have exited. -/
def sc2ReapChildren (now : Timespec) (s : State) : State :=
  match s.exited.foldlM (reapChild opts now) s with
  | some s' => { s' with exited := [] }
  | none => goto .aborted s

def step (s : State) : Event → Option State
  | .serve outcome => sc2Serve opts s outcome
  | .exit pid status =>
    if pid ∈ s.unwaited ∧ pid ∉ s.exited.map (·.1) then
      some { s with exited := s.exited ++ [(pid, status)] }
    else none
  | .sigchld now => if s.blocked ∨ s.point = .aborted then none else some (sc2ReapChildren opts now s)

/-- What `sc2_init` leaves. -/
def init : State where
  used := 0
  children := fun _ => ⟨false, 0, 0, ⟨0, 0⟩, ⟨0, 0⟩⟩
  point := .head
  blocked := false
  calls := []
  unwaited := ∅
  exited := []
  kills := []
  nforks := 0
  serial := fun _ => 0
  reaped := []
  released := []
  reapedAtReset := []

abbrev Run (allowed : State → Event → Prop) (s : State) : Prop :=
  Reachable (· = init) allowed (fun s event s' => step opts s event = some s') s

/-- `fork` does not return a pid that is recorded in a slot. -/
def FreshPid (s : State) (event : Event) : Prop :=
  ∀ outcome started pid, event = .serve outcome → s.point = .fork started →
    outcome.forked = some pid → ∀ i < opts.maxreqs, (s.children i).pid ≠ pid

end Yans.Apps.Sc2
