import Mathlib.Logic.Function.Basic
import Yans.Library.Runs
import Yans.Library.Strings

/-! `lib/net/dnstres.c`: threads that take hosts from a list of requests. A step
is one critical section of a host mutex, one atomic operation, or one access of
the list by the thread that holds the mutex of the pool. -/
namespace Yans.Net.Dnstres

open Library.Memory Library.Runs Library.Strings

/-- `DTR_DELIMS` -/
def delims : Bytes := [13, 10, 9, 32, 44]

def strspn (mem : Bytes) : ℕ := (mem.takeWhile (· ∈ delims)).length

def strcspn (mem : Bytes) : ℕ := (mem.takeWhile fun ch => ch ≠ 0 ∧ ch ∉ delims).length

/-- The pointers lead to requests, which are numbered as they are added; `nextHost`
is an offset into `hosts`. -/
structure DnstresHosts where
  prev : Option ℕ
  next : Option ℕ
  refcount : ℤ
  nextHost : ℕ
  hosts : Bytes
deriving DecidableEq

/-- A host is the offset and the length of its name. -/
abbrev Host := ℕ × ℕ

def dnstresHostsNew (hosts : Bytes) : DnstresHosts := ⟨none, none, 1, 0, cstring hosts ++ [0]⟩

def dnstresHostsNext (h : DnstresHosts) : Option (Host × DnstresHosts) :=
  let curr := h.nextHost + strspn (h.hosts.drop h.nextHost)
  if byteAt h.hosts curr = 0 then none
  else
    let off := strcspn (h.hosts.drop curr)
    if byteAt h.hosts (curr + off) ≠ 0 then
      some ((curr, off),
        { h with hosts := write h.hosts (curr + off) [0], nextHost := curr + (off + 1) })
    else some ((curr, off), { h with nextHost := curr + off })

/-- Who calls `dnstres_hosts_put`: `dnstres_pool_get_host` with the request after
the depleted one, or `resolver`. -/
inductive Caller where
  | getHost (after : Option ℕ)
  | resolver
deriving DecidableEq

/-- The points of a thread, each right before what it is named after. -/
inductive Point where
  /-- Locks the mutex of the pool. -/
  | lock
  | again
  | next
  /-- Reads the successor of a depleted request. -/
  | depleted
  | listPut (after : Option ℕ)
  | unlink (after : Option ℕ)
  | get (host : Host)
  | unlock (h : ℕ) (host : Host)
  /-- In `resolve`. -/
  | resolve (h : ℕ) (host : Host)
  | put (h : ℕ)
  /-- Calls `on_done`. -/
  | cleanup (h : ℕ) (caller : Caller)
  /-- Destroys and frees the request. -/
  | free (h : ℕ) (caller : Caller)
  /-- `pthread_cond_wait` -/
  | wait
  | waiting
deriving DecidableEq

def Caller.back : Caller → Point
  | .getHost after => .unlink after
  | .resolver => .lock

/-- `texts`, `taken`, `returned`, `unlinked` and `done` are logs: the hosts of
each request as they were added, the hosts handed out, those whose `resolve` has
returned, the requests taken off the list and those whose `on_done` was called. -/
structure State (n : ℕ) where
  mutex : Option (Fin n)
  first : Option ℕ
  last : Option ℕ
  heap : ℕ → Option DnstresHosts
  points : Fin n → Point
  nadded : ℕ
  /-- How often the list has given back a request. -/
  nput : ℕ
  texts : ℕ → Bytes
  taken : List (ℕ × Host)
  returned : List (ℕ × Host)
  unlinked : List ℕ
  done : List ℕ
  /-- Calls of `on_done` for requests without hosts. -/
  nempty : ℕ

inductive Event (n : ℕ) where
  | thread (t : Fin n)
  | add (hosts : Option Bytes)

variable {n : ℕ}

def goto (t : Fin n) (point : Point) (s : State n) : State n :=
  { s with points := Function.update s.points t point }

def store (h : ℕ) (entry : DnstresHosts) (s : State n) : State n :=
  { s with heap := Function.update s.heap h (some entry) }

def dnstresHostsPut (t : Fin n) (h : ℕ) (caller : Caller) (s : State n) : Option (State n) := do
  let entry ← s.heap h
  let point := if entry.refcount = 1 then .cleanup h caller else caller.back
  some (goto t point (store h { entry with refcount := entry.refcount - 1 } s))

def dnstresPoolAddHosts (hosts : Option Bytes) (s : State n) : Option (State n) :=
  match hosts with
  | none => some { s with nempty := s.nempty + 1 }
  | some hosts =>
    if s.mutex ≠ none then none
    else
      let h := s.nadded
      let entry := dnstresHostsNew hosts
      let s := { s with nadded := h + 1, texts := Function.update s.texts h (cstring hosts) }
      match s.last with
      | none =>
        if s.first = none then
          some (store h entry { s with first := some h, last := some h })
        else none
      | some last => do
        let before ← s.heap last
        some (store h { entry with prev := some last }
          (store last { before with next := some h } { s with last := some h }))

/-- The code of `dnstres_pool_get_host` behind the unlock in its critical section
is in the points from `again` to `unlock`. -/
def resolver (t : Fin n) (s : State n) : Option (State n) :=
  match s.points t with
  | .lock => if s.mutex = none then some (goto t .again { s with mutex := some t }) else none
  | .again => some (goto t (if s.first = none then .wait else .next) s)
  | .next => do
    let h ← s.first
    let entry ← s.heap h
    match dnstresHostsNext entry with
    | none => some (goto t .depleted s)
    | some (host, entry) =>
      some (goto t (.get host) (store h entry { s with taken := s.taken ++ [(h, host)] }))
  | .depleted => do
    let h ← s.first
    let entry ← s.heap h
    some (goto t (.listPut entry.next) s)
  | .listPut after => do
    let h ← s.first
    dnstresHostsPut t h (.getHost after) { s with nput := s.nput + 1 }
  | .unlink after => do
    let h ← s.first
    let s := { s with first := after, unlinked := s.unlinked ++ [h] }
    match after with
    | none => some (goto t .wait { s with last := none })
    | some next => do
      let entry ← s.heap next
      some (goto t .next (store next { entry with prev := none } s))
  | .get host => do
    let h ← s.first
    let entry ← s.heap h
    some (goto t (.unlock h host) (store h { entry with refcount := entry.refcount + 1 } s))
  | .unlock h host => some (goto t (.resolve h host) { s with mutex := none })
  | .resolve h host => do
    let _ ← s.heap h
    some (goto t (.put h) { s with returned := s.returned ++ [(h, host)] })
  | .put h => dnstresHostsPut t h .resolver s
  | .cleanup h caller => do
    let _ ← s.heap h
    some (goto t (.free h caller) { s with done := s.done ++ [h] })
  | .free h caller => do
    let _ ← s.heap h
    some (goto t caller.back { s with heap := Function.update s.heap h none })
  | .wait => some (goto t .waiting { s with mutex := none })
  | .waiting => some (goto t .lock s)

def step (s : State n) : Event n → Option (State n)
  | .thread t => resolver t s
  | .add hosts => dnstresPoolAddHosts hosts s

/-- What `dnstres_pool_new` leaves, with the threads started. -/
def dnstresPoolNew (n : ℕ) : State n where
  mutex := none
  first := none
  last := none
  heap := fun _ => none
  points := fun _ => .lock
  nadded := 0
  nput := 0
  texts := fun _ => []
  taken := []
  returned := []
  unlinked := []
  done := []
  nempty := 0

/-- Any number of threads and of calls of `dnstres_pool_add_hosts`, in any order. -/
abbrev Run (s : State n) : Prop :=
  Reachable (· = dnstresPoolNew n) (fun _ _ => True)
    (fun s event s' => step s event = some s') s

/-- The requests that the next step of a thread reads or writes, apart from the
release by the thread that has called `on_done`. -/
def touches (s : State n) : Point → List ℕ
  | .next | .depleted | .get _ => s.first.toList
  | .listPut _ => s.first.toList
  | .unlink after => after.toList
  | .resolve h _ | .put h | .cleanup h _ => [h]
  | _ => []

structure IsHost (text : Bytes) (host : Host) : Prop where
  pos : 0 < host.2
  le : host.1 + host.2 ≤ text.length
  within : ∀ i, host.1 ≤ i → i < host.1 + host.2 → byteAt text i ∉ delims
  before : host.1 = 0 ∨ byteAt text (host.1 - 1) ∈ delims
  after : host.1 + host.2 = text.length ∨ byteAt text (host.1 + host.2) ∈ delims

end Yans.Net.Dnstres
