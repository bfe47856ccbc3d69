import Mathlib.Data.Finset.Insert
import Yans.Library.Handles
import Yans.Library.Runs

/-! `apps/clid/resolver.c`: the descriptors of the clients of the resolver. The
data of a client is in the slot of its descriptor, and stays there for the next
client of the slot. -/
namespace Yans.Apps.Resolver

open Library.Handles Library.Runs

/-- Who is going to close one of a client's `closefds`: the client in a slot or a
request of the pool of resolvers. -/
inductive Holder where
  | first (slot : ℤ)
  | second (slot : ℤ)
  | request (r : ℕ)
deriving DecidableEq

/-- What a descriptor of the process has been opened for; clients are numbered. -/
inductive Owner where
  | socket (slot : ℤ)
  | result (slot : ℤ)
  | resultFile (slot : ℤ)
  | requestFile (r : ℕ)
  | closefd (client : ℕ) (holder : Holder)
  | other
deriving DecidableEq

structure ResolverCli where
  resfd : ℤ
  resfile : Option ℤ
  closefds : ℤ × ℤ
deriving DecidableEq

/-- The callback that is registered; none of them when the actions are cleared. -/
inductive Handler where
  | onReadable
  | onReadfd
  | onReadreq
  | onSendclosefd
  | cleared
deriving DecidableEq

structure ResolverData where
  client : ℕ
  resfile : Option ℤ
  closefd : ℤ
deriving DecidableEq

/-- `paired` tells whether a socket pair has ever been made in a slot. A close of
one of a client's `closefds` is logged with whether the descriptor was opened for
the client and not closed since. -/
structure State where
  table : Table ℤ Owner
  clients : ℤ → Option (ℕ × Handler)
  slots : ℤ → ResolverCli
  requests : ℕ → Option ResolverData
  nclients : ℕ
  nrequests : ℕ
  paired : ℤ → Bool
  closes : List (ℤ × Bool)

inductive Status where
  | again
  | failure
  | ok
deriving DecidableEq

structure Outcome where
  /-- Of `ycl_msg_init`, `ycl_recvfd`, `ycl_recvmsg` or `ycl_sendfd`. -/
  status : Status
  received : ℤ
  parsed : Bool
  opened : Bool
  pair : Option (ℤ × ℤ)
  allocated : Bool

/-- Besides the clients and the requests there is the rest of the process, which
opens descriptors and closes what it has opened. -/
inductive Event where
  | accept (fd : ℤ)
  | callback (slot : ℤ) (outcome : Outcome)
  | remove (slot : ℤ)
  | done (r : ℕ)
  | opened (fd : ℤ)
  | closed (fd : ℤ)

def Free (s : State) (fd : ℤ) : Prop := 0 ≤ fd ∧ s.table fd = none

instance (s : State) (fd : ℤ) : Decidable (Free s fd) := inferInstanceAs (Decidable (_ ∧ _))

def setHandler (slot : ℤ) (client : ℕ) (handler : Handler) (s : State) : State :=
  { s with clients := Function.update s.clients slot (some (client, handler)) }

def setSlot (slot : ℤ) (ecli : ResolverCli) (s : State) : State :=
  { s with slots := Function.update s.slots slot ecli }

def closeFd (fd : ℤ) (s : State) : State := { s with table := take fd s.table }

/-- The descriptor was opened as one of the client's `closefds`. -/
def ownedBy (client : ℕ) : Option Owner → Bool
  | some (.closefd client' _) => client' = client
  | _ => false

def closeClosefd (client : ℕ) (fd : ℤ) (s : State) : State :=
  closeFd fd { s with closes := s.closes ++ [(fd, ownedBy client (s.table fd))] }

def resolverOnReadable (slot : ℤ) (client : ℕ) (outcome : Outcome) (s : State) : Option State :=
  if outcome.status = .ok then some (setHandler slot client .onReadfd s)
  else some (setHandler slot client .cleared s)

def onReadfd (slot : ℤ) (client : ℕ) (outcome : Outcome) (s : State) : Option State :=
  match outcome.status with
  | .again => some s
  | .failure => some (setHandler slot client .cleared s)
  | .ok =>
    if Free s outcome.received then
      some (setHandler slot client .onReadreq
        (setSlot slot { s.slots slot with resfd := outcome.received }
          { s with table := give outcome.received (.result slot) s.table }))
    else none

/-- The label `fail` of `on_readreq`. -/
def failReadreq (slot : ℤ) (client : ℕ) (s : State) : State :=
  let ecli := s.slots slot
  let s := if ecli.resfd ≥ 0 then setSlot slot { ecli with resfd := -1 } (closeFd ecli.resfd s) else s
  setHandler slot client .cleared s

def onReadreq (slot : ℤ) (client : ℕ) (outcome : Outcome) (s : State) : Option State :=
  match outcome.status with
  | .again => some s
  | .failure => some (failReadreq slot client s)
  | .ok =>
    let ecli := s.slots slot
    if ¬ outcome.parsed then some (failReadreq slot client s)
    else if ¬ outcome.opened then
      some (failReadreq slot client (setSlot slot { ecli with resfile := none } s))
    else
      let ecli := { ecli with resfile := some ecli.resfd, resfd := -1 }
      let s := setSlot slot ecli
        { s with table := give (s.slots slot).resfd (.resultFile slot) s.table }
      match outcome.pair with
      | none => some (failReadreq slot client s)
      | some (a, b) =>
        if Free s a ∧ Free s b ∧ a ≠ b then
          some (setHandler slot client .onSendclosefd
            (setSlot slot { ecli with closefds := (a, b) }
              { s with
                paired := Function.update s.paired slot true
                table := give a (.closefd client (.first slot))
                  (give b (.closefd client (.second slot)) s.table) }))
        else none

def handOver (fd : ℤ) (before after : Owner) (table : Table ℤ Owner) : Table ℤ Owner :=
  if table fd = some before then give fd after table else table

def onSendclosefd (slot : ℤ) (client : ℕ) (outcome : Outcome) (s : State) : Option State :=
  match outcome.status with
  | .again => some s
  | .failure => some (setHandler slot client .cleared s)
  | .ok =>
    let ecli := s.slots slot
    let s := closeClosefd client ecli.closefds.2 s
    let ecli := { ecli with closefds := (ecli.closefds.1, -1) }
    if ¬ outcome.allocated then some (setHandler slot client .cleared (setSlot slot ecli s))
    else
      let r := s.nrequests
      let table := handOver ecli.closefds.1 (.closefd client (.first slot))
        (.closefd client (.request r)) s.table
      let table := match ecli.resfile with
        | none => table
        | some file => handOver file (.resultFile slot) (.requestFile r) table
      some (setHandler slot client .onReadfd
        (setSlot slot { ecli with closefds := (-1, -1), resfile := none }
          { s with
            table := table
            requests := Function.update s.requests r
              (some ⟨client, ecli.resfile, ecli.closefds.1⟩)
            nrequests := r + 1 }))

def resolverCliCleanup (slot : ℤ) (client : ℕ) (s : State) : State :=
  let ecli := s.slots slot
  let s := if ecli.closefds.1 ≥ 0 then closeClosefd client ecli.closefds.1 s else s
  let s := if ecli.closefds.2 ≥ 0 then closeClosefd client ecli.closefds.2 s else s
  let s := match ecli.resfile with
    | none => s
    | some file => closeFd file s
  let unset := fun fd : ℤ => if fd ≥ 0 then -1 else fd
  setSlot slot
    { ecli with
      closefds := (unset ecli.closefds.1, unset ecli.closefds.2)
      resfile := none } s

/-- `eds_service_remove_client`, with `resolver_on_done`. -/
def removeClient (slot : ℤ) (client : ℕ) (s : State) : State :=
  let s := closeFd slot (resolverCliCleanup slot client s)
  { s with clients := Function.update s.clients slot none }

/-- The end of a request, in a thread of the pool. -/
def resOnDone (r : ℕ) (resdata : ResolverData) (s : State) : State :=
  let s := match resdata.resfile with
    | none => s
    | some file => closeFd file s
  closeClosefd resdata.client resdata.closefd
    { s with requests := Function.update s.requests r none }

def callback (slot : ℤ) (outcome : Outcome) (s : State) : Option State :=
  match s.clients slot with
  | some (client, .onReadable) => resolverOnReadable slot client outcome s
  | some (client, .onReadfd) => onReadfd slot client outcome s
  | some (client, .onReadreq) => onReadreq slot client outcome s
  | some (client, .onSendclosefd) => onSendclosefd slot client outcome s
  | _ => none

def step (s : State) : Event → Option State
  | .accept fd =>
    if Free s fd then
      some { s with
        table := give fd (.socket fd) s.table
        clients := Function.update s.clients fd (some (s.nclients, .onReadable))
        nclients := s.nclients + 1 }
    else none
  | .callback slot outcome => callback slot outcome s
  | .remove slot =>
    match s.clients slot with
    | some (client, .cleared) => some (removeClient slot client s)
    | _ => none
  | .done r => (s.requests r).map fun resdata => resOnDone r resdata s
  | .opened fd => if Free s fd then some { s with table := give fd .other s.table } else none
  | .closed fd => if s.table fd = some .other then some (closeFd fd s) else none

/-- A service that has been started, with the descriptors `opened` of the process;
the data in the slots is zero. -/
def started (opened : Finset ℤ) : State where
  table := fun fd => if fd ∈ opened then some .other else none
  clients := fun _ => none
  slots := fun _ => ⟨0, none, (0, 0)⟩
  requests := fun _ => none
  nclients := 0
  nrequests := 0
  paired := fun _ => false
  closes := []

abbrev Run (allowed : State → Event → Prop) (s : State) : Prop :=
  Reachable (fun s => ∃ opened, s = started opened) allowed (fun s event s' => step s event = some s') s

def Paired (s : State) (event : Event) : Prop :=
  ∀ slot, event = .remove slot → s.paired slot = true

end Yans.Apps.Resolver
