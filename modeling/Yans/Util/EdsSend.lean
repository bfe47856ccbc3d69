import Yans.Library.Memory
import Mathlib.Data.List.Infix

/-! `lib/util/eds.c`: `eds_client_send` and the callbacks of one client. A
callback is whatever sequence of calls it makes, and what is running is a
stack: the event loop, the send handler and callbacks inside each other. -/
namespace Yans.Util.EdsSend

open Library.Memory

variable {Callback : Type*}

/-- `struct eds_transition`, with the two flag bits apart. -/
structure EdsTransition (Callback : Type*) where
  tflread : Bool
  tflwrite : Bool
  onReadable : Option Callback
  onWritable : Option Callback
deriving DecidableEq

/-- What `on_writable` can point to: `on_eds_client_send` or a callback of the
client. -/
inductive Handler (Callback : Type*) where
  | onEdsClientSend
  | callback (cb : Callback)
deriving DecidableEq

/-- The fields of `struct eds_client` that sending depends on, and the bits of
its descriptor in the two sets of the listener. -/
structure EdsClient (Callback : Type*) where
  onReadable : Option Callback
  onWritable : Option (Handler Callback)
  onDone : Option Callback
  removed : Bool
  rsuspend : Bool
  trans : EdsTransition Callback
  wrdata : Bytes
  rfd : Bool
  wfd : Bool
deriving DecidableEq

/-- Where the code goes on when what runs above it returns. -/
inductive Frame where
  /-- a callback of the client, or code outside of it -/
  | user
  /-- at the start of `on_eds_client_send` -/
  | onEdsClientSend
  /-- in `on_eds_client_send`, after the readable part of the transition -/
  | afterReadable
  /-- in the event loop, before the callbacks of this client -/
  | dispatch (readable writable : Bool)
  /-- in the event loop, after `on_readable` -/
  | dispatchWritable (writable : Bool)
  /-- in the event loop, after `on_writable` -/
  | dispatched
deriving DecidableEq

/-- The client, what is running, and for the record the bytes that were passed
to `eds_client_send` and those that `write` has accepted. -/
structure State (Callback : Type*) where
  client : EdsClient Callback
  stack : List Frame
  requested : Bytes
  written : Bytes
deriving DecidableEq

/-- The calls that a callback can make on a client. -/
inductive Call (Callback : Type*) where
  | send (data : Bytes) (next : Option (EdsTransition Callback))
  | setOnReadable (onReadable : Option Callback) (defer : Bool)
  | setOnWritable (onWritable : Option Callback) (defer : Bool)
  | suspendReadable
  | clearActions
  | removeClient
deriving DecidableEq

/-- What is not determined by the code: when `select` returns and with what,
which calls a callback makes, and how much a `write` accepts. -/
inductive Choice (Callback : Type*) where
  | external
  | select (readable writable : Bool)
  | call (call : Call Callback)
  | ret
  | write (accepted : Option ℕ)
  | go
deriving DecidableEq

/-- The frames of a callback that is called at once. -/
def enter {α : Type*} (cb : Option α) (stack : List Frame) : List Frame :=
  if cb.isSome then .user :: stack else stack

/-- With the callback that is called before the function returns, if any. -/
def edsClientSetOnReadable (cli : EdsClient Callback) (onReadable : Option Callback)
    (defer : Bool) : EdsClient Callback × Option Callback :=
  if cli.removed then (cli, none)
  else
    match onReadable with
    | none => ({ cli with onReadable := none, rfd := false }, none)
    | some cb =>
      ({ cli with onReadable := some cb, rsuspend := false, rfd := true },
        if defer then none else some cb)

def edsClientSetOnWritable (cli : EdsClient Callback) (onWritable : Option (Handler Callback))
    (defer : Bool) : EdsClient Callback × Option (Handler Callback) :=
  if cli.removed then (cli, none)
  else
    match onWritable with
    | none => ({ cli with onWritable := none, wfd := false }, none)
    | some handler =>
      ({ cli with onWritable := some handler, wfd := true }, if defer then none else some handler)

def edsClientSuspendReadable (cli : EdsClient Callback) : EdsClient Callback :=
  if cli.removed then cli else { cli with onReadable := none, rsuspend := true }

def edsClientClearActions (cli : EdsClient Callback) : EdsClient Callback :=
  { cli with onReadable := none, onWritable := none, rsuspend := false, rfd := false, wfd := false }

/-- Runs `on_done` once. -/
def edsServiceRemoveClient (cli : EdsClient Callback) : EdsClient Callback × Option Callback :=
  if cli.removed then (cli, none)
  else ({ cli with removed := true, onDone := none, rfd := false, wfd := false }, cli.onDone)

def Handler.frame : Handler Callback → Frame
  | .onEdsClientSend => .onEdsClientSend
  | .callback _ => .user

def enterHandler (handler : Option (Handler Callback)) (stack : List Frame) : List Frame :=
  match handler with
  | none => stack
  | some handler => handler.frame :: stack

def edsClientSend (cli : EdsClient Callback) (data : Bytes)
    (next : Option (EdsTransition Callback)) : EdsClient Callback × Option (Handler Callback) :=
  let trans := next.getD ⟨true, true, none, none⟩
  edsClientSetOnWritable { cli with wrdata := data, trans := trans } (some .onEdsClientSend) false

def perform (s : State Callback) : Call Callback → State Callback
  | .send data next =>
    let (client, handler) := edsClientSend s.client data next
    { s with
      client := client
      stack := enterHandler handler s.stack
      requested := s.requested ++ data }
  | .setOnReadable onReadable defer =>
    let (client, cb) := edsClientSetOnReadable s.client onReadable defer
    { s with client := client, stack := enter cb s.stack }
  | .setOnWritable onWritable defer =>
    let (client, handler) :=
      edsClientSetOnWritable s.client (onWritable.map Handler.callback) defer
    { s with client := client, stack := enterHandler handler s.stack }
  | .suspendReadable => { s with client := edsClientSuspendReadable s.client }
  | .clearActions => { s with client := edsClientClearActions s.client }
  | .removeClient =>
    let (client, cb) := edsServiceRemoveClient s.client
    { s with client := client, stack := enter cb s.stack }

/-- From the label `completed` to the return of `eds_client_set_on_readable`. -/
def completed (s : State Callback) (rest : List Frame) : State Callback :=
  if s.client.trans.tflread then
    let cli := { s.client with trans := { s.client.trans with tflread := false } }
    let (client, cb) := edsClientSetOnReadable cli cli.trans.onReadable false
    { s with client := client, stack := enter cb (.afterReadable :: rest) }
  else { s with stack := .afterReadable :: rest }

/-- The rest of `on_eds_client_send`. -/
def afterReadable (s : State Callback) (rest : List Frame) : State Callback :=
  if s.client.trans.tflwrite then
    let cli := { s.client with trans := { s.client.trans with tflwrite := false } }
    let (client, handler) :=
      edsClientSetOnWritable cli (cli.trans.onWritable.map Handler.callback) false
    { s with client := client, stack := enterHandler handler rest }
  else { s with stack := rest }

/-- `write` accepts some bytes or would block. -/
def onWrite (s : State Callback) (rest : List Frame) : Option ℕ → State Callback
  | none => { s with stack := rest }
  | some n =>
    let s :=
      { s with
        client := { s.client with wrdata := s.client.wrdata.drop n }
        written := s.written ++ s.client.wrdata.take n }
    if s.client.wrdata = [] then completed s rest else { s with stack := rest }

/-- One step of the code; `none` where it does not have that choice. -/
def step (s : State Callback) (choice : Choice Callback) : Option (State Callback) :=
  match s.stack, choice with
  | [], .external => some { s with stack := [.user] }
  | [], .select readable writable =>
    if (readable → s.client.rfd) ∧ (writable → s.client.wfd) then
      some { s with stack := [.dispatch readable writable] }
    else none
  | .user :: _, .call call => some (perform s call)
  | .user :: rest, .ret => some { s with stack := rest }
  | .onEdsClientSend :: rest, .go =>
    if s.client.wrdata = [] then some (completed s rest) else none
  | .onEdsClientSend :: rest, .write accepted =>
    if s.client.wrdata ≠ [] ∧ accepted.getD 0 ≤ s.client.wrdata.length then
      some (onWrite s rest accepted)
    else none
  | .afterReadable :: rest, .go => some (afterReadable s rest)
  | .dispatch readable writable :: rest, .go =>
    if s.client.removed then some { s with stack := rest }
    else
      let cb := if readable then s.client.onReadable else none
      some { s with stack := enter cb (.dispatchWritable writable :: rest) }
  | .dispatchWritable writable :: rest, .go =>
    if s.client.removed then some { s with stack := rest }
    else
      let handler := if writable then s.client.onWritable else none
      some { s with stack := enterHandler handler (.dispatched :: rest) }
  | .dispatched :: rest, .go =>
    -- a client without actions is removed, unless reading is suspended
    if ¬ s.client.rsuspend ∧ s.client.onReadable = none ∧ s.client.onWritable = none then
      let (client, cb) := edsServiceRemoveClient s.client
      some { s with client := client, stack := enter cb rest }
    else some { s with stack := rest }
  | _, _ => none

/-! What a step does to the sending side of a client. -/

/-- The fields that decide whether pending bytes are going to be written. -/
def EdsClient.sending (cli : EdsClient Callback) :
    Bytes × Option (Handler Callback) × Bool × Bool :=
  (cli.wrdata, cli.onWritable, cli.wfd, cli.removed)

section

variable (cli : EdsClient Callback)

include cli

theorem sending_setOnReadable (onReadable : Option Callback)
    (defer : Bool) :
    (edsClientSetOnReadable cli onReadable defer).1.sending = cli.sending := by
  unfold edsClientSetOnReadable
  split
  · rfl
  · cases onReadable <;> rfl

theorem trans_setOnReadable (onReadable : Option Callback)
    (defer : Bool) : (edsClientSetOnReadable cli onReadable defer).1.trans = cli.trans := by
  unfold edsClientSetOnReadable
  split
  · rfl
  · cases onReadable <;> rfl

theorem wrdata_setOnWritable (onWritable : Option (Handler Callback))
    (defer : Bool) : (edsClientSetOnWritable cli onWritable defer).1.wrdata = cli.wrdata := by
  unfold edsClientSetOnWritable
  split
  · rfl
  · cases onWritable <;> rfl

theorem wrdata_removeClient :
    (edsServiceRemoveClient cli).1.wrdata = cli.wrdata := by
  unfold edsServiceRemoveClient
  split <;> rfl

end

theorem sending_completed (s : State Callback) (rest : List Frame) :
    (completed s rest).client.sending = s.client.sending := by
  unfold completed
  split
  · exact sending_setOnReadable _ _ _
  · rfl

theorem record_completed (s : State Callback) (rest : List Frame) :
    (completed s rest).requested = s.requested ∧ (completed s rest).written = s.written := by
  unfold completed
  split <;> exact ⟨rfl, rfl⟩

inductive Deregisters (s : State Callback) : Choice Callback → Prop where
  | setOnWritable (onWritable : Option Callback) (defer : Bool) :
      Deregisters s (.call (.setOnWritable onWritable defer))
  | clearActions : Deregisters s (.call .clearActions)
  | removeClient : Deregisters s (.call .removeClient)
  | transition (top : s.stack.head? = some .afterReadable)
      (tflwrite : s.client.trans.tflwrite = true) : Deregisters s .go
  | unused (onWritable : s.client.onWritable = none) : Deregisters s .go

/-- What a step does to the sending side: nothing, or it starts a send, or it
writes, or it may take the registration away. -/
inductive Effect (s : State Callback) : Choice Callback → State Callback → Prop where
  | none {choice : Choice Callback} {s' : State Callback}
      (sending : s'.client.sending = s.client.sending) (requested : s'.requested = s.requested)
      (written : s'.written = s.written)
      (trans : s'.client.trans = s.client.trans ∨ s.client.wrdata = []) : Effect s choice s'
  | send {data : Bytes} {next : Option (EdsTransition Callback)} {s' : State Callback}
      (sending : s.client.removed = false →
        s'.client.sending = (data, some .onEdsClientSend, true, false))
      (requested : s'.requested = s.requested ++ data) (written : s'.written = s.written) :
      Effect s (.call (.send data next)) s'
  | write {n : ℕ} {s' : State Callback} (pending : s.client.wrdata ≠ [])
      (sending : s'.client.sending =
        (s.client.wrdata.drop n, s.client.onWritable, s.client.wfd, s.client.removed))
      (requested : s'.requested = s.requested)
      (written : s'.written = s.written ++ s.client.wrdata.take n)
      (trans : s'.client.trans = s.client.trans ∨ s'.client.wrdata = []) :
      Effect s (.write (some n)) s'
  | deregister {choice : Choice Callback} {s' : State Callback} (cause : Deregisters s choice)
      (wrdata : s'.client.wrdata = s.client.wrdata) (requested : s'.requested = s.requested)
      (written : s'.written = s.written) : Effect s choice s'

theorem perform_effect (s : State Callback) (call : Call Callback) :
    Effect s (.call call) (perform s call) := by
  cases call with
  | send data next =>
    refine .send ?_ rfl rfl
    intro hremoved
    simp [perform, edsClientSend, edsClientSetOnWritable, hremoved, EdsClient.sending]
  | setOnReadable onReadable defer =>
    exact .none (sending_setOnReadable _ _ _) rfl rfl (.inl (trans_setOnReadable _ _ _))
  | setOnWritable onWritable defer =>
    exact .deregister (.setOnWritable _ _) (wrdata_setOnWritable _ _ _) rfl rfl
  | suspendReadable =>
    simp only [perform, edsClientSuspendReadable]
    split <;> exact .none rfl rfl rfl (.inl rfl)
  | clearActions => exact .deregister .clearActions rfl rfl rfl
  | removeClient => exact .deregister .removeClient (wrdata_removeClient _) rfl rfl

theorem onWrite_effect (s : State Callback) (rest : List Frame) (accepted : Option ℕ)
    (hpending : s.client.wrdata ≠ []) :
    Effect s (.write accepted) (onWrite s rest accepted) := by
  cases accepted with
  | none => exact .none rfl rfl rfl (.inl rfl)
  | some n =>
    unfold onWrite
    dsimp only
    split
    · rename_i hall
      have hsending := sending_completed { s with
        client := { s.client with wrdata := s.client.wrdata.drop n }
        written := s.written ++ s.client.wrdata.take n } rest
      refine .write hpending hsending (record_completed _ _).1 (record_completed _ _).2 (.inr ?_)
      exact (congrArg Prod.fst hsending).trans hall
    · exact .write hpending rfl rfl rfl (.inl rfl)

variable {s : State Callback}

theorem afterReadable_effect {rest : List Frame}
    (hstack : s.stack = .afterReadable :: rest) : Effect s .go (afterReadable s rest) := by
  unfold afterReadable
  split
  · rename_i htflwrite
    refine .deregister (.transition (by rw [hstack]; rfl) htflwrite) ?_ rfl rfl
    exact wrdata_setOnWritable _ _ _
  · exact .none rfl rfl rfl (.inl rfl)

variable {s' : State Callback} {choice : Choice Callback}

theorem step_effect (h : step s choice = some s') : Effect s choice s' := by
  unfold step at h
  split at h
  case h_1 => cases h; exact .none rfl rfl rfl (.inl rfl)
  case h_2 =>
    split at h
    · cases h
      exact .none rfl rfl rfl (.inl rfl)
    · cases h
  case h_3 =>
    cases h
    exact perform_effect s _
  case h_4 => cases h; exact .none rfl rfl rfl (.inl rfl)
  case h_5 =>
    rename_i rest _
    split at h
    · rename_i hidle
      cases h
      obtain ⟨hrequested, hwritten⟩ := record_completed s rest
      exact .none (sending_completed _ _) hrequested hwritten (.inr hidle)
    · cases h
  case h_6 =>
    split at h
    · rename_i haccepted
      cases h
      exact onWrite_effect s _ _ haccepted.1
    · cases h
  case h_7 =>
    rename_i rest hstack
    cases h
    exact afterReadable_effect hstack
  case h_8 => split at h <;> cases h <;> exact .none rfl rfl rfl (.inl rfl)
  case h_9 => split at h <;> cases h <;> exact .none rfl rfl rfl (.inl rfl)
  case h_10 =>
    split at h
    · rename_i hunused
      cases h
      exact .deregister (.unused hunused.2.2) (wrdata_removeClient _) rfl rfl
    · cases h
      exact .none rfl rfl rfl (.inl rfl)
  case h_11 => cases h

/-- `eds_service_add_client` with these actions. -/
def edsServiceAddClient (onReadable onWritable onDone : Option Callback) : State Callback where
  client :=
    { onReadable := onReadable
      onWritable := onWritable.map Handler.callback
      onDone := onDone
      removed := false
      rsuspend := false
      trans := ⟨false, false, none, none⟩
      wrdata := []
      rfd := onReadable.isSome
      wfd := onWritable.isSome }
  stack := []
  requested := []
  written := []

/-- The state before a step that keeps what is pending: a send is started, and
the write handler given up, only when nothing is pending, and a completed send
does not go on to the writable part of a transition that is not its own. -/
def Meets (s : State Callback) : Choice Callback → Prop
  | .call (.send _ _) => s.client.wrdata = [] ∧ s.client.removed = false
  | .call (.setOnWritable _ _) => s.client.wrdata = []
  | .call .clearActions => s.client.wrdata = []
  | .call .removeClient => s.client.wrdata = []
  | .go => s.stack.head? = some .afterReadable → s.client.trans.tflwrite = true →
      s.client.wrdata = []
  | _ => True

inductive Reachable : State Callback → Prop where
  | init (onReadable onWritable onDone : Option Callback) :
      Reachable (edsServiceAddClient onReadable onWritable onDone)
  | step {s s' : State Callback} {choice : Choice Callback} (before : Reachable s)
      (meets : Meets s choice) (taken : step s choice = some s') : Reachable s'

/-- Everything passed to `eds_client_send` has been written, in order and once,
except for the pending bytes, and these are registered for writing. -/
structure Delivering (s : State Callback) : Prop where
  order : s.written ++ s.client.wrdata = s.requested
  registered : s.client.wrdata ≠ [] →
    s.client.onWritable = some .onEdsClientSend ∧ s.client.wfd = true ∧ s.client.removed = false

theorem Delivering.of_sending (h : Delivering s)
    (hsending : s'.client.sending = s.client.sending) (hrequested : s'.requested = s.requested)
    (hwritten : s'.written = s.written) : Delivering s' := by
  simp only [EdsClient.sending, Prod.mk.injEq] at hsending
  obtain ⟨hwrdata, honWritable, hwfd, hremoved⟩ := hsending
  refine ⟨?_, ?_⟩
  · rw [hwritten, hwrdata, hrequested]
    exact h.order
  · rw [hwrdata, honWritable, hwfd, hremoved]
    exact h.registered

theorem Deregisters.wrdata_eq
    (h : Deregisters s choice) (hmeets : Meets s choice) (delivering : Delivering s) :
    s.client.wrdata = [] := by
  cases h with
  | setOnWritable => exact hmeets
  | clearActions => exact hmeets
  | removeClient => exact hmeets
  | transition top tflwrite => exact hmeets top tflwrite
  | unused onWritable =>
    by_contra hpending
    rw [(delivering.registered hpending).1] at onWritable
    cases onWritable

theorem Delivering.step (h : Delivering s)
    (hmeets : Meets s choice) (htaken : step s choice = some s') : Delivering s' := by
  cases step_effect htaken with
  | none sending requested written trans => exact h.of_sending sending requested written
  | send sending requested written =>
    obtain ⟨hidle, hlive⟩ := hmeets
    have hsending := sending hlive
    simp only [EdsClient.sending, Prod.mk.injEq] at hsending
    obtain ⟨hwrdata, honWritable, hwfd, hremoved⟩ := hsending
    refine ⟨?_, fun _ => ⟨honWritable, hwfd, hremoved⟩⟩
    have horder := h.order
    rw [hidle, List.append_nil] at horder
    rw [written, hwrdata, requested, horder]
  | write pending sending requested written trans =>
    simp only [EdsClient.sending, Prod.mk.injEq] at sending
    obtain ⟨hwrdata, honWritable, hwfd, hremoved⟩ := sending
    refine ⟨?_, fun _ => ?_⟩
    · rw [written, hwrdata, List.append_assoc, List.take_append_drop, requested]
      exact h.order
    · rw [honWritable, hwfd, hremoved]
      exact h.registered pending
  | deregister cause wrdata requested written =>
    have hidle := cause.wrdata_eq hmeets h
    refine ⟨?_, fun hpending => absurd (wrdata.trans hidle) hpending⟩
    rw [written, wrdata, requested]
    exact h.order

theorem Reachable.delivering (h : Reachable s) : Delivering s := by
  induction h with
  | init onReadable onWritable onDone => exact ⟨rfl, fun hpending => absurd rfl hpending⟩
  | step before meets taken ih => exact ih.step meets taken

def Installs (s s' : State Callback) : Prop :=
  s.client.trans.tflread = true ∧ s'.client.trans.tflread = false ∨
    s.client.trans.tflwrite = true ∧ s'.client.trans.tflwrite = false

theorem Effect.wrdata_of_installs
    (h : Effect s choice s') (hmeets : Meets s choice) (delivering : Delivering s)
    (hcall : ∀ data next, choice ≠ .call (.send data next)) (hinstalls : Installs s s') :
    s'.client.wrdata = [] := by
  have hchanged : s'.client.trans ≠ s.client.trans := by
    intro hsame
    unfold Installs at hinstalls
    rw [hsame] at hinstalls
    simp at hinstalls
  cases h with
  | none sending requested written trans =>
    have hwrdata := congrArg Prod.fst sending
    exact hwrdata.trans (trans.resolve_left hchanged)
  | send sending requested written => exact absurd rfl (hcall _ _)
  | write pending sending requested written trans => exact trans.resolve_left hchanged
  | deregister cause wrdata requested written =>
    exact wrdata.trans (cause.wrdata_eq hmeets delivering)

theorem Effect.requested_grows (h : Effect s choice s') : s.requested <+: s'.requested := by
  cases h with
  | none sending requested written trans => rw [requested]
  | send sending requested written =>
    rw [requested]
    exact List.prefix_append _ _
  | write pending sending requested written trans => rw [requested]
  | deregister cause wrdata requested written => rw [requested]

theorem Effect.length_wrdata_le
    (h : Effect s choice s') (hmeets : Meets s choice) (hpending : s.client.wrdata ≠ []) :
    s'.client.wrdata.length ≤ s.client.wrdata.length := by
  cases h with
  | none sending requested written trans => exact (congrArg List.length (congrArg Prod.fst sending)).le
  | send sending requested written => exact absurd hmeets.1 hpending
  | write pending sending requested written trans =>
    have hwrdata := congrArg Prod.fst sending
    rw [show s'.client.wrdata = _ from hwrdata, List.length_drop]
    exact Nat.sub_le _ _
  | deregister cause wrdata requested written => exact (congrArg List.length wrdata).le

theorem step_write {n : ℕ} (h : step s (.write (some n)) = some s') :
    s'.client.wrdata = s.client.wrdata.drop n := by
  cases hstack : s.stack with
  | nil => simp [step, hstack] at h
  | cons frame rest =>
    cases frame with
    | onEdsClientSend =>
      simp only [step, hstack] at h
      split at h
      · cases h
        unfold onWrite
        dsimp only
        split
        · exact congrArg Prod.fst (sending_completed _ rest)
        · rfl
      · cases h
    | _ => simp [step, hstack] at h

structure Run (Callback : Type*) where
  state : ℕ → State Callback
  choice : ℕ → Choice Callback
  start : Reachable (state 0)
  meets : ∀ i, Meets (state i) (choice i)
  taken : ∀ i, step (state i) (choice i) = some (state (i + 1))

/-- A client with pending bytes that stays registered for writing is not kept
waiting forever: the loop comes back to it and some write accepts a byte. -/
def Run.Fair (run : Run Callback) : Prop :=
  ∀ i, (∀ j, i ≤ j → (run.state j).client.wrdata ≠ [] ∧
      (run.state j).client.onWritable = some .onEdsClientSend ∧
      (run.state j).client.wfd = true) →
    ∃ j, i ≤ j ∧ ∃ n, 0 < n ∧ run.choice j = .write (some n)

namespace Run

variable (run : Run Callback)

theorem reachable (i : ℕ) : Reachable (run.state i) := by
  induction i with
  | zero => exact run.start
  | succ i ih => exact .step ih (run.meets i) (run.taken i)

theorem requested_grows_add (i d : ℕ) :
    (run.state i).requested <+: (run.state (i + d)).requested := by
  induction d with
  | zero => exact List.prefix_rfl
  | succ d ih => exact ih.trans (step_effect (run.taken (i + d))).requested_grows

theorem length_wrdata_le {i : ℕ} (hpending : ∀ j, i ≤ j → (run.state j).client.wrdata ≠ [])
    (d : ℕ) : (run.state (i + d)).client.wrdata.length ≤ (run.state i).client.wrdata.length := by
  induction d with
  | zero => exact le_rfl
  | succ d ih =>
    apply le_trans _ ih
    exact (step_effect (run.taken (i + d))).length_wrdata_le (run.meets (i + d))
      (hpending _ (Nat.le_add_right i d))

/-- The induction is on the number of pending bytes. -/
theorem exists_wrdata_nil (hfair : run.Fair) (size : ℕ) : ∀ i,
    (run.state i).client.wrdata.length = size → ∃ j, i ≤ j ∧ (run.state j).client.wrdata = [] := by
  induction size using Nat.strongRecOn with
  | _ size ih =>
    intro i hsize
    by_contra hnever
    have hpending : ∀ j, i ≤ j → (run.state j).client.wrdata ≠ [] :=
      fun j hij hnil => hnever ⟨j, hij, hnil⟩
    obtain ⟨j, hij, n, hn, hchoice⟩ := hfair i fun j hij => by
      have hregistered := (run.reachable j).delivering.registered (hpending j hij)
      exact ⟨hpending j hij, hregistered.1, hregistered.2.1⟩
    have htaken := run.taken j
    rw [hchoice] at htaken
    have hwrote := congrArg List.length (step_write htaken)
    rw [List.length_drop] at hwrote
    have hle := run.length_wrdata_le hpending (j - i)
    rw [Nat.add_sub_cancel' hij] at hle
    have hpos := List.length_pos_iff.mpr (hpending j hij)
    obtain ⟨k, hjk, hnil⟩ := ih _ (by omega) (j + 1) rfl
    exact hnever ⟨k, by omega, hnil⟩

end Run

/-- Delivery. In every state that a run can reach while its steps meet the
condition, what was passed to `eds_client_send` has been written in order and
once except for the pending bytes, which are registered for writing; a
transition is carried out only when nothing is pending; and in a fair run every
byte passed is written in the end. -/
theorem send_delivers :
    (∀ s : State Callback, Reachable s → s.written ++ s.client.wrdata = s.requested ∧
      (s.client.wrdata ≠ [] → s.client.onWritable = some .onEdsClientSend ∧
        s.client.wfd = true ∧ s.client.removed = false)) ∧
    (∀ (s s' : State Callback) (choice : Choice Callback), Reachable s → Meets s choice →
      step s choice = some s' → (∀ data next, choice ≠ .call (.send data next)) →
      Installs s s' → s'.written = s'.requested) ∧
    ∀ run : Run Callback, run.Fair → ∀ i, ∃ j, i ≤ j ∧
      (run.state i).requested <+: (run.state j).written := by
  refine ⟨fun s hs => ⟨hs.delivering.order, hs.delivering.registered⟩, ?_, ?_⟩
  · intro s s' choice hs hmeets htaken hcall hinstalls
    have hnil := (step_effect htaken).wrdata_of_installs hmeets hs.delivering hcall hinstalls
    have horder := (hs.delivering.step hmeets htaken).order
    rwa [hnil, List.append_nil] at horder
  · intro run hfair i
    obtain ⟨j, hij, hnil⟩ := run.exists_wrdata_nil hfair _ i rfl
    have horder := (run.reachable j).delivering.order
    rw [hnil, List.append_nil] at horder
    have hgrown := run.requested_grows_add i (j - i)
    rw [Nat.add_sub_cancel' hij] at hgrown
    exact ⟨j, hij, horder ▸ hgrown⟩

/-- A send that is cut short and completed by the loop, and a client that rests from then on. -/
def cutSend : ℕ → Choice ℕ
  | 0 => .external
  | 1 => .call (.send [1, 2] none)
  | 2 | 7 => .write (some 1)
  | 3 => .ret
  | 4 => .select false true
  | 5 | 6 | 8 | 9 => .go
  | i + 10 => if i % 2 = 0 then .external else .ret

def cutSendState : ℕ → State ℕ
  | 0 => edsServiceAddClient (some 0) none none
  | i + 1 => (step (cutSendState i) (cutSend i)).getD (cutSendState i)

theorem cutSendState_rests (i : ℕ) : cutSendState (i + 10) =
    if i % 2 = 0 then cutSendState 10 else { cutSendState 10 with stack := [.user] } := by
  induction i with
  | zero => rfl
  | succ i ih =>
    rw [Nat.add_right_comm, cutSendState, ih, cutSend]
    obtain heven | hodd := Nat.mod_two_eq_zero_or_one i
    · rw [if_pos heven, if_pos heven, if_neg (by omega)]
      rfl
    · rw [if_neg (by omega), if_neg (by omega), if_pos (by omega)]
      rfl

theorem cutSend_taken (i : ℕ) : Meets (cutSendState i) (cutSend i) ∧
    step (cutSendState i) (cutSend i) = some (cutSendState (i + 1)) := by
  match i with
  | 0 | 2 | 3 | 4 | 7 => exact ⟨trivial, rfl⟩
  | 1 => exact ⟨⟨rfl, rfl⟩, rfl⟩
  | 5 | 6 => exact ⟨nofun, rfl⟩
  | 8 | 9 => exact ⟨fun _ _ => rfl, rfl⟩
  | i + 10 =>
    rw [show i + 10 + 1 = i + 1 + 10 from rfl, cutSendState_rests i,
      cutSendState_rests (i + 1), cutSend]
    obtain heven | hodd := Nat.mod_two_eq_zero_or_one i
    · rw [if_pos heven, if_pos heven, if_neg (by omega)]
      exact ⟨trivial, rfl⟩
    · rw [if_neg (by omega), if_neg (by omega), if_pos (by omega)]
      exact ⟨trivial, rfl⟩

def cutSendRun : Run ℕ :=
  ⟨cutSendState, cutSend, .init _ _ _, fun i => (cutSend_taken i).1, fun i => (cutSend_taken i).2⟩

/-- In the run of a send that is cut short the rest is registered and written later. -/
theorem send_delivers_cut :
    (cutSendState 3).client.wrdata = [2] ∧ (cutSendState 3).client.wfd = true ∧
      ∃ j, 3 ≤ j ∧ [1, 2] <+: (cutSendState j).written := by
  refine ⟨rfl, ((send_delivers.1 _ (cutSendRun.reachable 3)).2 (List.cons_ne_nil 2 [])).2.1, ?_⟩
  refine send_delivers.2.2 cutSendRun ?_ 3
  intro i hpending
  have hrest := (hpending (i + 10) (Nat.le_add_right i 10)).1
  change (cutSendState (i + 10)).client.wrdata ≠ [] at hrest
  rw [cutSendState_rests] at hrest
  split at hrest <;> exact absurd rfl hrest
def steps (s : State Callback) : List (Choice Callback) → Option (State Callback)
  | [] => some s
  | choice :: rest => (step s choice).bind fun s => steps s rest

/-- The first send completes at once and runs its `on_readable`, callback 7;
that sends again without a transition of its own, and the second send would
block. The first goes on with the transition of the second. -/
def nestedSend : List (Choice ℕ) :=
  [.external, .call (.send [1] (some ⟨true, false, some 7, none⟩)), .write (some 1),
    .call (.send [2] none), .write none, .ret, .go]

/-- The write registration is gone while a byte of the second send is pending. -/
theorem nested_send_clears_registration :
    ∃ s, steps (edsServiceAddClient (some 0) none none) nestedSend = some s ∧
      s.requested = [1, 2] ∧ s.written = [1] ∧ s.client.wrdata = [2] ∧
      s.client.onWritable = none ∧ s.client.wfd = false :=
  ⟨_, rfl, rfl, rfl, rfl, rfl, rfl⟩

end Yans.Util.EdsSend
