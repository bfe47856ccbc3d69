import Mathlib.Logic.Function.Basic
import Yans.Util.Idset

/-! `lib/net/reaplan.c`: many connections at once over a kqueue. The callbacks,
the clock, the TLS library and the kqueue are a structure of functions on the
state of the outside world. A connection is its place in the array; what the
callbacks alone read of it is left out. -/
namespace Yans.Net.Reaplan

open Util.Idset

structure ReaplanOpts where
  onConnect : Bool
  onDone : Bool
  timeout : ℤ
  maxClients : UInt32
  connectsPerTick : UInt32
  mdelayPerTick : UInt32
  sslCtx : Bool
deriving DecidableEq

structure ConnFlags where
  readable : Bool
  writableOneshot : Bool
  tlsHandshake : Bool
deriving DecidableEq

structure ReaplanConn where
  expires : ℤ
  fd : ℤ
  flags : ConnFlags
  rflags : ConnFlags
  ssl : Bool
deriving DecidableEq

inductive Filter where
  | read
  | write
  | timer
deriving DecidableEq

inductive Fflags where
  | none
  | seconds
  | mseconds
deriving DecidableEq

/-- A `struct kevent`, as a change or as an event. Every change in the array
adds an event. -/
structure Kevent where
  ident : ℤ
  filter : Filter
  evError : Bool
  evEof : Bool
  oneshot : Bool
  fflags : Fflags
  data : ℤ
  udata : ℕ
deriving DecidableEq

/-- The arrays `evs` and `closeconns` have a fixed length; of the latter only
the part in use is kept. -/
structure ReaplanCtx where
  evs : List Kevent
  ids : IdsetCtx
  conns : ℕ → ReaplanConn
  closeconns : List ℕ
  lastTime : ℤ
  activeConns : ℤ
  timerActive : Bool
  connectDone : Bool
  throttleConnect : Bool

inductive Fault where
  /-- A write behind the end of an array. -/
  | overrun
  /-- A failed assertion. -/
  | aborted
  /-- More rounds than were given. -/
  | rounds
deriving DecidableEq

/-- The return value of `on_connect`, and what it has left in the connection. -/
structure Connected where
  code : ℤ
  fd : ℤ
  readable : Bool
  writableOneshot : Bool
  ssl : Bool

/-- The return value of `on_readable` or `on_writable`, and whether `errno` is
`EAGAIN`. -/
structure Reply where
  ret : ℤ
  again : Bool

/-- The return value of `SSL_connect` with its error. -/
inductive Handshake where
  | wantWrite
  | wantRead
  | failure
  | shutdown
  | done

inductive Polled where
  | interrupted
  | failure
  | events (evs : List Kevent)

/-- `kevent` gets the context and whether it waits. -/
structure Outside (World : Type) where
  onConnect : ℕ → World → Connected × World
  onReadable : ℕ → World → Reply × World
  onWritable : ℕ → World → Reply × World
  onDone : ℕ → World → World
  sslConnect : ℕ → World → Handshake × World
  clock : World → Option ℤ × World
  kevent : ReaplanCtx → Bool → World → Polled × World

inductive Action where
  | connected
  | closed
  | done
deriving DecidableEq

/-- The context, and what has been done with each connection so far. -/
structure State (World : Type) where
  ctx : ReaplanCtx
  log : List (Action × ℕ)
  world : World

def reaplancErr : ℤ := -1
def reaplancOk : ℤ := 0
def reaplancDone : ℤ := 1
def reaplancWait : ℤ := 2

def timeoutTimer : ℤ := 666

def secondsTocheck : ℤ := 2

def noFlags : ConnFlags := ⟨false, false, false⟩

def zeroConn : ReaplanConn := ⟨0, -1, noFlags, noFlags, false⟩

def zeroKevent : Kevent := ⟨0, .read, false, false, false, .none, 0, 0⟩

/-- The array `evs` is allocated for two events per connection and a timer. -/
def reaplanInit (opts : ReaplanOpts) : Option ReaplanCtx :=
  if ¬ opts.onConnect ∨ opts.maxClients = 0 ∨ opts.connectsPerTick = 0 ∨
      opts.connectsPerTick > opts.maxClients then none
  else do
    let ids ← idsetNew opts.maxClients.toNat
    pure
      { evs := List.replicate (opts.connectsPerTick * 2 + 1).toNat zeroKevent
        ids := ids
        conns := fun _ => zeroConn
        closeconns := []
        lastTime := 0
        activeConns := 0
        timerActive := false
        connectDone := false
        throttleConnect := false }

variable {World : Type} (out : Outside World) (opts : ReaplanOpts)

def setConn (i : ℕ) (conn : ReaplanConn) (s : State World) : State World :=
  { s with ctx := { s.ctx with conns := Function.update s.ctx.conns i conn } }

def act (action : Action) (i : ℕ) (s : State World) : State World :=
  { s with log := s.log ++ [(action, i)] }

/-- Closing the descriptor removes its events from the kqueue. -/
def reaplanConnClose (i : ℕ) (s : State World) : State World :=
  let s := act .closed i (setConn i { s.ctx.conns i with fd := -1 } s)
  let s := if opts.onDone then act .done i { s with world := out.onDone i s.world } else s
  let s := setConn i { s.ctx.conns i with ssl := false } s
  { s with
    ctx :=
      { s.ctx with
        activeConns := s.ctx.activeConns - 1
        ids := idsetClear s.ctx.ids i } }

def closeConns (s : State World) : State World :=
  s.ctx.closeconns.foldl (fun s i => reaplanConnClose out opts i s) s

/-- The return value, which says whether the queue is full, is not looked at. -/
def enqueueCloseConn (i : ℕ) (s : State World) : Except Fault (State World) :=
  if s.ctx.closeconns.length = opts.connectsPerTick.toNat then .ok s
  else if i ∈ s.ctx.closeconns then .ok s
  else if s.ctx.closeconns.length < opts.connectsPerTick.toNat then
    .ok { s with ctx := { s.ctx with closeconns := s.ctx.closeconns ++ [i] } }
  else .error .overrun

def enqueueOnEof (ev : Kevent) (s : State World) : Except Fault (State World) :=
  if ev.evEof then enqueueCloseConn opts ev.udata s else .ok s

def afterCallback (i : ℕ) (reply : Reply) (s : State World) : Except Fault (State World) :=
  if reply.ret = 0 ∨ reply.ret < 0 ∧ ¬ reply.again then enqueueCloseConn opts i s else .ok s

def handleReadable (i : ℕ) (s : State World) : Except Fault (State World) :=
  let (reply, world) := out.onReadable i s.world
  afterCallback opts i reply { s with world := world }

def handleWritable (i : ℕ) (s : State World) : Except Fault (State World) :=
  let (reply, world) := out.onWritable i s.world
  afterCallback opts i reply { s with world := world }

/-- `EV_SET` in the array of the context. -/
def evSet (index : ℕ) (ev : Kevent) (s : State World) : Except Fault (State World) :=
  if index < s.ctx.evs.length then
    .ok { s with ctx := { s.ctx with evs := s.ctx.evs.set index ev } }
  else .error .overrun

def readEvent (i : ℕ) (conn : ReaplanConn) : Kevent :=
  ⟨conn.fd, .read, false, false, false, .none, 0, i⟩

def writeEvent (i : ℕ) (conn : ReaplanConn) : Kevent :=
  ⟨conn.fd, .write, false, false, true, .none, 0, i⟩

/-- `EV_SET` of an event that has been requested; the result is the index behind
it. -/
def addEvent (requested : Bool) (index : ℕ) (ev : Kevent) (s : State World) :
    Except Fault (ℕ × State World) :=
  if requested then (evSet index ev s).map fun s => (index + 1, s) else .ok (index, s)

/-- The events for a new connection, from `index` on. -/
def setEvents (index i : ℕ) (s : State World) : Except Fault (ℕ × State World) := do
  let conn := s.ctx.conns i
  let flags :=
    if conn.ssl then { conn.flags with tlsHandshake := true }
    else
      { conn.flags with
        readable := conn.flags.readable || conn.rflags.readable
        writableOneshot := conn.flags.writableOneshot || conn.rflags.writableOneshot }
  let s := setConn i { conn with flags := flags } s
  let (index, s) ← addEvent (conn.ssl || conn.rflags.readable) index (readEvent i conn) s
  addEvent (conn.ssl || conn.rflags.writableOneshot) index (writeEvent i conn) s

/-- What `on_connect` makes of a connection that has been zeroed. -/
def connectedConn (connected : Connected) : ReaplanConn :=
  { zeroConn with
    fd := connected.fd
    rflags := ⟨connected.readable, connected.writableOneshot, false⟩
    ssl := connected.ssl }

/-- The callback for a new connection, in a slot that has been zeroed. -/
def connectSlot (id : ℕ) (s : State World) : Connected × State World :=
  let s := setConn id zeroConn s
  let (connected, world) := out.onConnect id s.world
  (connected, setConn id (connectedConn connected) { s with world := world })

def setIds (ids : IdsetCtx) (s : State World) : State World :=
  { s with ctx := { s.ctx with ids := ids } }

def countConnected (id : ℕ) (s : State World) : State World :=
  act .connected id { s with ctx := { s.ctx with activeConns := s.ctx.activeConns + 1 } }

def setExpires (id : ℕ) (expires : ℤ) (s : State World) : State World :=
  setConn id { s.ctx.conns id with expires := expires } s

/-- The loop of `setup_connections`, at most `rounds` times: the result of the
last callback, and the events so far. They are in the array from `base` on. -/
def setupConnections (base «end» : ℕ) (expires : ℤ) :
    ℕ → ℕ → ℤ → State World → Except Fault (ℤ × ℕ × State World)
  | 0, i, result, s => if i ≤ «end» - 2 then .error .rounds else .ok (result, i, s)
  | rounds + 1, i, result, s =>
    if i ≤ «end» - 2 then
      match idsetUseNext s.ctx.ids with
      | (none, ids) => .ok (reaplancWait, i, setIds ids s)
      | (some id, ids) =>
        let (connected, s) := connectSlot out id (setIds ids s)
        if connected.code ≠ reaplancOk ∨ connected.fd < 0 then
          .ok (connected.code, i, setIds (idsetClear s.ctx.ids id) s)
        else
          let s := countConnected id s
          if ¬ connected.readable ∧ ¬ connected.writableOneshot then
            setupConnections base «end» expires rounds i connected.code
              (reaplanConnClose out opts id s)
          else
            match setEvents (base + i) id (setExpires id expires s) with
            | .error fault => .error fault
            | .ok (next, s) =>
              setupConnections base «end» expires rounds (next - base) connected.code s
    else .ok (result, i, s)

/-- The sweep of `reaplan_update_timer`, which ends early when no connection is
left. -/
def closeExpired (now : ℤ) (s : State World) : State World :=
  (List.range opts.maxClients.toNat).foldl (fun s i =>
    if s.ctx.activeConns > 0 ∧ (s.ctx.conns i).fd ≥ 0 ∧ (s.ctx.conns i).expires ≤ now then
      reaplanConnClose out opts i s
    else s) s

/-- Close the expired connections, unless that was done in this second. -/
def checkExpired (s : State World) : State World :=
  if opts.timeout > 0 then
    let (tv, world) := out.clock s.world
    let s := { s with world := world }
    let now := tv.getD 0
    if now > s.ctx.lastTime then
      let s := closeExpired out opts now s
      { s with ctx := { s.ctx with lastTime := now } }
    else s
  else s

def timerEvent (fflags : Fflags) (data : ℤ) : Kevent :=
  ⟨timeoutTimer, .timer, false, false, true, fflags, data, 0⟩

/-- Whether a timer is set up, in the first place of the array. -/
def reaplanUpdateTimer (s : State World) : Except Fault (Bool × State World) :=
  if s.ctx.timerActive then .ok (false, s)
  else
    let s := checkExpired out opts s
    let start (ev : Kevent) : Except Fault (Bool × State World) := do
      let s ← evSet 0 ev s
      return (true, { s with ctx := { s.ctx with timerActive := true } })
    if s.ctx.connectDone ∨ s.ctx.activeConns = opts.maxClients.toNat then
      start (timerEvent .seconds secondsTocheck)
    else if opts.mdelayPerTick ≤ 0 then .ok (false, s)
    else start (timerEvent .mseconds opts.mdelayPerTick.toNat)

/-- What is registered for the connection in here stays inside of the kqueue. -/
def handleTlsHandshake (i : ℕ) (s : State World) : Except Fault (State World) :=
  let conn := s.ctx.conns i
  if ¬ opts.sslCtx ∨ ¬ conn.ssl then .error .aborted
  else
    let (handshake, world) := out.sslConnect i s.world
    let s := { s with world := world }
    match handshake with
    | .wantWrite => .ok s
    | .wantRead => .ok s
    | .failure => enqueueCloseConn opts i s
    | .shutdown => enqueueCloseConn opts i s
    | .done =>
      let flags := ⟨conn.rflags.readable, conn.rflags.writableOneshot, false⟩
      -- the assertion that there is a change: reading ends, or writing begins
      if conn.rflags.readable ∧ ¬ conn.rflags.writableOneshot then .error .aborted
      else .ok (setConn i { conn with flags := flags } s)

def handleEvent (s : State World) (ev : Kevent) : Except Fault (State World) :=
  let conn := s.ctx.conns ev.udata
  if ev.evError ∧ (ev.filter = .read ∨ ev.filter = .write) then
    enqueueCloseConn opts ev.udata s
  else
    match ev.filter with
    | .read => do
      let s ← enqueueOnEof opts ev s
      if conn.flags.tlsHandshake then handleTlsHandshake out opts ev.udata s
      else if ev.data > 0 then handleReadable out opts ev.udata s
      else pure s
    | .write =>
      if ev.evEof then enqueueCloseConn opts ev.udata s
      else if conn.flags.tlsHandshake then handleTlsHandshake out opts ev.udata s
      else handleWritable out opts ev.udata s
    | .timer =>
      if ev.ident = timeoutTimer then
        .ok { s with ctx := { s.ctx with timerActive := false, throttleConnect := false } }
      else .ok s

def reaplanHandleEvents (evs : List Kevent) (s : State World) : Except Fault (State World) := do
  let s ← evs.foldlM (handleEvent out opts) { s with ctx := { s.ctx with closeconns := [] } }
  return closeConns out opts s

/-! `reaplan_run`, from one call of `kevent` to the next -/

inductive Point where
  /-- The head of the loop. -/
  | head
  /-- Before the call of `kevent`, with or without waiting. -/
  | kevent (wait : Bool)
  | returned
deriving DecidableEq

/-- The state with the variables of `reaplan_run`, and whether the kqueue has a
timer that it has not delivered. -/
structure Run (World : Type) where
  point : Point
  nevs : ℕ
  expires : ℤ
  pending : Bool
  state : State World

def IsTimer (ev : Kevent) : Prop := ev.filter = .timer ∧ ev.ident = timeoutTimer

instance : DecidablePred IsTimer := fun _ => inferInstanceAs (Decidable (_ ∧ _))

def Run.Arms (r : Run World) : Prop := ∃ ev ∈ r.state.ctx.evs.take r.nevs, IsTimer ev

instance (r : Run World) : Decidable r.Arms := inferInstanceAs (Decidable (∃ ev ∈ _, IsTimer ev))

/-- The start of `reaplan_run`. -/
def runStart (pending : Bool) (s : State World) : Except Fault (Run World) := do
  let s := { s with ctx := { s.ctx with timerActive := false, connectDone := false } }
  let (armed, s) ← reaplanUpdateTimer out opts s
  return ⟨.head, if armed then 1 else 0, 0, pending, s⟩

/-- The expiration of new connections, which is kept when the clock fails. -/
def nextExpires (expires : ℤ) (s : State World) : ℤ × State World :=
  if opts.timeout > 0 then
    let (tv, world) := out.clock s.world
    ((tv.map (· + opts.timeout)).getD expires, { s with world := world })
  else (expires, s)

/-- From the head of the loop to the call of `kevent`. -/
def toKevent (r : Run World) : Run World :=
  let ctx := r.state.ctx
  { r with
    point := .kevent (¬ (opts.mdelayPerTick ≤ 0 ∧ ¬ ctx.connectDone ∧
      ctx.activeConns < opts.maxClients.toNat)) }

def runHead (rounds : ℕ) (r : Run World) : Except Fault (Run World) := do
  let ctx := r.state.ctx
  if ctx.connectDone ∧ ¬ ctx.activeConns > 0 then return { r with point := .returned }
  else if ¬ ctx.connectDone ∧ (opts.mdelayPerTick ≤ 0 ∨ ¬ ctx.throttleConnect) then
    let (expires, s) := nextExpires out opts r.expires r.state
    let (ret, newNevs, s) ← setupConnections out opts r.nevs (opts.connectsPerTick * 2).toNat
      expires rounds 0 reaplancErr s
    let r := { r with nevs := r.nevs + newNevs, expires := expires, state := s }
    if ret = reaplancErr then return { r with point := .returned }
    else
      let s :=
        { s with
          ctx :=
            { s.ctx with
              connectDone := s.ctx.connectDone || ret = reaplancDone
              throttleConnect := true } }
      return toKevent opts { r with state := s }
  else return toKevent opts r

/-- The call of `kevent` and what follows up to the head of the loop. -/
def runKevent (wait : Bool) (r : Run World) : Except Fault (Run World) :=
  let pending := r.pending || r.Arms
  match out.kevent r.state.ctx wait r.state.world with
  | (.interrupted, world) =>
    .ok { r with pending := pending, state := { r.state with world := world } }
  | (.failure, world) =>
    .ok { r with point := .returned, pending := pending, state := { r.state with world := world } }
  | (.events evs, world) => do
    let ctx := { r.state.ctx with evs := evs ++ r.state.ctx.evs.drop evs.length }
    let s ← reaplanHandleEvents out opts evs { r.state with ctx := ctx, world := world }
    let (armed, s) ← reaplanUpdateTimer out opts s
    return ⟨.head, if armed then 1 else 0, r.expires,
      pending && !decide (∃ ev ∈ evs, IsTimer ev), s⟩

/-- One part of the run; a run that has returned is started again. -/
def step (rounds : ℕ) (r : Run World) : Except Fault (Run World) :=
  match r.point with
  | .head => runHead out opts rounds r
  | .kevent wait => runKevent out opts wait r
  | .returned => runStart out opts r.pending r.state

end Yans.Net.Reaplan
