import Yans.Library.Memory
import Yans.Net.ReaplanAccounting

/-! `apps/scan/bgrab.c`: the callbacks of the banner grabber. They run in the
slots of `lib/net/reaplan.c`; of a slot, what they keep in it is here. The
network and the TLS library are a structure of functions on their state. -/
namespace Yans.Apps.Bgrab

open Library.Memory Net.Reaplan

/-- The result of a read; a failure says whether `errno` is `EAGAIN`. -/
inductive Received where
  | bytes (data : Bytes)
  | failed (again : Bool)

structure Network (World Dst : Type) where
  /-- `tcpsrc_connect` -/
  connect : Dst → World → ℤ × World
  /-- `SSL_new` and `SSL_set_fd`. -/
  sslNew : World → Bool × World
  /-- `read` or `SSL_read`; no bytes are the end of the stream. -/
  read : ℕ → World → Received × World
  /-- `payload_build`, and `errno` when it fails. -/
  payload : Dst → World → Option Bytes × Bool × World
  /-- `send` or `SSL_write`. -/
  send : ℕ → Bytes → World → Reply × World
  sslConnect : ℕ → World → Handshake × World
  clock : World → Option ℤ × World
  kevent : ReaplanCtx → Bool → World → Polled × World

/-- The part of a connection that the callbacks use. Its destination has the
number with which it has been taken. -/
structure Conn (Dst : Type) where
  udata : Option (ℕ × Dst)
  nread : UInt32
  nwritten : UInt32

/-- The state of the callbacks, with what has been received from which
destination, which of them something has been sent to, and the calls of
`write_banner`. -/
structure Ctx (World Dst : Type) where
  dsts : List Dst
  ntaken : ℕ
  conns : ℕ → Conn Dst
  received : List (ℕ × Bytes)
  sent : List ℕ
  banners : List (ℕ × Bytes)
  net : World

structure BgrabOpts where
  maxClients : UInt32
  timeout : ℤ
  connectsPerTick : UInt32
  mdelayPerTick : UInt32
  sslCtx : Bool

def recvbufSize : ℕ := 8192

variable {World Dst : Type}

def setConn (i : ℕ) (conn : Conn Dst) (ctx : Ctx World Dst) : Ctx World Dst :=
  { ctx with conns := Function.update ctx.conns i conn }

@[simp] theorem conns_setConn_self (i : ℕ) (conn : Conn Dst) (ctx : Ctx World Dst) :
    (setConn i conn ctx).conns i = conn := Function.update_self ..

theorem conns_setConn_of_ne {i j : ℕ} (hj : j ≠ i) (conn : Conn Dst) (ctx : Ctx World Dst) :
    (setConn i conn ctx).conns j = ctx.conns j := Function.update_of_ne hj ..

/-- The call, whether or not the message gets into the output file. -/
def writeBanner (i : ℕ) (banner : Bytes) (ctx : Ctx World Dst) : Ctx World Dst :=
  match (ctx.conns i).udata with
  | some (k, _) => { ctx with banners := ctx.banners ++ [(k, banner)] }
  | none => ctx

def onDone (i : ℕ) (ctx : Ctx World Dst) : Ctx World Dst :=
  if (ctx.conns i).nwritten > 0 ∧ (ctx.conns i).nread = 0 then writeBanner i [] ctx else ctx

variable (net : Network World Dst) (opts : BgrabOpts)

/-- What `bgrab_next_dst` gives becomes the data of the connection. -/
def takeDst (i : ℕ) (dst : Dst) (dsts : List Dst) (ctx : Ctx World Dst) : Ctx World Dst :=
  setConn i { ctx.conns i with udata := some (ctx.ntaken, dst) }
    { ctx with dsts := dsts, ntaken := ctx.ntaken + 1 }

def reaplanRegisterConn (ctx : Ctx World Dst) : Bool × Ctx World Dst :=
  if opts.sslCtx then
    let (made, n) := net.sslNew ctx.net
    (made, { ctx with net := n })
  else (true, ctx)

/-- The loop of `on_connect` over the destinations that are left. -/
def connectLoop (i : ℕ) : List Dst → Ctx World Dst → Connected × Ctx World Dst
  | [], ctx => (⟨reaplancDone, -1, false, false, false⟩, ctx)
  | dst :: dsts, ctx =>
    let ctx := takeDst i dst dsts ctx
    let (fd, n) := net.connect dst ctx.net
    let ctx := { ctx with net := n }
    if fd < 0 then connectLoop i dsts (onDone i ctx)
    else
      let (registered, ctx) := reaplanRegisterConn net opts ctx
      if ¬ registered then connectLoop i dsts (onDone i ctx)
      else (⟨reaplancOk, fd, true, true, opts.sslCtx⟩, ctx)

def onConnect (i : ℕ) (ctx : Ctx World Dst) : Connected × Ctx World Dst :=
  connectLoop net opts i ctx.dsts (setConn i ⟨none, 0, 0⟩ ctx)

/-- The number of bytes goes into the counter of the connection. -/
def reaplanConnRead (i : ℕ) (ctx : Ctx World Dst) : Received × Ctx World Dst :=
  let (received, n) := net.read i ctx.net
  let ctx := { ctx with net := n }
  match received with
  | .failed again => (.failed again, ctx)
  | .bytes [] => (.bytes [], ctx)
  | .bytes (byte :: data) =>
    let conn := ctx.conns i
    let nread := conn.nread + UInt32.ofNat (data.length + 1)
    let log := (conn.udata.map fun dst => (dst.1, byte :: data)).toList
    (.bytes (byte :: data),
      setConn i { conn with nread := nread } { ctx with received := ctx.received ++ log })

def onReadable (i : ℕ) (ctx : Ctx World Dst) : Reply × Ctx World Dst :=
  match reaplanConnRead net i ctx with
  | (.failed again, ctx) => (⟨-1, again⟩, ctx)
  | (.bytes [], ctx) => (⟨0, false⟩, ctx)
  | (.bytes (byte :: data), ctx) => (⟨0, false⟩, writeBanner i (byte :: data) ctx)

def reaplanConnWrite (i : ℕ) (data : Bytes) (ctx : Ctx World Dst) : Reply × Ctx World Dst :=
  let (reply, n) := net.send i data ctx.net
  let ctx := { ctx with net := n }
  if reply.ret > 0 then
    let conn := ctx.conns i
    let log := (conn.udata.map (·.1)).toList
    (reply, setConn i { conn with nwritten := conn.nwritten + UInt32.ofNat reply.ret.toNat }
      { ctx with sent := ctx.sent ++ log })
  else (reply, ctx)

def onWritable (i : ℕ) (ctx : Ctx World Dst) : Reply × Ctx World Dst :=
  match (ctx.conns i).udata with
  | none => (⟨-1, false⟩, ctx)
  | some (_, dst) =>
    match net.payload dst ctx.net with
    | (none, again, n) => (⟨-1, again⟩, { ctx with net := n })
    | (some data, _, n) => reaplanConnWrite net i data { ctx with net := n }

/-- The state of the callbacks with that of the network. -/
def withNet {α : Type} (call : World → α × World) (ctx : Ctx World Dst) : α × Ctx World Dst :=
  let (result, n) := call ctx.net
  (result, { ctx with net := n })

def callbacks : Outside (Ctx World Dst) where
  onConnect := onConnect net opts
  onReadable := onReadable net
  onWritable := onWritable net
  onDone := onDone
  sslConnect i := withNet (net.sslConnect i)
  clock := withNet net.clock
  kevent reaplan wait := withNet (net.kevent reaplan wait)

/-- The options of `bgrab_run`. -/
def rpopts : ReaplanOpts where
  onConnect := true
  onDone := true
  timeout := opts.timeout
  maxClients := opts.maxClients
  connectsPerTick := opts.connectsPerTick
  mdelayPerTick := opts.mdelayPerTick
  sslCtx := opts.sslCtx

/-- Before `reaplan_run`. The slots are zeroed one by one, when they are used. -/
def start (dsts : List Dst) (n : World) : Ctx World Dst :=
  ⟨dsts, 0, fun _ => ⟨none, 0, 0⟩, [], [], [], n⟩

/-- What is left open after `reaplan_run` is closed; the set of ids is not used
any more. -/
def reaplanCleanup (s : State (Ctx World Dst)) : State (Ctx World Dst) :=
  (List.range opts.maxClients.toNat).foldl (fun s i =>
    if 0 ≤ (s.ctx.conns i).fd then reaplanConnClose (callbacks net opts) (rpopts opts) i s else s) s

/-- What a run relies on: `read` fills the buffer at most, and `kevent` reports
no more events than it was asked for, each filter of an open descriptor once. -/
structure Network.Lawful (net : Network World Dst) (opts : BgrabOpts) : Prop where
  read_length : ∀ {i n data n'}, net.read i n = (.bytes data, n') → data.length ≤ recvbufSize
  events_length : ∀ {reaplan wait n evs n'}, net.kevent reaplan wait n = (.events evs, n') →
    evs.length ≤ opts.connectsPerTick.toNat
  events_open : ∀ {reaplan wait n evs n'}, net.kevent reaplan wait n = (.events evs, n') →
    ∀ ev ∈ evs, ev.filter ≠ .timer →
      ev.udata < opts.maxClients.toNat ∧ 0 ≤ (reaplan.conns ev.udata).fd
  events_once : ∀ {reaplan wait n evs n'}, net.kevent reaplan wait n = (.events evs, n') →
    evs.Pairwise fun ev ev' => ev.filter ≠ .timer → ev.udata = ev'.udata → ev.filter ≠ ev'.filter

/-- What has been received from the destination of this number. -/
def receivedFrom (ctx : Ctx World Dst) (k : ℕ) : List Bytes :=
  (ctx.received.filter (·.1 = k)).map (·.2)

def bannersOf (ctx : Ctx World Dst) (k : ℕ) : List Bytes :=
  (ctx.banners.filter (·.1 = k)).map (·.2)

/-- The banner of a destination, if there is one, is all that has been received;
it is empty only if something has been sent. -/
structure OneBanner (ctx : Ctx World Dst) (k : ℕ) : Prop where
  once : (bannersOf ctx k).length ≤ 1
  received : receivedFrom ctx k ≠ [] → bannersOf ctx k = [(receivedFrom ctx k).flatten]
  empty : [] ∈ bannersOf ctx k → k ∈ ctx.sent ∧ receivedFrom ctx k = []
  taken : bannersOf ctx k ≠ [] → k < ctx.ntaken

end Yans.Apps.Bgrab
