import Yans.Apps.KnegdSlots
import Yans.Ycl.Locality
import Yans.Ycl.Reassembly

/-! `apps/knegd/kng.c`: the clients of the daemon with the bytes they exchange.
Each descriptor has a slot with two buffers, `msgbuf` for the messages in both
directions and `respbuf` for the text of a response. They are kept when the next
client gets the descriptor. -/
namespace Yans.Apps.Knegd

open Library.Memory Library.Strings Library.Runs Util Util.Netstring Ycl

/-- `status_resp` of `ycl_msg.ycl` -/
def yclMsgStatusResp : Schema where
  fields := [⟨.data, ascii "okmsg"⟩, ⟨.data, ascii "errmsg"⟩]
  nfields_le := by decide
  isName := by decide
  distinct := by decide

/-- `knegd_req` of `ycl_msg.ycl` -/
def yclMsgKnegdReq : Schema where
  fields := [⟨.long, ascii "timeout"⟩, ⟨.data, ascii "action"⟩, ⟨.data, ascii "id"⟩,
    ⟨.data, ascii "name"⟩, ⟨.data, ascii "type"⟩]
  nfields_le := by decide
  isName := by decide
  distinct := by decide

/-- The address of the message's bytes; any but `NULL` will do. -/
def msgbufAddr : Word := 1

def stringOf (mem : Bytes) : Ycl.Slot → Option Bytes
  | .data string =>
    if string.data = 0 then none
    else some (slice mem (string.data - msgbufAddr).toNat string.len.toNat)
  | _ => none

def longOf : Ycl.Slot → ℤ
  | .long l => l.toInt
  | _ => 0

/-- The members of the message struct, in the order of the fields. -/
def reqOf (mem : Bytes) : List Ycl.Slot → KnegdReq
  | [timeout, action, id, name, type] =>
    ⟨longOf timeout, stringOf mem action, stringOf mem id, stringOf mem name, stringOf mem type⟩
  | _ => ⟨0, none, none, none, none⟩

def yclMsgParseKnegdReq (msg : YclMsg) : Received :=
  let parsed := yclMsgParse yclMsgKnegdReq msgbufAddr 0 msg
  if parsed.status = .ok then .request (reqOf parsed.mem parsed.r) else .malformed

def parsedMsgbuf (msg : YclMsg) : YclMsg :=
  let parsed := yclMsgParse yclMsgKnegdReq msgbufAddr 0 msg
  if h : msg.buf.len ≤ parsed.mem.length then
    { msg with buf := ⟨parsed.mem, msg.buf.len, h⟩, mbuf := parsed.mbuf }
  else msg

def membersOf : Response → Members yclMsgStatusResp.fields
  | .ok msg => @Members.cons ⟨.data, ascii "okmsg"⟩ _ msg
    (@Members.cons ⟨.data, ascii "errmsg"⟩ _ ([] : Bytes) .nil)
  | .err msg => @Members.cons ⟨.data, ascii "okmsg"⟩ _ ([] : Bytes)
    (@Members.cons ⟨.data, ascii "errmsg"⟩ _ msg .nil)

/-- The bytes that are sent, if any, and `msgbuf` after it. -/
def sendResponse (response : Option Response) (msg : YclMsg) : Option Bytes × YclMsg :=
  match response with
  | none => (none, msg)
  | some response =>
    let msg := yclMsgCreate yclMsgStatusResp (membersOf response) msg
    (some msg.buf.contents, msg)

structure Daemon (World : Type) where
  state : State World
  msgbufs : ℤ → Option YclMsg
  /-- `on_readreq` is set for the client. -/
  reading : ℤ → Bool

def dflMaxmsgsz : ℕ := 1024 * 1024

/-- A call of `ycl_recvmsg`, given what its reads return, and the parser. It
returns as soon as a read would block or the message is there: `none` if there
are reads left then. -/
def receive (reads : List ReadEvent) (msg : YclMsg) : Option (Received × YclMsg) :=
  let (result, msg, fd) := yclRecvmsg dflMaxmsgsz msg ⟨reads, []⟩
  if fd.events = [] then
    match result with
    | .again => some (.again, msg)
    | .err _ => some (.failure, msg)
    | .ok => some (yclMsgParseKnegdReq msg, parsedMsgbuf msg)
  else none

variable {World : Type} (out : Outside World) (opts : KngOpts)

def Received.isAgain : Received → Bool
  | .again => true
  | _ => false

/-- `on_readreq`; the actions of the client are cleared unless it has to go on
reading. -/
def readreq (fd : ℤ) (reads : List ReadEvent) (d : Daemon World) :
    Option (Option Bytes × Daemon World) := do
  let msg ← d.msgbufs fd
  let respbuf ← d.state.respbufs fd
  let (received, msg) ← receive reads msg
  let (response, state) ← onReadreq out opts fd respbuf received d.state
  let (bytes, msg) := sendResponse response msg
  return (bytes,
    { state := state
      msgbufs := Function.update d.msgbufs fd (some msg)
      reading := Function.update d.reading fd received.isAgain })

def readable (fd : ℤ) (d : Daemon World) : Daemon World where
  state := kngOnReadable fd d.state
  msgbufs := Function.update d.msgbufs fd
    (some (match d.msgbufs fd with
      | some msg => yclMsgReset msg
      | none => yclMsgInit))
  reading := Function.update d.reading fd true

inductive ClientEvent (World : Type) where
  | readable (fd : ℤ)
  | readreq (fd : ℤ) (reads : List ReadEvent)
  | finalize (fd : ℤ)
  | reapedChild (pid : ℤ)
  | tick
  | elapse (world : World)

def other (rounds : ℕ) (event : Event World) (d : Daemon World) :
    Option (Option Bytes × Daemon World) := do
  let (_, state) ← step out opts rounds d.state event
  return (none, { d with state := state })

/-- A descriptor is given to a new client when the one before it is done. -/
def daemonStep (rounds : ℕ) (d : Daemon World) :
    ClientEvent World → Option (Option Bytes × Daemon World)
  | .readable fd => if d.reading fd then none else some (none, readable fd d)
  | .readreq fd reads => if d.reading fd then readreq out opts fd reads d else none
  | .finalize fd =>
    some (none,
      { state := kngOnFinalize fd d.state
        msgbufs := Function.update d.msgbufs fd none
        reading := Function.update d.reading fd false })
  | .reapedChild pid => other out opts rounds (.reapedChild pid) d
  | .tick => other out opts rounds .tick d
  | .elapse world => other out opts rounds (.elapse world) d

def DaemonInitial (d : Daemon World) : Prop :=
  Initial out opts d.state ∧ d.msgbufs = (fun _ => none) ∧ d.reading = fun _ => false

def DaemonStep (d : Daemon World) (event : ClientEvent World) (after : Daemon World) : Prop :=
  ∃ rounds bytes, daemonStep out opts rounds d event = some (bytes, after)

def Reached : Daemon World → Prop :=
  Reachable (DaemonInitial out opts) (fun _ _ => True) (DaemonStep out opts)

variable {out opts}

theorem readreq_eq_some {fd : ℤ} {reads : List ReadEvent} {d after : Daemon World}
    {bytes : Option Bytes} (h : readreq out opts fd reads d = some (bytes, after)) :
    ∃ msg respbuf received parsed response state, d.msgbufs fd = some msg ∧
      d.state.respbufs fd = some respbuf ∧ receive reads msg = some (received, parsed) ∧
      onReadreq out opts fd respbuf received d.state = some (response, state) ∧
      bytes = (sendResponse response parsed).1 ∧
      after =
        { state := state
          msgbufs := Function.update d.msgbufs fd (some (sendResponse response parsed).2)
          reading := Function.update d.reading fd received.isAgain } := by
  obtain ⟨msg, hmsg, h⟩ := Option.bind_eq_some_iff.mp h
  obtain ⟨respbuf, hrespbuf, h⟩ := Option.bind_eq_some_iff.mp h
  obtain ⟨⟨received, parsed⟩, hreceive, h⟩ := Option.bind_eq_some_iff.mp h
  obtain ⟨⟨response, state⟩, hread, h⟩ := Option.bind_eq_some_iff.mp h
  cases h
  exact ⟨msg, respbuf, received, parsed, response, state, hmsg, hrespbuf, hreceive, hread, rfl, rfl⟩

theorem other_eq_some {rounds : ℕ} {event : Event World} {d after : Daemon World}
    {bytes : Option Bytes} (h : other out opts rounds event d = some (bytes, after)) :
    Step out opts d.state event after.state ∧ after.msgbufs = d.msgbufs ∧
      after.reading = d.reading := by
  obtain ⟨⟨response, state⟩, hstate, hafter⟩ := Option.bind_eq_some_iff.mp h
  cases hafter
  exact ⟨⟨rounds, response, hstate⟩, rfl, rfl⟩

end Yans.Apps.Knegd
