import Yans.Apps.Stored
import Yans.Library.Runs
import Yans.Util.EdsSend
import Yans.Ycl.Locality
import Yans.Ycl.MessageLimit

/-! `apps/stored/store.c`: one client with the bytes it exchanges with the daemon.
The callbacks run inside each other: `eds_client_set_on_readable` and
`eds_client_set_on_writable` call what they set before they return. Whatever a
callback calls so comes last in it, so that only `on_eds_client_send`, which
goes on to the writable half of a transition, and the event loop have something
left to do. -/
namespace Yans.Apps.Stored

open Library.Memory Library.Strings Util Util.Netstring Ycl
open Util.EdsSend (EdsClient EdsTransition Handler edsClientSend edsClientSetOnReadable
  edsClientSetOnWritable edsClientClearActions edsServiceRemoveClient)

/-- `store_req` of `ycl_msg.ycl` -/
def yclMsgStoreReq : Schema where
  fields := [⟨.data, ascii "action"⟩, ⟨.data, ascii "store_id"⟩, ⟨.data, ascii "list_must_match"⟩,
    ⟨.long, ascii "index"⟩, ⟨.data, ascii "name"⟩, ⟨.long, ascii "indexed"⟩]
  nfields_le := by decide
  isName := by decide
  distinct := by decide

/-- `store_entered_req` -/
def yclMsgStoreEnteredReq : Schema where
  fields := [⟨.data, ascii "action"⟩, ⟨.data, ascii "open_path"⟩, ⟨.long, ascii "open_flags"⟩,
    ⟨.data, ascii "rename_from"⟩, ⟨.data, ascii "rename_to"⟩]
  nfields_le := by decide
  isName := by decide
  distinct := by decide

/-- `status_resp` -/
def yclMsgStatusResp : Schema where
  fields := [ascii "okmsg", ascii "errmsg"].map (Ycl.Field.mk .data)
  nfields_le := by decide
  isName := by decide
  distinct := by decide

/-- `store_list` -/
def yclMsgStoreList : Schema where
  fields := [⟨.data, ascii "errmsg"⟩, ⟨.data, ascii "entries"⟩]
  nfields_le := by decide
  isName := by decide
  distinct := by decide

/-- The address of the message's bytes; any but `NULL` will do. -/
def msgbufAddr : Word := 1

/-- The members of `struct ycl_msg_store_req`, in the order of the fields. -/
def storeReqOf (mem : Bytes) : List Slot → StoreReq
  | [action, storeId, listMustMatch, index, name, indexed] =>
    { action := action.string msgbufAddr mem
      storeId := storeId.string msgbufAddr mem
      listMustMatch := listMustMatch.string msgbufAddr mem
      index := index.word
      name := name.string msgbufAddr mem
      indexed := indexed.word }
  | _ => ⟨none, none, none, 0, none, 0⟩

/-- The members of `struct ycl_msg_store_entered_req`. -/
def storeEnteredReqOf (mem : Bytes) : List Slot → StoreEnteredReq
  | [action, openPath, openFlags, renameFrom, renameTo] =>
    { action := action.string msgbufAddr mem
      openPath := openPath.string msgbufAddr mem
      openFlags := openFlags.word
      renameFrom := renameFrom.string msgbufAddr mem
      renameTo := renameTo.string msgbufAddr mem }
  | _ => ⟨none, none, 0, none, none⟩

/-- `ycl_msg_parse_%s`: the members, unless there is an error, and the message,
whose buffers the parser works in. -/
def parseMsg {Req : Type} (schema : Schema) (reqOf : Bytes → List Slot → Req) (msg : YclMsg) :
    Option Req × YclMsg :=
  let parsed := yclMsgParse schema msgbufAddr 0 msg
  (if parsed.status = .ok then some (reqOf parsed.mem parsed.r) else none,
    { msg with buf := msg.buf.store 0 parsed.mem, mbuf := parsed.mbuf })

def yclMsgParseStoreReq : YclMsg → Option StoreReq × YclMsg := parseMsg yclMsgStoreReq storeReqOf

def yclMsgParseStoreEnteredReq : YclMsg → Option StoreEnteredReq × YclMsg :=
  parseMsg yclMsgStoreEnteredReq storeEnteredReqOf

/-- A string that is NULL is left out like an empty one. -/
def yclMsgCreateStatusResp (okmsg errmsg : Option Bytes) : YclMsg → YclMsg :=
  yclMsgCreate yclMsgStatusResp (@Members.cons ⟨.data, ascii "okmsg"⟩ _ (okmsg.getD [])
    (@Members.cons ⟨.data, ascii "errmsg"⟩ _ (errmsg.getD []) .nil))

def yclMsgCreateStoreList (errmsg : Option Bytes) (entries : Bytes) : YclMsg → YclMsg :=
  yclMsgCreate yclMsgStoreList (@Members.cons ⟨.data, ascii "errmsg"⟩ _ (errmsg.getD [])
    (@Members.cons ⟨.data, ascii "entries"⟩ _ entries .nil))

inductive Callback where
  | storeOnReadable
  | onReadreq
  | onReadentered
  | onPostEnterResponse
  | onSentStoreList
  | onSendfd
  | onIndexResponse
deriving DecidableEq

/-- The code that is to be run next, but for the event loop and the rest of
`on_eds_client_send`. -/
inductive Running where
  | callback (cb : Callback)
  | onEdsClientSend
deriving DecidableEq

def runningOf : Handler Callback → Running
  | .onEdsClientSend => .onEdsClientSend
  | .callback cb => .callback cb

/-- Where the event loop is: in `select`, in front of `on_readable` or of
`on_writable`, or in front of the test for a client without actions. -/
inductive Loop where
  | select
  | onReadable (readable writable : Bool)
  | onWritable (writable : Bool)
  | unused
deriving DecidableEq

/-- What a client receives: a byte of a message, or a descriptor with the
`errno` that is sent along. -/
inductive Item where
  | byte (b : UInt8)
  | fd (fd errno : ℤ)
deriving DecidableEq

/-- `waiting` counts the calls of `on_eds_client_send` that wait for the return
of `eds_client_set_on_readable`. The descriptor `fd` holds what is going to be
read; `sent` is what has been sent so far. -/
structure Server (World : Type) where
  client : EdsClient Callback
  running : Option Running
  waiting : ℕ
  loop : Loop
  hasMsgbuf : Bool
  msgbuf : YclMsg
  fd : Fd
  store : State World
  sent : List Item

/-- What the code cannot determine: when `select` returns and with what, how much
a `write` accepts, and whether a descriptor can be sent. -/
inductive Choice where
  | select (readable writable : Bool)
  | go
  | write (accepted : Option ℕ)
  | sendmsg (accepted : Bool)
deriving DecidableEq

namespace Server

variable {World : Type}

/-! Calls of the event loop's functions -/

def setOnReadable (cb : Option Callback) (s : Server World) : Server World :=
  let (client, cb) := edsClientSetOnReadable s.client cb false
  { s with client := client, running := cb.map .callback }

def setOnWritable (handler : Option (Handler Callback)) (s : Server World) : Server World :=
  let (client, handler) := edsClientSetOnWritable s.client handler false
  { s with client := client, running := handler.map runningOf }

def clearActions (s : Server World) : Server World :=
  { s with client := edsClientClearActions s.client, running := none }

/-- `eds_client_send` with the message in `msgbuf`. -/
def send (next : Option (EdsTransition Callback)) (s : Server World) : Server World :=
  let (client, handler) := edsClientSend s.client s.msgbuf.buf.contents next
  { s with client := client, running := handler.map runningOf }

/-- From the label `completed` of `on_eds_client_send` to the return of
`eds_client_set_on_readable`. -/
def completed (s : Server World) : Server World :=
  let s := { s with waiting := s.waiting + 1 }
  if s.client.trans.tflread then
    let client := { s.client with trans := { s.client.trans with tflread := false } }
    setOnReadable client.trans.onReadable { s with client := client }
  else { s with running := none }

def onEdsClientSend (accepted : Option ℕ) (s : Server World) : Server World :=
  match accepted with
  | none => { s with running := none }
  | some n =>
    let data := s.client.wrdata
    let s :=
      { s with
        client := { s.client with wrdata := data.drop n }
        sent := s.sent ++ (data.take n).map .byte
        running := none }
    if s.client.wrdata = [] then s.completed else s

/-- The rest of `on_eds_client_send`. -/
def afterReadable (s : Server World) : Server World :=
  let s := { s with waiting := s.waiting - 1 }
  if s.client.trans.tflwrite then
    let client := { s.client with trans := { s.client.trans with tflwrite := false } }
    setOnWritable (client.trans.onWritable.map .callback) { s with client := client }
  else s

/-- The transition that returns to `on_readentered`. -/
def afterEntered : EdsTransition Callback := ⟨true, true, some .onPostEnterResponse, none⟩

/-- `after_send` of `handle_store_list` -/
def afterList : EdsTransition Callback := ⟨true, true, some .onSentStoreList, some .onSentStoreList⟩

def writeErrResponse (errmsg : Option Bytes) (s : Server World) : Server World :=
  let s := s.clearActions
  { s with msgbuf := yclMsgCreateStatusResp none errmsg s.msgbuf }.send none

def sendEnteredResponse (okmsg errmsg : Option Bytes) (s : Server World) : Server World :=
  { s with msgbuf := yclMsgCreateStatusResp okmsg errmsg s.msgbuf }.send (some afterEntered)

/-- The end of `handle_store_list`; the list itself is kept until it is sent. -/
def sendStoreList (errmsg : Option Bytes) (entries : Bytes) (s : Server World) : Server World :=
  { s with
    msgbuf := yclMsgCreateStoreList errmsg entries s.msgbuf
    store := { s.store with cli := { s.store.cli with buf := entries } } }.send (some afterList)

/-- The branches of `on_readreq`, by their answers. -/
def answerReq (response : Response) (s : Server World) : Server World :=
  match response with
  | .list errmsg entries => s.sendStoreList errmsg entries
  | .fd _ _ => (s.setOnReadable none).setOnWritable (some (.callback .onIndexResponse))
  | .status okmsg errmsg =>
    if s.store.phase = .finished then s.writeErrResponse errmsg
    else (s.setOnReadable none).sendEnteredResponse okmsg errmsg

/-- The branches of `on_readentered`; a renaming one leaves `on_readable` as it
is. -/
def answerEntered (response : Response) (s : Server World) : Server World :=
  match response with
  | .list errmsg entries => s.sendStoreList errmsg entries
  | .fd _ _ => (s.setOnReadable none).setOnWritable (some (.callback .onSendfd))
  | .status okmsg errmsg =>
    if s.store.phase = .finished then s.writeErrResponse errmsg
    else s.sendEnteredResponse okmsg errmsg

def storeOnReadable (s : Server World) : Server World :=
  { s with
    hasMsgbuf := true
    msgbuf := if s.hasMsgbuf then yclMsgReset s.msgbuf else yclMsgInit }.setOnReadable
      (some .onReadreq)

/-- A call of `ycl_recvmsg`, and what is done with the message. -/
def receive (onMessage : Server World → Server World) (s : Server World) : Server World :=
  let (result, msgbuf, fd) := yclRecvmsg dflMaxmsgsz s.msgbuf s.fd
  let s := { s with msgbuf := msgbuf, fd := fd, running := none }
  match result with
  | .again => s
  | .err _ => s.clearActions
  | .ok => onMessage s

/-- `on_readreq`, once the message is there. -/
def serveReq (out : Outside World) (s : Server World) : Server World :=
  let (req, msgbuf) := yclMsgParseStoreReq s.msgbuf
  let (response, store) := Stored.onReadreq out req s.store
  { s with msgbuf := msgbuf, store := store }.answerReq response

def onReadreq (out : Outside World) : Server World → Server World := receive (serveReq out)

/-- `on_readentered`, once the message is there. -/
def serveEntered (out : Outside World) (s : Server World) : Server World :=
  let (req, msgbuf) := yclMsgParseStoreEnteredReq s.msgbuf
  let (response, store) := Stored.onReadentered out req s.store
  { s with msgbuf := msgbuf, store := store }.answerEntered response

def onReadentered (out : Outside World) : Server World → Server World := receive (serveEntered out)

def onPostEnterResponse (s : Server World) : Server World :=
  { s with msgbuf := yclMsgReset s.msgbuf }.setOnReadable (some .onReadentered)

def onSentStoreList (s : Server World) : Server World :=
  let s :=
    { s with
      store := { s.store with cli := { s.store.cli with buf := [] } }
      msgbuf := yclMsgReset s.msgbuf }
  (s.setOnWritable none).setOnReadable (some .onReadreq)

/-- `ycl_sendfd` with the descriptor of the client. -/
def sendfd (s : Server World) : Server World :=
  { s with sent := s.sent ++ [.fd s.store.cli.openFd s.store.cli.openErrno], running := none }

def onSendfd (accepted : Bool) (s : Server World) : Server World :=
  if accepted then (s.sendfd.setOnWritable none).setOnReadable (some .onReadentered)
  else { s with running := none }

def onIndexResponse (accepted : Bool) (s : Server World) : Server World :=
  if accepted then s.sendfd.clearActions else { s with running := none }

def loopStep (s : Server World) : Option (Server World) :=
  match s.loop with
  | .select => none
  | .onReadable readable writable =>
    if s.client.removed then some { s with loop := .select }
    else
      let cb := if readable then s.client.onReadable else none
      some { s with loop := .onWritable writable, running := cb.map .callback }
  | .onWritable writable =>
    if s.client.removed then some { s with loop := .select }
    else
      let handler := if writable then s.client.onWritable else none
      some { s with loop := .unused, running := handler.map runningOf }
  | .unused =>
    if ¬ s.client.rsuspend ∧ s.client.onReadable = none ∧ s.client.onWritable = none then
      some { s with loop := .select, client := (edsServiceRemoveClient s.client).1 }
    else some { s with loop := .select }

/-- One step of the code; `none` where it does not have that choice. -/
def step (out : Outside World) (s : Server World) (choice : Choice) : Option (Server World) :=
  match s.running, choice with
  | some (.callback .storeOnReadable), .go => some s.storeOnReadable
  | some (.callback .onReadreq), .go => some (s.onReadreq out)
  | some (.callback .onReadentered), .go => some (s.onReadentered out)
  | some (.callback .onPostEnterResponse), .go => some s.onPostEnterResponse
  | some (.callback .onSentStoreList), .go => some s.onSentStoreList
  | some (.callback .onSendfd), .sendmsg accepted => some (s.onSendfd accepted)
  | some (.callback .onIndexResponse), .sendmsg accepted => some (s.onIndexResponse accepted)
  | some .onEdsClientSend, .go => if s.client.wrdata = [] then some s.completed else none
  | some .onEdsClientSend, .write accepted =>
    if s.client.wrdata ≠ [] ∧ accepted.getD 0 ≤ s.client.wrdata.length then
      some (s.onEdsClientSend accepted)
    else none
  | none, .go => if s.waiting > 0 then some s.afterReadable else s.loopStep
  | none, .select readable writable =>
    if s.waiting = 0 ∧ s.loop = .select ∧ (readable → s.client.rfd) ∧ (writable → s.client.wfd) then
      some { s with loop := .onReadable readable writable }
    else none
  | _, _ => none

/-- `eds_service_add_client` for a descriptor that reads return `events` from;
`msgbuf` and `cli` are what the client before has left in the slot. -/
def start (hasMsgbuf : Bool) (msgbuf : YclMsg) (cli : StoreCli) (world : World)
    (events : List ReadEvent) : Server World where
  client :=
    { onReadable := some .storeOnReadable
      onWritable := none
      onDone := none
      removed := false
      rsuspend := false
      trans := ⟨false, false, none, none⟩
      wrdata := []
      rfd := true
      wfd := false }
  running := none
  waiting := 0
  loop := .select
  hasMsgbuf := hasMsgbuf
  msgbuf := msgbuf
  fd := ⟨events, []⟩
  store := Stored.storeOnReadable cli world
  sent := []

end Server

end Yans.Apps.Stored
