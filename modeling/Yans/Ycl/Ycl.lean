import Yans.Util.Io
import Yans.Util.Netstring

/-! `lib/ycl/ycl.c`: the message buffers and the receiving side. -/
namespace Yans.Ycl

open Library.Memory Util Util.Netstring

structure YclMsg where
  buf : Buf
  mbuf : Buf
  optbuf : Buf
  nextoff : ℕ

/-- `BUFINITSZ`, the initial size of one buffer. -/
def bufinitsz : ℕ := 8192

/-- The optional buffer is allocated at its first use; it starts out empty
then. -/
def yclMsgInit : YclMsg where
  buf := Buf.init bufinitsz
  mbuf := Buf.init bufinitsz
  optbuf := Buf.init bufinitsz
  nextoff := 0

def yclMsgReset (msg : YclMsg) : YclMsg where
  buf := msg.buf.clear
  mbuf := msg.mbuf.clear
  optbuf := msg.optbuf.clear
  nextoff := 0

inductive YclErr where
  | parse (code : NetstringErr)
  | io
  | termination
  | toolarge
deriving DecidableEq

inductive YclResult where
  | ok
  | again
  | err (err : YclErr)
deriving DecidableEq

/-- Bring the data behind the previous message to the start of the buffer and
see whether it is a complete message already. -/
def checkMsg (msg : YclMsg) : Except NetstringErr Unit × YclMsg :=
  if msg.nextoff > 0 then
    if msg.nextoff < msg.buf.len then
      let msg := { msg with buf := msg.buf.shiftDown msg.nextoff }
      match netstringTryparse msg.buf.contents with
      | .ok nextoff => (.ok (), { msg with nextoff := nextoff })
      | .error .errincomplete => (.error .errincomplete, { msg with nextoff := 0 })
      | .error code => (.error code, msg)
    else (.error .errincomplete, { msg with buf := msg.buf.clear, nextoff := 0 })
  else (.error .errincomplete, { msg with nextoff := 0 })

/-- The loop of `ycl_recvmsg`: an empty buffer is not handed to the parser. -/
def recvLoop (maxMsgsz : ℕ) (msg : YclMsg) (fd : Fd) : YclResult × YclMsg × Fd :=
  match if msg.buf.len = 0 then .error .errincomplete
      else netstringTryparse msg.buf.contents with
  | .ok nextoff => (.ok, { msg with nextoff := nextoff }, fd)
  | .error .errincomplete =>
    match _hread : ioReadbuf fd msg.buf with
    | (.again, buf, fd) => (.again, { msg with buf := buf }, fd)
    | (.err, buf, fd) => (.err .io, { msg with buf := buf }, fd)
    | (.ok nread, buf, after) =>
      if _hmore : nread = 0 then (.err .termination, { msg with buf := buf }, after)
      else if buf.len ≥ maxMsgsz then (.err .toolarge, { msg with buf := buf }, after)
      else recvLoop maxMsgsz { msg with buf := buf } after
  | .error code => (.err (.parse code), msg, fd)
termination_by fd.weight
decreasing_by exact ioReadbuf_weight _hread _hmore

def yclRecvmsg (maxMsgsz : ℕ) (msg : YclMsg) (fd : Fd) : YclResult × YclMsg × Fd :=
  match checkMsg msg with
  | (.ok (), msg) => (.ok, msg, fd)
  | (.error .errincomplete, msg) => recvLoop maxMsgsz msg fd
  | (.error code, msg) => (.err (.parse code), msg, fd)

end Yans.Ycl
