import Yans.Util.Io

/-! `lib/net/fcgi.c`: the responder's side of a FastCGI connection. Records are
collected in the message buffer, parameters and body in buffers of their own. -/
namespace Yans.Net.Fcgi

open Library.Memory Util

/-- The request types and record types the responder looks at. -/
def fcgiBeginRequest : UInt8 := 1

def fcgiParams : UInt8 := 4

def fcgiStdin : UInt8 := 5

/-- `struct fcgi_header`; the id is kept as it stands in memory. -/
structure FcgiHeader where
  version : UInt8
  t : UInt8
  id : ℕ
  clenB1 : UInt8
  clenB0 : UInt8
  plen : UInt8
  reserved : UInt8
deriving DecidableEq

/-- `FCGI_CLEN` -/
def FcgiHeader.clen (hdr : FcgiHeader) : ℕ := hdr.clenB1.toNat * 256 + hdr.clenB0.toNat

def headerSize : ℕ := 8

def readHeader (data : Bytes) : FcgiHeader where
  version := byteAt data 0
  t := byteAt data 1
  id := readWord 2 data 2
  clenB1 := byteAt data 4
  clenB0 := byteAt data 5
  plen := byteAt data 6
  reserved := byteAt data 7

/-- The record at the start of the message buffer, as `struct fcgi_msg` refers
to it. -/
structure FcgiMsg where
  header : FcgiHeader
  data : Bytes
deriving DecidableEq

def readMsg (data : Bytes) : FcgiMsg where
  header := readHeader data
  data := slice data headerSize (readHeader data).clen

/-- The size of the record that starts with these bytes. -/
def msglen (data : Bytes) : ℕ :=
  headerSize + (readHeader data).clen + (readHeader data).plen.toNat

inductive ReadState where
  | incomplete
  | complete
deriving DecidableEq

inductive ParamState where
  | expectBeginRequest
  | expectParams
  | done
deriving DecidableEq

inductive FcgiErr where
  | closed
  | unexpectedmsg
  | invalidstate
  | paramsize
  | bodysize
deriving DecidableEq

structure FcgiCli where
  id : ℕ
  buf : Buf
  params : Buf
  body : Buf
  readState : ReadState
  paramState : ParamState
  errcode : Option FcgiErr
  io : Fd

/-- `INIT_MBUFSZ`, `INIT_PBUFSZ` and `INIT_BBUFSZ` -/
def initBufsz : ℕ := 2048

def fcgiCliInit (fd : Fd) : FcgiCli where
  id := 0
  buf := Buf.init initBufsz
  params := Buf.init initBufsz
  body := Buf.init initBufsz
  readState := .incomplete
  paramState := .expectBeginRequest
  errcode := none
  io := fd

inductive FcgiResult where
  | ok
  | again
  | err
  | aborted
deriving DecidableEq

def fcgiIsCompleteMsg (buf : Buf) : Bool :=
  if buf.len < headerSize then false
  else decide (msglen buf.contents ≤ buf.len)

/-- Read until a record is complete, or nothing comes. -/
def readLoop (buf : Buf) (fd : Fd) : IoResult × Buf × Fd :=
  match _hread : ioReadbuf fd buf with
  | (.ok nread, buf, after) =>
    if fcgiIsCompleteMsg buf then (.ok nread, buf, after)
    else if _hmore : nread > 0 then readLoop buf after
    else (.ok nread, buf, after)
  | stopped => stopped
termination_by fd.weight
decreasing_by exact ioReadbuf_weight _hread (Nat.ne_of_gt _hmore)

/-- The part of `fcgi_cli_readmsg` that reads. -/
def receive (fcgi : FcgiCli) : FcgiResult × FcgiCli :=
  match readLoop fcgi.buf fcgi.io with
  | (ret, buf, fd) =>
    let fcgi := { fcgi with buf := buf, io := fd }
    if fcgiIsCompleteMsg buf then (.ok, { fcgi with readState := .complete })
    else
      match ret with
      | .again => (.again, fcgi)
      | .ok 0 => (.err, { fcgi with errcode := some .closed })
      | _ => (.err, fcgi)

/-- From the label `again` to the label `got_msg`: drop the record that was
delivered last, then look for the next one, first among the trailing bytes. -/
def advance (fcgi : FcgiCli) : FcgiResult × FcgiCli :=
  match fcgi.readState with
  | .incomplete => receive fcgi
  | .complete =>
    if fcgi.buf.len < headerSize then (.aborted, fcgi)
    else
      let len := msglen fcgi.buf.contents
      if len < fcgi.buf.len then
        let fcgi := { fcgi with buf := fcgi.buf.shiftDown len }
        if fcgiIsCompleteMsg fcgi.buf then (.ok, fcgi)
        else receive { fcgi with readState := .incomplete }
      else receive { fcgi with buf := fcgi.buf.clear, readState := .incomplete }

def FcgiCli.ignores (fcgi : FcgiCli) (hdr : FcgiHeader) : Bool :=
  decide (fcgi.paramState ≠ .expectBeginRequest ∧ hdr.id ≠ fcgi.id)

/-- How much work is left: every record that is found makes it smaller. -/
def FcgiCli.work (fcgi : FcgiCli) : ℕ :=
  2 * (fcgi.buf.len + fcgi.io.weight) +
    match fcgi.readState with
    | .incomplete => 1
    | .complete => 0

theorem readLoop_total (buf : Buf) (fd : Fd) :
    (readLoop buf fd).2.1.len + (readLoop buf fd).2.2.weight ≤ buf.len + fd.weight := by
  fun_induction readLoop buf fd with
  | case1 fd buf nread buf' after hread hcomplete => exact ioReadbuf_total hread
  | case2 fd buf nread buf' after hread hcomplete hmore ih =>
    exact ih.trans (ioReadbuf_total hread)
  | case3 fd buf nread buf' after hread hcomplete hmore => exact ioReadbuf_total hread
  | case4 fd buf hstopped => exact ioReadbuf_total rfl

theorem receive_work {fcgi after : FcgiCli} (h : receive fcgi = (.ok, after)) :
    after.readState = .complete ∧
      after.buf.len + after.io.weight ≤ fcgi.buf.len + fcgi.io.weight := by
  unfold receive at h
  have htotal := readLoop_total fcgi.buf fcgi.io
  generalize readLoop fcgi.buf fcgi.io = read at h htotal
  obtain ⟨ret, buf, fd⟩ := read
  dsimp only at h htotal
  split at h
  · cases h
    exact ⟨rfl, htotal⟩
  · split at h
    · cases h
    · cases h
    · cases h

theorem advance_work {fcgi after : FcgiCli} (h : advance fcgi = (.ok, after)) :
    after.work < fcgi.work := by
  unfold advance at h
  unfold FcgiCli.work
  cases hstate : fcgi.readState with
  | incomplete =>
    rw [hstate] at h
    obtain ⟨hcomplete, htotal⟩ := receive_work h
    rw [hcomplete]
    dsimp only
    omega
  | complete =>
    rw [hstate] at h
    dsimp only at h ⊢
    have hheader : 0 < headerSize := by decide
    have hlen : headerSize ≤ msglen fcgi.buf.contents := by
      unfold msglen
      omega
    have hshift : (fcgi.buf.shiftDown (msglen fcgi.buf.contents)).len =
        fcgi.buf.len - msglen fcgi.buf.contents := rfl
    have hclear : fcgi.buf.clear.len = 0 := rfl
    split at h
    · cases h
    · split at h
      · split at h
        · cases h
          dsimp only
          omega
        · obtain ⟨hcomplete, htotal⟩ := receive_work h
          rw [hcomplete]
          dsimp only at htotal ⊢
          omega
      · obtain ⟨hcomplete, htotal⟩ := receive_work h
        rw [hcomplete]
        dsimp only at htotal ⊢
        omega

/-- On `ok` the record is the one at the start of the message buffer. -/
def fcgiCliReadmsg (fcgi : FcgiCli) : FcgiResult × FcgiCli :=
  match _hadvance : advance fcgi with
  | (.ok, after) =>
    if after.ignores (readHeader after.buf.contents) then fcgiCliReadmsg after
    else (.ok, after)
  | stopped => stopped
termination_by fcgi.work
decreasing_by exact advance_work _hadvance

theorem fcgiCliReadmsg_work {fcgi after : FcgiCli} (h : fcgiCliReadmsg fcgi = (.ok, after)) :
    after.work < fcgi.work := by
  fun_induction fcgiCliReadmsg fcgi with
  | case1 fcgi next hadvance hignores ih => exact (ih h).trans (advance_work hadvance)
  | case2 fcgi next hadvance hignores =>
    cases h
    exact advance_work hadvance
  | case3 fcgi hstopped => exact absurd h (hstopped after)

def maxParamsz : ℕ := 2 ^ 20 * 2

def maxBodysz : ℕ := 2 ^ 20 * 10

/-- The loop of `fcgi_cli_readparams`. -/
def readparamsLoop (fcgi : FcgiCli) : FcgiResult × FcgiCli :=
  match _hreadmsg : fcgiCliReadmsg fcgi with
  | (.ok, after) =>
    let msg := readMsg after.buf.contents
    match after.paramState with
    | .expectBeginRequest =>
      if msg.header.t ≠ fcgiBeginRequest then
        (.err, { after with errcode := some .unexpectedmsg })
      else readparamsLoop { after with id := msg.header.id, paramState := .expectParams }
    | .expectParams =>
      if msg.header.t ≠ fcgiParams then
        (.err, { after with errcode := some .unexpectedmsg })
      else if msg.header.clen = 0 then (.ok, { after with paramState := .done })
      else if after.params.len + msg.header.clen > maxParamsz then
        (.err, { after with errcode := some .paramsize })
      else readparamsLoop { after with params := after.params.adata msg.data }
    | .done => (.err, { after with errcode := some .invalidstate })
  | stopped => stopped
termination_by fcgi.work
decreasing_by
  · have hless := fcgiCliReadmsg_work _hreadmsg
    exact hless
  · have hless := fcgiCliReadmsg_work _hreadmsg
    exact hless

def fcgiCliReadparams (fcgi : FcgiCli) : FcgiResult × FcgiCli :=
  if fcgi.paramState = .done then (.ok, fcgi) else readparamsLoop fcgi

def fcgiCliReadbody (fcgi : FcgiCli) : FcgiResult × FcgiCli :=
  match _hreadmsg : fcgiCliReadmsg fcgi with
  | (.ok, after) =>
    let msg := readMsg after.buf.contents
    if msg.header.t ≠ fcgiStdin then (.err, { after with errcode := some .unexpectedmsg })
    else if msg.header.clen = 0 then (.ok, after)
    else if after.body.len + msg.header.clen > maxBodysz then
      (.err, { after with errcode := some .bodysize })
    else fcgiCliReadbody { after with body := after.body.adata msg.data }
  | stopped => stopped
termination_by fcgi.work
decreasing_by
  have hless := fcgiCliReadmsg_work _hreadmsg
  exact hless

def fcgiCliReadreq (fcgi : FcgiCli) : FcgiResult × FcgiCli :=
  if fcgi.paramState = .done then fcgiCliReadbody fcgi
  else
    match fcgiCliReadparams fcgi with
    | (.ok, after) => fcgiCliReadbody after
    | stopped => stopped

/-- A `size_t` -/
abbrev Size := BitVec 64

/-- A `char` is signed; the conversion to `size_t` extends its sign. -/
def charSize (ch : UInt8) : Size := ch.toBitVec.signExtend 64

/-- `get_length` on the bytes that are left: the length, and how many bytes
spell it. -/
def getLength : Bytes → Option (Size × ℕ)
  | [] => none
  | ch :: rest =>
    if ch &&& 0x80 ≠ 0 then
      match rest with
      | ch1 :: ch2 :: ch3 :: _ =>
        some (charSize ch <<< 24 ||| charSize ch1 <<< 16 ||| charSize ch2 <<< 8 ||| charSize ch3, 4)
      | _ => none
    else some (charSize ch, 1)

/-- `struct fcgi_pair`, with the pointers as offsets into the parameters. -/
structure FcgiPair where
  key : Size
  keylen : Size
  value : Size
  valuelen : Size
deriving DecidableEq

inductive NextParam where
  | ok
  | again (out : FcgiPair) (off : Size)
deriving DecidableEq

def fcgiCliNextParam (params : Bytes) (off : Size) : NextParam :=
  if off.toNat ≥ params.length then .ok
  else
    let data := params.drop off.toNat
    match getLength data with
    | none => .ok
    | some (keylen, l0) =>
      match getLength (data.drop l0) with
      | none => .ok
      | some (valuelen, l1) =>
        let left := data.length - l0 - l1
        if (keylen + valuelen).toNat > left then .ok
        else
          let ptr := off + BitVec.ofNat 64 (l0 + l1)
          .again ⟨ptr, keylen, ptr + keylen, valuelen⟩
            (off + (BitVec.ofNat 64 (l0 + l1) + keylen + valuelen))

end Yans.Net.Fcgi
