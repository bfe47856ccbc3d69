import Yans.Library.Runs
import Yans.Ycl.Codec
import Yans.Ycl.Reassembly

/-! Two parties that take turns: each puts what it sends and what it receives into
one message buffer, and neither calls of `ycl_sendmsg` that block in the middle of a
message nor calls of `ycl_recvmsg` that see a part of one make them lose step. -/
namespace Yans.Ycl.Conversation

open Library.Decimal Library.Memory Library.Runs Util Util.Netstring

/-- `struct ycl_msg` with what has been sent of it. -/
structure Message where
  msg : YclMsg
  sendoff : ℕ

/-- What one `write` does: it writes at most `n + 1` bytes, it would block or is
interrupted, or it fails. -/
inductive WriteEvent where
  | wrote (n : ℕ)
  | again
  | fail

/-- The loop of `ycl_sendmsg`, with the offset it gets to. A socket has no more room
than its writes show. -/
def sendLoop (len : ℕ) : List WriteEvent → ℕ → YclResult × ℕ
  | [], sendoff => if len - sendoff > 0 then (.again, sendoff) else (.ok, sendoff)
  | event :: events, sendoff =>
    if len - sendoff > 0 then
      match event with
      | .wrote n => sendLoop len events (sendoff + min (n + 1) (len - sendoff))
      | .again => (.again, sendoff)
      | .fail => (.err .io, sendoff)
    else (.ok, sendoff)

def yclSendmsg (message : Message) (writes : List WriteEvent) : YclResult × Bytes × Message :=
  let (ret, sendoff) := sendLoop message.msg.buf.len writes message.sendoff
  let written := (message.msg.buf.contents.drop message.sendoff).take (sendoff - message.sendoff)
  match ret with
  | .ok => (.ok, written, ⟨yclMsgReset message.msg, 0⟩)
  | ret => (ret, written, ⟨message.msg, sendoff⟩)

inductive Side where
  | client
  | server
deriving DecidableEq

def Side.other : Side → Side
  | .client => .server
  | .server => .client

structure Party where
  message : Message
  sending : Bool
  error : Option YclErr

/-- The parties, what each has written and the other has not read, and the messages
that each has created and those of them that the other has received. -/
structure State where
  party : Side → Party
  pipe : Side → Bytes
  created : Side → List Bytes
  delivered : Side → List Bytes

inductive Event where
  | create (side : Side) (schema : Schema) (r : Members schema.fields)
  | send (side : Side) (writes : List WriteEvent)
  | receive (side : Side) (chunks : List Bytes) (caller : Caller)

/-- The reads of a call that sees these chunks and then nothing more. -/
def readsOf (chunks : List Bytes) : List ReadEvent := chunks.map .data ++ [.again]

def State.next (maxMsgsz : ℕ) (s : State) : Event → State
  | .create side _ r =>
    let msg := yclMsgCreate _ r (s.party side).message.msg
    { s with
      party := Function.update s.party side ⟨⟨msg, 0⟩, true, none⟩
      created := Function.update s.created side (s.created side ++ [r.body]) }
  | .send side writes =>
    match yclSendmsg (s.party side).message writes with
    | (ret, written, message) =>
      let error := match ret with
        | .err err => some err
        | _ => none
      { s with
        party := Function.update s.party side ⟨message, ret ≠ .ok, error⟩
        pipe := Function.update s.pipe side (s.pipe side ++ written) }
  | .receive side chunks caller =>
    let message := (s.party side).message
    match yclRecvmsg maxMsgsz message.msg ⟨readsOf chunks, []⟩ with
    | (ret, msg, last) =>
      let pipe := streamBytes last.events ++ (s.pipe side.other).drop chunks.flatten.length
      let (outcome, error, msg) : Outcome × Option YclErr × YclMsg :=
        match ret with
        | .ok => ((consume caller msg).1, none, (consume caller msg).2)
        | .again => (.again, none, msg)
        | .err err => (.failed, some err, msg)
      { s with
        party := Function.update s.party side ⟨{ message with msg := msg }, false, error⟩
        pipe := Function.update s.pipe side.other pipe
        delivered := Function.update s.delivered side.other
          (s.delivered side.other ++ outcome.payload?.toList) }

def initial : State where
  party _ := ⟨⟨yclMsgInit, 0⟩, false, none⟩
  pipe _ := []
  created _ := []
  delivered _ := []

/-- The client speaks first. -/
def Side.lag : Side → ℕ
  | .client => 0
  | .server => 1

/-- A party creates a message when it is its turn, it sends what it has created, and
it receives what it finds when it has nothing to send. -/
def State.Allows (maxMsgsz : ℕ) (s : State) : Event → Prop
  | .create side _ r =>
    (s.party side).sending = false ∧ (encode r.body).length < maxMsgsz ∧
      (s.created side).length + side.lag = (s.delivered side.other).length
  | .send side writes => (s.party side).sending = true ∧ WriteEvent.fail ∉ writes
  | .receive side chunks _ =>
    (s.party side).sending = false ∧ [] ∉ chunks ∧ chunks.flatten <+: s.pipe side.other

/-- What the party has received of the message that comes next. -/
def Party.heard (party : Party) : Bytes :=
  if party.sending then [] else party.message.msg.buf.contents.drop party.message.msg.nextoff

def Party.unsent (party : Party) : Bytes :=
  if party.sending then party.message.msg.buf.contents.drop party.message.sendoff else []

/-- The bytes on their way from a side are those of the messages the other side has
not received yet. -/
structure Carries (s : State) (side : Side) (left : List Bytes) : Prop where
  created_eq : s.created side = s.delivered side ++ left
  bytes : (s.party side.other).heard ++ s.pipe side ++ (s.party side).unsent = encodings left

structure Keeps (maxMsgsz : ℕ) (s : State) : Prop where
  carries : ∀ side, ∃ left, Carries s side left
  size : ∀ side, (s.party side).message.msg.buf.len < 2 ^ 64
  error : ∀ side, (s.party side).error = none
  short : ∀ side, ∀ x ∈ s.created side, (encode x).length < maxMsgsz
  turns : ∀ side, (s.created side).length + side.lag ≤ (s.delivered side.other).length + 1

variable {message after : Message} {writes : List WriteEvent} {ret : YclResult} {written : Bytes}

/-- The induction is on the writes. -/
theorem sendLoop_spec {len : ℕ} (hfail : .fail ∉ writes) : ∀ {sendoff : ℕ},
    sendoff ≤ (sendLoop len writes sendoff).2 ∧
      ((sendLoop len writes sendoff).1 = .ok ∧ len ≤ (sendLoop len writes sendoff).2 ∨
        (sendLoop len writes sendoff).1 = .again) := by
  induction writes with
  | nil =>
    intro sendoff
    rw [sendLoop]
    split
    · exact ⟨le_rfl, .inr rfl⟩
    · exact ⟨le_rfl, .inl ⟨rfl, by dsimp only; omega⟩⟩
  | cons event events ih =>
    intro sendoff
    rw [List.mem_cons, not_or] at hfail
    unfold sendLoop
    split
    · cases event with
      | wrote n =>
        obtain ⟨hle, hcases⟩ := @ih hfail.2 (sendoff + min (n + 1) (len - sendoff))
        exact ⟨le_trans (by omega) hle, hcases⟩
      | again => exact ⟨le_rfl, .inr rfl⟩
      | fail => exact absurd rfl hfail.1
    · exact ⟨le_rfl, .inl ⟨rfl, by dsimp only; omega⟩⟩

theorem yclSendmsg_spec (hfail : .fail ∉ writes)
    (hrun : yclSendmsg message writes = (ret, written, after)) :
    ret = .ok ∧ after.msg = yclMsgReset message.msg ∧
        written = message.msg.buf.contents.drop message.sendoff ∨
      ret = .again ∧ after.msg = message.msg ∧
        written ++ message.msg.buf.contents.drop after.sendoff =
          message.msg.buf.contents.drop message.sendoff := by
  obtain ⟨hle, hcases⟩ := @sendLoop_spec _ message.msg.buf.len hfail message.sendoff
  unfold yclSendmsg at hrun
  generalize sendLoop message.msg.buf.len writes message.sendoff = looped at hrun hle hcases
  obtain ⟨result, sendoff⟩ := looped
  obtain ⟨rfl, hlen⟩ | rfl := hcases
  · cases hrun
    refine .inl ⟨rfl, rfl, List.take_of_length_le ?_⟩
    rw [List.length_drop, Buf.length_contents]
    exact Nat.sub_le_sub_right hlen _
  · cases hrun
    refine .inr ⟨rfl, rfl, ?_⟩
    have hdrop := List.drop_drop (i := sendoff - message.sendoff) (j := message.sendoff)
      (l := message.msg.buf.contents)
    rw [Nat.add_sub_cancel' hle] at hdrop
    rw [← hdrop, List.take_append_drop]

variable {msg : YclMsg} {maxMsgsz : ℕ}

theorem ioReadbuf_chunk (chunk : Bytes) (buf : Buf) :
    ∃ (nread : ℕ) (buf' : Buf) (left : List Bytes), ∀ rest log,
      ioReadbuf ⟨.data chunk :: rest, log⟩ buf =
        (.ok nread, buf', ⟨left.map .data ++ rest, log ++ [buf'.len]⟩) := by
  unfold ioReadbuf
  dsimp only
  generalize (if buf.cap - buf.len < readbufGrowsz then buf.grow readbufGrowsz else buf) = room
  refine ⟨(chunk.take (room.cap - room.len)).length, room.copyIn (chunk.take (room.cap - room.len)),
    ?_⟩
  by_cases hfits : chunk.length ≤ room.cap - room.len
  · refine ⟨[], fun rest log => ?_⟩
    rw [if_pos hfits]
    rfl
  · refine ⟨[chunk.drop (room.cap - room.len)], fun rest log => ?_⟩
    rw [if_neg hfits]
    rfl

/-- What a call makes of these chunks, whatever lies behind the would-block result
after them. -/
inductive Waits (call : Fd → YclResult × YclMsg × Fd) (chunks : List Bytes) (log : List ℕ) :
    Prop where
  | blocked (after : YclMsg) (buffered : List ℕ)
      (run : ∀ behind, call ⟨chunks.map .data ++ .again :: behind, log⟩ =
        (.again, after, ⟨behind, buffered⟩))
  | done {ret : YclResult} (after : YclMsg) (left : List Bytes) (buffered : List ℕ)
      (run : ∀ behind, call ⟨chunks.map .data ++ .again :: behind, log⟩ =
        (ret, after, ⟨left.map .data ++ .again :: behind, buffered⟩)) (stops : ret ≠ .again)

/-- The induction is on the bytes of the chunks. -/
theorem recvLoop_waits (weight : ℕ) : ∀ {msg : YclMsg} {chunks : List Bytes} {log : List ℕ},
    (Fd.mk (chunks.map .data) []).weight = weight → Waits (recvLoop maxMsgsz msg) chunks log := by
  induction weight using Nat.strongRecOn with
  | _ weight ih =>
    intro msg chunks log hweight
    cases hparse : if msg.buf.len = 0 then .error .errincomplete
        else netstringTryparse msg.buf.contents with
    | ok nextoff =>
      refine @Waits.done _ _ _ .ok { msg with nextoff := nextoff } chunks log (fun behind => ?_)
        (by simp)
      rw [recvLoop, hparse]
    | error code =>
      by_cases hincomplete : code = .errincomplete
      · subst hincomplete
        cases chunks with
        | nil =>
          refine .blocked { msg with buf := (ioReadbuf ⟨[.again], log⟩ msg.buf).2.1 } log
            fun behind => ?_
          rw [recvLoop, hparse]
          rfl
        | cons chunk chunks =>
          obtain ⟨nread, buf, left, hread⟩ := ioReadbuf_chunk chunk msg.buf
          have hloop : ∀ behind, recvLoop maxMsgsz msg
              ⟨(chunk :: chunks).map .data ++ .again :: behind, log⟩ =
                let fd := ⟨(left ++ chunks).map .data ++ .again :: behind, log ++ [buf.len]⟩
                if nread = 0 then (.err .termination, { msg with buf := buf }, fd)
                else if buf.len ≥ maxMsgsz then (.err .toolarge, { msg with buf := buf }, fd)
                else recvLoop maxMsgsz { msg with buf := buf } fd := by
            intro behind
            rw [List.map_cons, List.cons_append, recvLoop, hparse]
            rw [hread]
            rw [List.map_append, List.append_assoc]
            rfl
          by_cases hmore : nread = 0
          · refine @Waits.done _ _ _ (.err .termination) { msg with buf := buf } (left ++ chunks)
              (log ++ [buf.len]) (fun behind => ?_) (by simp)
            rw [hloop]
            exact if_pos hmore
          · by_cases hlarge : buf.len ≥ maxMsgsz
            · refine @Waits.done _ _ _ (.err .toolarge) { msg with buf := buf } (left ++ chunks)
                (log ++ [buf.len]) (fun behind => ?_) (by simp)
              rw [hloop]
              exact (if_neg hmore).trans (if_pos hlarge)
            · have hless := ioReadbuf_weight (hread (chunks.map .data) []) hmore
              have hnext := fun behind =>
                (hloop behind).trans ((if_neg hmore).trans (if_neg hlarge))
              have hwaits := @ih (Fd.mk ((left ++ chunks).map .data) []).weight ?_
                { msg with buf := buf } (left ++ chunks) (log ++ [buf.len]) rfl
              · cases hwaits with
                | blocked after buffered run =>
                  exact .blocked after buffered fun behind => (hnext behind).trans (run behind)
                | done after left buffered run stops =>
                  exact .done after left buffered (fun behind => (hnext behind).trans (run behind))
                    stops
              · rw [← hweight, List.map_append]
                exact hless
      · refine @Waits.done _ _ _ (.err (.parse code)) msg chunks log (fun behind => ?_) (by simp)
        rw [recvLoop, hparse]
        cases code <;> first | exact absurd rfl hincomplete | rfl

theorem yclRecvmsg_waits (maxMsgsz : ℕ) (msg : YclMsg) (chunks : List Bytes) :
    Waits (yclRecvmsg maxMsgsz msg) chunks [] := by
  unfold yclRecvmsg
  generalize checkMsg msg = checked
  obtain ⟨⟨code⟩ | ⟨⟩, msg⟩ := checked
  · cases code with
    | errincomplete => exact recvLoop_waits _ rfl
    | _ => exact @Waits.done _ _ _ (.err (.parse _)) msg chunks [] (fun behind => rfl) (by simp)
  · exact @Waits.done _ _ _ .ok msg chunks [] (fun behind => rfl) (by simp)

variable {left : List Bytes} {fd : Fd}

theorem yclRecvmsg_logged (pending : Pending msg fd left) (hlog : fd.buffered = []) :
    ∀ len ∈ (yclRecvmsg maxMsgsz msg fd).2.2.buffered, len ≤ (encodings left).length := by
  have hlength := congrArg List.length pending.behind
  rw [List.length_append, List.length_drop, Buf.length_contents] at hlength
  have hchecked : ∀ {mid}, checkMsg msg = (.error .errincomplete, mid) →
      Bounded (encodings left).length mid fd := by
    intro mid hcheck
    refine ⟨?_, fun len hlen => by simp [hlog] at hlen⟩
    unfold checkMsg at hcheck
    split at hcheck
    · split at hcheck
      · dsimp only at hcheck
        split at hcheck
        · cases hcheck
        · cases hcheck
          exact hlength.le
        · cases hcheck
          exact hlength.le
      · cases hcheck
        rw [show msg.buf.clear.len = 0 from rfl]
        omega
    · cases hcheck
      dsimp only
      omega
  unfold yclRecvmsg
  split
  · simp [hlog]
  · rename_i mid hcheck
    exact (recvLoop_bounded maxMsgsz (hchecked hcheck)).log
  · simp [hlog]

theorem streamBytes_chunks (chunks : List Bytes) (behind : List ReadEvent) :
    streamBytes (chunks.map .data ++ .again :: behind) = chunks.flatten ++ streamBytes behind := by
  induction chunks with
  | nil => rfl
  | cons chunk chunks ih =>
    rw [List.map_cons, List.cons_append, streamBytes, ih, List.flatten_cons, List.append_assoc]

variable {pipe unsent : Bytes} {chunks : List Bytes} {caller : Caller}

/-- What a call makes of the only message that can be on its way: it receives the
message, or waits for more of it. -/
inductive Receives (caller : Caller) (maxMsgsz : ℕ) (msg : YclMsg) (chunks : List Bytes)
    (pipe unsent : Bytes) (left : List Bytes) : Prop where
  | message {x : Bytes} {xs : List Bytes} {after parsed : YclMsg} {last : Fd}
      (run : yclRecvmsg maxMsgsz msg ⟨readsOf chunks, []⟩ = (.ok, after, last))
      (consumed : consume caller after = (.message x, parsed)) (left_eq : left = x :: xs)
      (bytes : parsed.buf.contents.drop parsed.nextoff ++
        (streamBytes last.events ++ pipe.drop chunks.flatten.length) ++ unsent = encodings xs)
      (size : parsed.buf.len < 2 ^ 64) : Receives caller maxMsgsz msg chunks pipe unsent left
  | again {after : YclMsg} {last : Fd}
      (run : yclRecvmsg maxMsgsz msg ⟨readsOf chunks, []⟩ = (.again, after, last))
      (bytes : after.buf.contents.drop after.nextoff ++
        (streamBytes last.events ++ pipe.drop chunks.flatten.length) ++ unsent = encodings left)
      (size : after.buf.len < 2 ^ 64)
      (waits : left = [] ∨ pipe.drop chunks.flatten.length ++ unsent ≠ []) :
      Receives caller maxMsgsz msg chunks pipe unsent left

theorem yclRecvmsg_receives (caller : Caller) (hmax : maxMsgsz ≤ 2 ^ 64) (hpos : 0 < maxMsgsz)
    (hbytes : msg.buf.contents.drop msg.nextoff ++ pipe ++ unsent = encodings left)
    (hsize : msg.buf.len < 2 ^ 64) (hsingle : left.length ≤ 1)
    (hshort : ∀ x ∈ left, (encode x).length < maxMsgsz) (hchunks : [] ∉ chunks)
    (hpipe : chunks.flatten <+: pipe) :
    Receives caller maxMsgsz msg chunks pipe unsent left := by
  obtain ⟨rest, rfl⟩ := hpipe
  -- the call on what is still to come, behind the would-block result
  obtain ⟨behind, hstream, hdelivers⟩ : ∃ behind : List ReadEvent,
      streamBytes behind = rest ++ unsent ∧ ∀ event ∈ behind, event.Delivers := by
    by_cases hnil : rest ++ unsent = []
    · exact ⟨[], hnil.symm, by simp⟩
    · exact ⟨[.data (rest ++ unsent)], List.append_nil _, by simpa [ReadEvent.Delivers] using hnil⟩
  have hlarge : (encodings left).length < maxMsgsz := by
    cases left with
    | nil => exact hpos
    | cons x xs =>
      obtain rfl := List.length_eq_zero_iff.mp (Nat.le_zero.mp (Nat.le_of_succ_le_succ hsingle))
      simpa [encodings] using hshort x List.mem_cons_self
  have hleft : ∀ x ∈ left, (encode x).length < 2 ^ 64 := fun x hx => (hshort x hx).trans_le hmax
  have pending : Pending msg ⟨chunks.map .data ++ .again :: behind, []⟩ left := by
    refine ⟨?_, hsize, ?_⟩
    · rw [← hbytes, streamBytes_chunks, hstream]
      simp only [List.append_assoc]
    · intro event hevent
      obtain hevent | rfl | hevent : event ∈ chunks.map ReadEvent.data ∨ event = .again ∨
          event ∈ behind := by simpa using hevent
      · obtain ⟨chunk, hchunk, rfl⟩ := List.mem_map.mp hevent
        rintro rfl
        exact hchunks hchunk
      · trivial
      · exact hdelivers event hevent
  cases yclRecvmsg_waits maxMsgsz msg chunks with
  | blocked after buffered run =>
    cases yclRecvmsg_cases hmax hleft pending (run behind) with
    | inr hrefused => cases hrefused.is_err.choose_spec
    | inl hreceived =>
      cases hreceived with
      | again pending' hcount =>
        have hwaits := stream_ne_nil_of_again hleft (run behind) pending'
        have hbehind := pending'.behind
        rw [hstream] at hwaits hbehind
        refine .again (run []) ?_ pending'.size ?_
        · rw [← hbehind, List.drop_left]
          simp only [streamBytes, List.nil_append, List.append_assoc]
        · rwa [List.drop_left]
  | done after seen buffered run stops =>
    cases yclRecvmsg_cases hmax hleft pending (run behind) with
    | inr hrefused =>
      cases hrefused with
      | termination left_eq hcount =>
        have hagain : 0 < againCount (chunks.map .data ++ .again :: behind) :=
          List.count_pos_iff.mpr (by simp)
        dsimp only at hcount
        omega
      | toolarge logged large =>
        have hlogged := @yclRecvmsg_logged _ maxMsgsz _ _ pending rfl
        rw [run behind] at hlogged
        have hle := hlogged _ logged
        omega
    | inl hreceived =>
      cases hreceived with
      | again => exact absurd rfl stops
      | message tail hcontents hnextoff pending' hcount =>
        obtain ⟨parsed, hconsume, hparsed⟩ := consume_spec caller hcontents hnextoff pending'
        have hbehind := hparsed.behind
        rw [streamBytes_chunks, hstream] at hbehind
        refine .message (run []) hconsume rfl ?_ hparsed.size
        rw [← hbehind, List.drop_left, streamBytes_chunks]
        simp only [streamBytes, List.append_nil, List.append_assoc]

variable {s : State} {side : Side}

@[simp] theorem Side.other_other (side : Side) : side.other.other = side := by
  cases side <;> rfl

theorem Side.ne_other (side : Side) : side ≠ side.other := by
  cases side <;> simp [Side.other]

theorem Side.forall_of {P : Side → Prop} (side : Side) (hside : P side) (hother : P side.other) :
    ∀ d, P d := by
  intro d
  cases side <;> cases d <;> assumption

theorem Side.lag_other (side : Side) : side.lag + side.other.lag = 1 := by
  cases side <;> rfl

theorem contents_create (schema : Schema) (r : Members schema.fields) (msg : YclMsg) :
    (yclMsgCreate schema r msg).buf.contents = encode r.body := by
  by_cases hfields : schema.fields = []
  · obtain ⟨name, fields⟩ := schema
    subst hfields
    cases r
    unfold yclMsgCreate
    rw [if_pos rfl, Buf.contents_adata]
    have hzero : numeral 0 = [48] := numeral_small rfl
    simp [yclMsgReset, Members.body, encode, lengthPrefix, hzero, colon, comma]
  · exact contents_yclMsgCreate schema r msg hfields

theorem Keeps.length_le (h : Keeps maxMsgsz s) (side : Side) :
    (s.created side).length ≤ (s.delivered side).length + 1 := by
  obtain ⟨left, hleft⟩ := h.carries side.other
  have hcreated := congrArg List.length hleft.created_eq
  have hturn := h.turns side
  have hother := h.turns side.other
  have hlag := side.lag_other
  rw [List.length_append] at hcreated
  rw [Side.other_other] at hother
  omega

theorem encodings_append (left : List Bytes) (x : Bytes) :
    encodings (left ++ [x]) = encodings left ++ encode x := by
  simp [encodings]

section

variable (h : Keeps maxMsgsz s)

include h

theorem Keeps.nothing_left
    (hturn : (s.created side).length + side.lag = (s.delivered side.other).length)
    {left : List Bytes} (hcreated : s.created side.other = s.delivered side.other ++ left) :
    left = [] := by
  obtain ⟨ahead, hahead⟩ := h.carries side
  have hother := h.turns side.other
  have hlag := side.lag_other
  rw [Side.other_other, hcreated, List.length_append] at hother
  rw [hahead.created_eq, List.length_append] at hturn
  exact List.length_eq_zero_iff.mp (by omega)

theorem Keeps.create (hmax : maxMsgsz ≤ 2 ^ 64) {schema : Schema}
    {r : Members schema.fields} (hallowed : s.Allows maxMsgsz (.create side schema r)) :
    Keeps maxMsgsz (s.next maxMsgsz (.create side schema r)) := by
  obtain ⟨hidle, hshort, hturn⟩ := hallowed
  have hcontents := contents_create schema r (s.party side).message.msg
  have hne := side.ne_other
  constructor
  · refine side.forall_of ?_ ?_
    · obtain ⟨left, hcreated, hbytes⟩ := h.carries side
      refine ⟨left ++ [r.body], ?_, ?_⟩
      · simp [State.next, hcreated]
      · simp only [Party.unsent, hidle] at hbytes
        simp only [State.next, Function.update_self, Function.update_of_ne hne.symm, Party.unsent,
          hcontents, List.drop_zero, encodings_append, ← hbytes]
        simp
    · obtain ⟨left, hcreated, hbytes⟩ := h.carries side.other
      obtain rfl := h.nothing_left hturn hcreated
      refine ⟨[], ?_, ?_⟩
      · simp [State.next, Function.update_of_ne hne.symm, hcreated]
      · have hnil : s.pipe side.other = [] ∧ (s.party side.other).unsent = [] := by
          simp only [encodings, List.map_nil, List.flatten_nil, List.append_eq_nil_iff] at hbytes
          exact ⟨hbytes.1.2, hbytes.2⟩
        simp [State.next, Party.heard, Function.update_of_ne hne.symm, hnil, encodings]
  · refine side.forall_of ?_ ?_
    · simp only [State.next, Function.update_self]
      rw [← Buf.length_contents, hcontents]
      exact hshort.trans_le hmax
    · simpa [State.next, Function.update_of_ne hne.symm] using h.size side.other
  · refine side.forall_of ?_ ?_
    · simp [State.next]
    · simpa [State.next, Function.update_of_ne hne.symm] using h.error side.other
  · refine side.forall_of ?_ ?_
    · intro x hx
      simp only [State.next, Function.update_self, List.mem_append, List.mem_singleton] at hx
      obtain hx | rfl := hx
      · exact h.short side x hx
      · exact hshort
    · simpa [State.next, Function.update_of_ne hne.symm] using h.short side.other
  · refine side.forall_of ?_ ?_
    · simp [State.next, ← hturn, Nat.add_right_comm]
    · simpa [State.next, Function.update_of_ne hne.symm] using h.turns side.other

theorem Keeps.of_written {party : Party} {written : Bytes}
    (hunsent : written ++ party.unsent = (s.party side).unsent)
    (hheard : party.heard = (s.party side).heard) (hsize : party.message.msg.buf.len < 2 ^ 64)
    (herror : party.error = none) :
    Keeps maxMsgsz { s with
      party := Function.update s.party side party
      pipe := Function.update s.pipe side (s.pipe side ++ written) } := by
  have hne := side.ne_other
  constructor
  · refine side.forall_of ?_ ?_
    · obtain ⟨left, hcreated, hbytes⟩ := h.carries side
      refine ⟨left, hcreated, ?_⟩
      simp only [Function.update_self, Function.update_of_ne hne.symm, ← hbytes, ← hunsent,
        List.append_assoc]
    · obtain ⟨left, hcreated, hbytes⟩ := h.carries side.other
      refine ⟨left, hcreated, ?_⟩
      rw [Side.other_other] at hbytes
      simp only [Side.other_other, Function.update_self, Function.update_of_ne hne.symm, hheard,
        hbytes]
  · refine side.forall_of ?_ ?_
    · simpa using hsize
    · simpa [Function.update_of_ne hne.symm] using h.size side.other
  · refine side.forall_of ?_ ?_
    · simpa using herror
    · simpa [Function.update_of_ne hne.symm] using h.error side.other
  · exact h.short
  · exact h.turns

theorem Keeps.send (hallowed : s.Allows maxMsgsz (.send side writes)) :
    Keeps maxMsgsz (s.next maxMsgsz (.send side writes)) := by
  obtain ⟨hsending, hfail⟩ := hallowed
  obtain ⟨ret, written, after, hrun⟩ : ∃ ret written after,
      yclSendmsg (s.party side).message writes = (ret, written, after) := ⟨_, _, _, rfl⟩
  simp only [State.next, hrun]
  obtain ⟨rfl, hafter, hwritten⟩ | ⟨rfl, hafter, hwritten⟩ := yclSendmsg_spec hfail hrun
  · refine h.of_written ?_ ?_ ?_ rfl
    · simp [Party.unsent, hsending, hwritten]
    · simp [Party.heard, hsending, hafter, yclMsgReset]
    · simp [hafter, yclMsgReset, Buf.clear]
  · refine h.of_written ?_ ?_ ?_ rfl
    · simp [Party.unsent, hsending, hafter, hwritten]
    · simp [Party.heard, hsending]
    · rw [hafter]
      exact h.size side

theorem Keeps.of_received (hidle : (s.party side).sending = false)
    {party : Party} {pipe : Bytes} {now left : List Bytes}
    (hcreated : s.created side.other = s.delivered side.other ++ (now ++ left))
    (hbytes : party.heard ++ pipe ++ (s.party side.other).unsent = encodings left)
    (hunsent : party.unsent = []) (hsize : party.message.msg.buf.len < 2 ^ 64)
    (herror : party.error = none) :
    Keeps maxMsgsz { s with
      party := Function.update s.party side party
      pipe := Function.update s.pipe side.other pipe
      delivered := Function.update s.delivered side.other (s.delivered side.other ++ now) } := by
  have hne := side.ne_other
  constructor
  · refine side.forall_of ?_ ?_
    · obtain ⟨ahead, hahead, hon⟩ := h.carries side
      refine ⟨ahead, ?_, ?_⟩
      · simpa only [Function.update_of_ne hne] using hahead
      · simp only [Party.unsent, hidle] at hon
        simp only [Function.update_self, Function.update_of_ne hne, Function.update_of_ne hne.symm,
          hunsent]
        simpa using hon
    · refine ⟨left, ?_, ?_⟩
      · simp only [Function.update_self, hcreated, List.append_assoc]
      · simpa only [Side.other_other, Function.update_self, Function.update_of_ne hne.symm]
          using hbytes
  · refine side.forall_of ?_ ?_
    · simpa using hsize
    · simpa [Function.update_of_ne hne.symm] using h.size side.other
  · refine side.forall_of ?_ ?_
    · simpa using herror
    · simpa [Function.update_of_ne hne.symm] using h.error side.other
  · exact h.short
  · refine side.forall_of ?_ ?_
    · have hturn := h.turns side
      simp only [Function.update_self, List.length_append]
      omega
    · have hturn := h.turns side.other
      rw [Side.other_other] at hturn
      simpa only [Side.other_other, Function.update_of_ne hne] using hturn

theorem Keeps.receives (hmax : maxMsgsz ≤ 2 ^ 64) (hpos : 0 < maxMsgsz)
    (caller : Caller) (hidle : (s.party side).sending = false) (hchunks : [] ∉ chunks)
    (hpipe : chunks.flatten <+: s.pipe side.other) :
    ∃ left, s.created side.other = s.delivered side.other ++ left ∧ left.length ≤ 1 ∧
      Receives caller maxMsgsz (s.party side).message.msg chunks (s.pipe side.other)
        (s.party side.other).unsent left := by
  obtain ⟨left, hcreated, hbytes⟩ := h.carries side.other
  have hsingle := h.length_le side.other
  rw [hcreated, List.length_append] at hsingle
  simp only [Party.heard, hidle, Side.other_other, Bool.false_eq_true, if_false] at hbytes
  have hshort : ∀ x ∈ left, (encode x).length < maxMsgsz := fun x hx =>
    h.short side.other x (hcreated ▸ List.mem_append_right _ hx)
  have hle := Nat.le_of_add_le_add_left hsingle
  exact ⟨left, hcreated, hle,
    yclRecvmsg_receives caller hmax hpos hbytes (h.size side) hle hshort hchunks hpipe⟩

theorem Keeps.receive (hmax : maxMsgsz ≤ 2 ^ 64) (hpos : 0 < maxMsgsz)
    (hallowed : s.Allows maxMsgsz (.receive side chunks caller)) :
    Keeps maxMsgsz (s.next maxMsgsz (.receive side chunks caller)) := by
  obtain ⟨hidle, hchunks, hpipe⟩ := hallowed
  obtain ⟨left, hcreated, -, hreceives⟩ := h.receives hmax hpos caller hidle hchunks hpipe
  cases hreceives with
  | @message x xs after parsed last run consumed left_eq bytes size =>
    subst left_eq
    simp only [State.next, run, consumed]
    exact h.of_received hidle hcreated bytes rfl size rfl
  | again run bytes size waits =>
    simp only [State.next, run]
    exact h.of_received hidle hcreated bytes rfl size rfl

theorem Keeps.next (hmax : maxMsgsz ≤ 2 ^ 64) (hpos : 0 < maxMsgsz)
    {event : Event} (hallowed : s.Allows maxMsgsz event) :
    Keeps maxMsgsz (s.next maxMsgsz event) := by
  cases event with
  | create side schema r => exact h.create hmax hallowed
  | send side writes => exact h.send hallowed
  | receive side chunks caller => exact h.receive hmax hpos hallowed

end

theorem keeps_initial (maxMsgsz : ℕ) : Keeps maxMsgsz initial := by
  refine ⟨fun side => ⟨[], rfl, ?_⟩, fun side => Nat.two_pow_pos 64, fun side => rfl, ?_, ?_⟩
  · simp [initial, Party.heard, Party.unsent, yclMsgInit, encodings]
  · intro side x hx
    cases hx
  · intro side
    cases side <;> decide

/-- The states that a conversation gets to. -/
def Reached (maxMsgsz : ℕ) : State → Prop :=
  Reachable (· = initial) (State.Allows maxMsgsz) fun s event after => after = s.next maxMsgsz event

/-- In every interleaving of blocked calls: nobody fails, what is received is what has
been sent, in order and once, at most one message is on its way, and when nobody is
sending a call that sees all that is there receives it. -/
theorem conversation_delivers {maxMsgsz : ℕ} (hmax : maxMsgsz ≤ 2 ^ 64) (hpos : 0 < maxMsgsz)
    {s : State} (h : Reached maxMsgsz s) (side : Side) :
    (s.party side).error = none ∧ s.delivered side <+: s.created side ∧
      (s.created side).length ≤ (s.delivered side).length + 1 ∧
      ((∀ d, (s.party d).sending = false) → ∀ chunks caller, [] ∉ chunks →
        chunks.flatten = s.pipe side →
          (s.next maxMsgsz (.receive side.other chunks caller)).delivered side =
            s.created side) := by
  have hkeeps : Keeps maxMsgsz s := by
    refine h.invariant ?_ ?_
    · rintro _ rfl
      exact keeps_initial maxMsgsz
    · rintro before event _ hbefore hallowed rfl
      exact hbefore.next hmax hpos hallowed
  refine ⟨hkeeps.error side, ?_, hkeeps.length_le side, ?_⟩
  · obtain ⟨left, hcreated, -⟩ := hkeeps.carries side
    exact hcreated ▸ List.prefix_append _ _
  · intro hidle chunks caller hchunks hpipe
    have hall : chunks.flatten <+: s.pipe side.other.other :=
      ⟨[], by rw [List.append_nil, Side.other_other, hpipe]⟩
    have hreceives := hkeeps.receives hmax hpos caller (hidle side.other) hchunks hall
    simp only [Side.other_other] at hreceives
    obtain ⟨left, hcreated, hsingle, hreceives⟩ := hreceives
    have hunsent : (s.party side).unsent = [] := by simp [Party.unsent, hidle side]
    cases hreceives with
    | @message x xs after parsed last run consumed left_eq bytes size =>
      subst left_eq
      obtain rfl : xs = [] :=
        List.length_eq_zero_iff.mp (Nat.le_zero.mp (Nat.le_of_succ_le_succ hsingle))
      simp [State.next, run, consumed, hcreated, Outcome.payload?]
    | again run bytes size waits =>
      obtain hnil | hmore := waits
      · simp [State.next, run, hcreated, hnil, Outcome.payload?]
      · simp [hpipe, hunsent] at hmore

theorem sampleNames : ∀ field ∈ ([] : List Field), IsName field.name := by simp

/-- A message without members. -/
def sampleCreate : Event :=
  .create .client ⟨[], Nat.zero_le maxFields, sampleNames, List.nodup_nil⟩ .nil

/-- It has been sent in two parts. -/
def sampleSent : State :=
  (initial.next 100 sampleCreate).next 100 (.send .client [.wrote 0, .wrote 5])

theorem sampleSent_spec : sampleSent.pipe .client = [48, 58, 44] ∧
    (∀ d, (sampleSent.party d).sending = false) ∧ sampleSent.created .client = [[]] := by
  have hzero : numeral 0 = [48] := numeral_small rfl
  have hcontents := contents_create ⟨[], Nat.zero_le maxFields, sampleNames, List.nodup_nil⟩ .nil
    yclMsgInit
  simp only [Members.body, encode, lengthPrefix, hzero, List.length_nil] at hcontents
  have hlen := congrArg List.length hcontents
  rw [Buf.length_contents] at hlen
  have hwhole : sendLoop 3 [.wrote 0, .wrote 5] 0 = (.ok, 3) := rfl
  refine ⟨?_, ?_, ?_⟩
  · simp [sampleSent, sampleCreate, State.next, initial, yclSendmsg, hlen, hcontents, hwhole, colon,
      comma]
  · intro d
    cases d <;> simp [sampleSent, sampleCreate, State.next, initial, yclSendmsg, hlen, hwhole]
  · simp [sampleSent, sampleCreate, State.next, initial, Members.body]

theorem conversation_delivers_sample :
    (sampleSent.next 100 (.receive .server [[48, 58], [44]] ⟨id, fun _ => rfl⟩)).delivered .client =
      [[]] := by
  obtain ⟨hpipe, hidle, hcreated⟩ := sampleSent_spec
  have hzero : numeral 0 = [48] := numeral_small rfl
  have hshort : (encode (Members.body .nil)).length < 100 := by
    simp [Members.body, encode, lengthPrefix, hzero]
  have hallowed : initial.Allows 100 sampleCreate := ⟨rfl, hshort, rfl⟩
  have hcreate : Reached 100 (initial.next 100 sampleCreate) := .step (.initial rfl) hallowed rfl
  have hsend : (initial.next 100 sampleCreate).Allows 100 (.send .client [.wrote 0, .wrote 5]) :=
    ⟨rfl, by simp⟩
  have hrun : Reached 100 sampleSent := .step hcreate hsend rfl
  have hall := conversation_delivers (by decide) (by decide) hrun .client
  have hreceived := hall.2.2.2 hidle [[48, 58], [44]] ⟨id, fun _ => rfl⟩ (by decide) hpipe.symm
  rw [show Side.client.other = Side.server from rfl] at hreceived
  exact hreceived.trans hcreated

end Yans.Ycl.Conversation
