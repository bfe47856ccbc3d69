import Yans.Ycl.Ycl

/-! Reassembly of a message stream. Between two calls of `ycl_recvmsg` the bytes
behind the current message, followed by the bytes still to be read, are exactly
the encodings of the messages not delivered yet. -/
namespace Yans.Ycl

open Library.Memory Library.Decimal Util Util.Netstring

/-- The message area after its owner has worked on it: any change of the bytes
before `nextoff` that keeps their number. -/
structure Caller where
  edit : Bytes → Bytes
  length_edit : ∀ bytes, (edit bytes).length = bytes.length

def Caller.apply (caller : Caller) (msg : YclMsg) (mem : Bytes)
    (hmem : mem.length = msg.buf.data.length) : YclMsg :=
  { msg with
    buf :=
      { data := caller.edit (mem.take msg.nextoff) ++ mem.drop msg.nextoff
        len := msg.buf.len
        len_le := by
          rw [List.length_append, caller.length_edit, ← List.length_append,
            List.take_append_drop, hmem]
          exact msg.buf.len_le } }

/-- What a call gives its caller: the message in the buffer, or nothing. -/
inductive Outcome where
  | message (payload : Bytes)
  | again
  | failed
deriving DecidableEq

def Outcome.payload? : Outcome → Option Bytes
  | .message payload => some payload
  | _ => none

/-- Parse the received netstring in place, then go on working in its bytes. -/
def consume (caller : Caller) (msg : YclMsg) : Outcome × YclMsg :=
  match netstringParse msg.buf.data 0 msg.buf.len with
  | (.error _, _) => (.failed, msg)
  | (.ok out, mem) =>
    if hmem : mem.length = msg.buf.data.length then
      (.message (slice mem out.off out.len), caller.apply msg mem hmem)
    else (.failed, msg)

/-- `n` calls of `ycl_recvmsg` on one message and one descriptor. -/
def session (caller : Caller) (maxMsgsz : ℕ) : ℕ → YclMsg → Fd → List Outcome × YclMsg × Fd
  | 0, msg, fd => ([], msg, fd)
  | n + 1, msg, fd =>
    match yclRecvmsg maxMsgsz msg fd with
    | (.ok, msg, fd) =>
      let (outcome, msg) := consume caller msg
      let (outcomes, msg, fd) := session caller maxMsgsz n msg fd
      (outcome :: outcomes, msg, fd)
    | (.again, msg, fd) =>
      let (outcomes, msg, fd) := session caller maxMsgsz n msg fd
      (.again :: outcomes, msg, fd)
    | (.err _, msg, fd) =>
      let (outcomes, msg, fd) := session caller maxMsgsz n msg fd
      (.failed :: outcomes, msg, fd)

def encodings (messages : List Bytes) : Bytes := (messages.map encode).flatten

structure Pending (msg : YclMsg) (fd : Fd) (left : List Bytes) : Prop where
  behind : msg.buf.contents.drop msg.nextoff ++ streamBytes fd.events = encodings left
  size : msg.buf.len < 2 ^ 64
  delivers : ∀ event ∈ fd.events, event.Delivers

variable {left : List Bytes}

/-- What the parser says about buffered bytes that begin the encodings of
`left`: the first message is there, or more bytes have to come. -/
theorem tryparse_cases {contents stream : Bytes}
    (hsplit : contents ++ stream = encodings left) (hsize : contents.length < 2 ^ 64)
    (hleft : ∀ x ∈ left, (encode x).length < 2 ^ 64) :
    (∃ x xs rest, left = x :: xs ∧ contents = encode x ++ rest ∧
      rest ++ stream = encodings xs ∧ netstringTryparse contents = .ok (encode x).length) ∨
    netstringTryparse contents = .error .errincomplete ∧
      (left = [] ∧ contents = [] ∧ stream = [] ∨ left ≠ [] ∧ stream ≠ []) := by
  cases left with
  | nil =>
    right
    obtain ⟨rfl, rfl⟩ := List.append_eq_nil_iff.mp hsplit
    exact ⟨rfl, .inl ⟨rfl, rfl, rfl⟩⟩
  | cons x xs =>
    have hx := hleft x List.mem_cons_self
    have hcons : encodings (x :: xs) = encode x ++ encodings xs := rfl
    rw [hcons, List.append_eq_append_iff] at hsplit
    obtain ⟨missing, hmissing, hstream⟩ | ⟨rest, rfl, hrest⟩ := hsplit
    · by_cases hnil : missing = []
      · left
        subst hnil
        rw [List.append_nil] at hmissing
        subst hmissing
        have hparse := @netstringTryparse_encode x [] (by rwa [List.append_nil])
        rw [List.append_nil] at hparse
        exact ⟨x, xs, [], rfl, (List.append_nil _).symm, hstream, hparse⟩
      · right
        refine ⟨netstringTryparse_cut hmissing.symm hnil hx, .inr ⟨by simp, ?_⟩⟩
        rw [hstream]
        simp [hnil]
    · left
      exact ⟨x, xs, rest, rfl, rfl, hrest.symm, netstringTryparse_encode hsize⟩

inductive Received (fd : Fd) : List Bytes → YclResult → YclMsg → Fd → Prop where
  | message {x : Bytes} {xs : List Bytes} {msg : YclMsg} {after : Fd} (rest : Bytes)
      (contents_eq : msg.buf.contents = encode x ++ rest)
      (nextoff_eq : msg.nextoff = (encode x).length) (pending : Pending msg after xs)
      (again_eq : againCount after.events = againCount fd.events) :
      Received fd (x :: xs) .ok msg after
  | again {left : List Bytes} {msg : YclMsg} {after : Fd} (pending : Pending msg after left)
      (again_eq : againCount after.events + 1 = againCount fd.events) :
      Received fd left .again msg after

variable {fd : Fd} {msg : YclMsg}

theorem received_ok {x rest : Bytes} {xs : List Bytes}
    (hcontents : msg.buf.contents = encode x ++ rest)
    (hrest : rest ++ streamBytes fd.events = encodings xs) (hsize : msg.buf.len < 2 ^ 64)
    (hdelivers : ∀ event ∈ fd.events, event.Delivers) :
    Received fd (x :: xs) .ok { msg with nextoff := (encode x).length } fd := by
  refine .message rest hcontents rfl ⟨?_, hsize, hdelivers⟩ rfl
  rw [hcontents, List.drop_left, hrest]

inductive Refused (maxMsgsz : ℕ) (fd : Fd) (left : List Bytes) (last : Fd) : YclResult → Prop where
  | termination (left_eq : left = []) (again_eq : againCount fd.events = 0) :
      Refused maxMsgsz fd left last (.err .termination)
  | toolarge {len : ℕ} (logged : len ∈ last.buffered) (large : maxMsgsz ≤ len) :
      Refused maxMsgsz fd left last (.err .toolarge)

variable {maxMsgsz : ℕ} {last : Fd} {result : YclResult}

theorem Refused.is_err (h : Refused maxMsgsz fd left last result) : ∃ err, result = .err err := by
  cases h with
  | termination => exact ⟨_, rfl⟩
  | toolarge => exact ⟨_, rfl⟩

/-- The induction is on what the descriptor can still deliver. -/
theorem recvLoop_cases (hmax : maxMsgsz ≤ 2 ^ 64)
    (hleft : ∀ x ∈ left, (encode x).length < 2 ^ 64) (weight : ℕ) :
    ∀ {msg : YclMsg} {fd : Fd}, fd.weight = weight → msg.nextoff = 0 → Pending msg fd left →
      ∀ {result after last}, recvLoop maxMsgsz msg fd = (result, after, last) →
        Received fd left result after last ∨ Refused maxMsgsz fd left last result := by
  induction weight using Nat.strongRecOn with
  | _ weight ih =>
    intro msg fd hweight hnextoff pending result after last hrun
    have hbehind := pending.behind
    rw [hnextoff, List.drop_zero] at hbehind
    have hlength : msg.buf.contents.length < 2 ^ 64 := by
      rw [Buf.length_contents]
      exact pending.size
    have hparse : (if msg.buf.len = 0 then .error .errincomplete
        else netstringTryparse msg.buf.contents) = netstringTryparse msg.buf.contents := by
      split
      · rename_i hzero
        rw [← Buf.length_contents, List.length_eq_zero_iff] at hzero
        rw [hzero]
        rfl
      · rfl
    rw [recvLoop, hparse] at hrun
    obtain ⟨x, xs, rest, rfl, hcontents, hrest, hok⟩ | ⟨hmore, hstate⟩ :=
      tryparse_cases hbehind hlength hleft
    · rw [hok] at hrun
      simp only [Prod.mk.injEq] at hrun
      obtain ⟨rfl, rfl, rfl⟩ := hrun
      exact .inl (received_ok hcontents hrest pending.size pending.delivers)
    · rw [hmore] at hrun
      dsimp only at hrun
      have hdelivers := pending.delivers
      cases hevents : fd.events with
      | nil =>
        -- the end of the stream, where no message is to come
        rw [hevents] at hstate
        obtain ⟨hnil, -⟩ | ⟨-, hstream⟩ := hstate
        · have hread : (ioReadbuf fd msg.buf).1 = .ok 0 := by
            unfold ioReadbuf
            simp only [hevents]
          split at hrun
          · rename_i hagain
            rw [hagain] at hread
            cases hread
          · rename_i herr
            rw [herr] at hread
            cases hread
          · rename_i nread buf mid hok
            rw [hok] at hread
            cases hread
            rw [dif_pos rfl] at hrun
            cases hrun
            exact .inr (.termination hnil (by rw [hevents]; rfl))
        · exact absurd rfl hstream
      | cons event events =>
        rw [hevents] at hdelivers
        have htail : ∀ e ∈ events, e.Delivers := fun e he =>
          hdelivers e (List.mem_cons_of_mem _ he)
        cases event with
        | fail => exact absurd (hdelivers _ List.mem_cons_self) id
        | again =>
          obtain ⟨buf, hread, hcontents⟩ := ioReadbuf_again hevents msg.buf
          rw [hread] at hrun
          simp only [Prod.mk.injEq] at hrun
          obtain ⟨rfl, rfl, rfl⟩ := hrun
          refine .inl (.again ⟨?_, ?_, htail⟩ ?_)
          · dsimp only
            rw [hnextoff, List.drop_zero, hcontents, ← hbehind, hevents]
            rfl
          · have hlen : buf.len = msg.buf.len := by
              rw [← Buf.length_contents, hcontents, Buf.length_contents]
            dsimp only
            rw [hlen]
            exact pending.size
          · rw [hevents]
            simp [againCount]
        | data chunk =>
          obtain ⟨nread, got, buf, events', hnread, hread, hcontents, hstream, hagain,
            hdelivers'⟩ :=
            ioReadbuf_data hevents (hdelivers _ List.mem_cons_self) htail msg.buf
          have hless := ioReadbuf_weight hread hnread
          rw [hread] at hrun
          simp only [dif_neg hnread] at hrun
          split at hrun
          · rename_i hlarge
            simp only [Prod.mk.injEq] at hrun
            obtain ⟨rfl, rfl, rfl⟩ := hrun
            exact .inr (.toolarge (List.mem_append_right _ List.mem_cons_self) hlarge)
          · rename_i hsmall
            have hnext : Pending { msg with buf := buf }
                ⟨events', fd.buffered ++ [buf.len]⟩ left := by
              refine ⟨?_, ?_, hdelivers'⟩
              · dsimp only
                rw [hnextoff, List.drop_zero, hcontents, List.append_assoc, hstream, hbehind]
              · dsimp only
                omega
            have hzero : ({ msg with buf := buf } : YclMsg).nextoff = 0 := hnextoff
            cases ih _ (hweight ▸ hless) rfl hzero hnext hrun with
            | inl hreceived =>
              cases hreceived with
              | message rest hcontents hnextoff pending hcount =>
                exact .inl (.message rest hcontents hnextoff pending (hcount.trans hagain))
              | again pending hcount => exact .inl (.again pending (hcount.trans hagain))
            | inr hrefused =>
              cases hrefused with
              | termination hnil hcount => exact .inr (.termination hnil (hagain ▸ hcount))
              | toolarge hlogged hlarge => exact .inr (.toolarge hlogged hlarge)

variable {after : YclMsg}

theorem yclRecvmsg_cases (hmax : maxMsgsz ≤ 2 ^ 64)
    (hleft : ∀ x ∈ left, (encode x).length < 2 ^ 64)
    (pending : Pending msg fd left)
    (hrun : yclRecvmsg maxMsgsz msg fd = (result, after, last)) :
    Received fd left result after last ∨ Refused maxMsgsz fd left last result := by
  have hbehind := pending.behind
  have hsize := pending.size
  unfold yclRecvmsg checkMsg at hrun
  by_cases hprevious : msg.nextoff > 0
  · rw [if_pos hprevious] at hrun
    by_cases htrailing : msg.nextoff < msg.buf.len
    · simp only [if_pos htrailing, Buf.contents_shiftDown] at hrun
      have hlen : (msg.buf.shiftDown msg.nextoff).len = msg.buf.len - msg.nextoff := rfl
      have hlength : (msg.buf.contents.drop msg.nextoff).length < 2 ^ 64 := by
        rw [List.length_drop, Buf.length_contents]
        omega
      obtain ⟨x, xs, rest, rfl, hcontents, hrest, hok⟩ | ⟨hmore, -⟩ :=
        tryparse_cases hbehind hlength hleft
      · rw [hok] at hrun
        simp only [Prod.mk.injEq] at hrun
        obtain ⟨rfl, rfl, rfl⟩ := hrun
        refine .inl (@received_ok _ { msg with buf := msg.buf.shiftDown msg.nextoff } _ _ _ ?_
          hrest ?_ pending.delivers)
        · rw [Buf.contents_shiftDown, hcontents]
        · dsimp only
          omega
      · rw [hmore] at hrun
        refine recvLoop_cases hmax hleft _ rfl rfl ⟨?_, ?_, pending.delivers⟩ hrun
        · rw [List.drop_zero, Buf.contents_shiftDown, hbehind]
        · dsimp only
          omega
    · rw [if_neg htrailing] at hrun
      refine recvLoop_cases hmax hleft _ rfl rfl ⟨?_, Nat.two_pow_pos 64, pending.delivers⟩ hrun
      rw [List.drop_eq_nil_of_le (by rw [Buf.length_contents]; omega)] at hbehind
      rw [List.drop_zero, Buf.contents_clear, hbehind]
  · rw [if_neg hprevious] at hrun
    have hzero : msg.nextoff = 0 := by omega
    rw [hzero] at hbehind
    have hnext : Pending { msg with nextoff := 0 } fd left := ⟨hbehind, hsize, pending.delivers⟩
    exact recvLoop_cases hmax hleft _ rfl rfl hnext hrun

theorem yclRecvmsg_spec (hmax : maxMsgsz ≤ 2 ^ 64)
    (hleft : ∀ x ∈ left, (encode x).length < 2 ^ 64)
    (pending : Pending msg fd left) (hwait : left ≠ [] ∨ 0 < againCount fd.events)
    (hrun : yclRecvmsg maxMsgsz msg fd = (result, after, last))
    (hlog : ∀ len ∈ last.buffered, len < maxMsgsz) : Received fd left result after last := by
  cases yclRecvmsg_cases hmax hleft pending hrun with
  | inl hreceived => exact hreceived
  | inr hrefused =>
    cases hrefused with
    | termination hnil hcount =>
      cases hwait with
      | inl hne => exact absurd hnil hne
      | inr hpos => omega
    | toolarge hlogged hlarge => exact absurd (hlog _ hlogged) (not_lt.mpr hlarge)

theorem recvLoop_again (weight : ℕ) : ∀ {msg : YclMsg} {fd : Fd},
    fd.weight = weight → ∀ {after last}, recvLoop maxMsgsz msg fd = (.again, after, last) →
      after.nextoff = msg.nextoff ∧
        netstringTryparse after.buf.contents = .error .errincomplete := by
  induction weight using Nat.strongRecOn with
  | _ weight ih =>
    intro msg fd hweight after last hrun
    rw [recvLoop] at hrun
    split at hrun
    · cases hrun
    · rename_i hmore
      split at hrun
      · rename_i buf mid hread
        cases hrun
        refine ⟨rfl, ?_⟩
        rw [contents_of_ioReadbuf_again hread]
        split at hmore
        · rename_i hzero
          rw [← Buf.length_contents, List.length_eq_zero_iff] at hzero
          rw [hzero]
          rfl
        · exact hmore
      · cases hrun
      · rename_i nread buf mid hread
        split at hrun
        · cases hrun
        · rename_i hnread
          split at hrun
          · cases hrun
          · have hless := ioReadbuf_weight hread hnread
            exact @ih _ (hweight ▸ hless) { msg with buf := buf } mid rfl after last hrun
    · cases hrun

theorem yclRecvmsg_again (hrun : yclRecvmsg maxMsgsz msg fd = (.again, after, last)) :
    after.nextoff = 0 ∧ netstringTryparse after.buf.contents = .error .errincomplete := by
  have hzero : ∀ {mid : YclMsg}, checkMsg msg = (.error .errincomplete, mid) →
      mid.nextoff = 0 := by
    intro mid hcheck
    unfold checkMsg at hcheck
    split at hcheck
    · split at hcheck
      · dsimp only at hcheck
        split at hcheck
        · cases hcheck
        · cases hcheck
          rfl
        · rename_i hne herror
          cases hcheck
          exact absurd rfl hne
      · cases hcheck
        rfl
    · cases hcheck
      rfl
  unfold yclRecvmsg at hrun
  split at hrun
  · cases hrun
  · rename_i mid hcheck
    obtain ⟨hnextoff, hmore⟩ := recvLoop_again _ rfl hrun
    exact ⟨hnextoff.trans (hzero hcheck), hmore⟩
  · cases hrun

theorem stream_ne_nil_of_again (hleft : ∀ x ∈ left, (encode x).length < 2 ^ 64)
    (hrun : yclRecvmsg maxMsgsz msg fd = (.again, after, last)) (pending : Pending after last left) :
    left = [] ∨ streamBytes last.events ≠ [] := by
  obtain ⟨hnextoff, hmore⟩ := yclRecvmsg_again hrun
  have hbehind := pending.behind
  rw [hnextoff, List.drop_zero] at hbehind
  have hsize : after.buf.contents.length < 2 ^ 64 := by
    rw [Buf.length_contents]
    exact pending.size
  obtain ⟨x, xs, rest, -, -, -, hok⟩ | ⟨-, hstate⟩ := tryparse_cases hbehind hsize hleft
  · rw [hmore] at hok
    cases hok
  · obtain ⟨hnil, -⟩ | ⟨-, hstream⟩ := hstate
    · exact .inl hnil
    · exact .inr hstream

/-! The record of buffered lengths only grows. -/

theorem recvLoop_buffered (maxMsgsz : ℕ) (msg : YclMsg) (fd : Fd) :
    fd.buffered <+: (recvLoop maxMsgsz msg fd).2.2.buffered := by
  induction hweight : fd.weight using Nat.strongRecOn generalizing msg fd with
  | _ weight ih =>
    have hread := ioReadbuf_buffered fd msg.buf
    rw [recvLoop]
    split
    · exact List.prefix_rfl
    · split
      · rename_i buf after hrun
        rw [hrun] at hread
        exact hread
      · rename_i buf after hrun
        rw [hrun] at hread
        exact hread
      · rename_i nread buf after hrun
        rw [hrun] at hread
        split
        · exact hread
        · rename_i hmore
          split
          · exact hread
          · exact hread.trans (ih _ (hweight ▸ ioReadbuf_weight hrun hmore) _ _ rfl)
    · exact List.prefix_rfl

theorem yclRecvmsg_buffered (maxMsgsz : ℕ) (msg : YclMsg) (fd : Fd) :
    fd.buffered <+: (yclRecvmsg maxMsgsz msg fd).2.2.buffered := by
  unfold yclRecvmsg
  split
  · exact List.prefix_rfl
  · exact recvLoop_buffered _ _ _
  · exact List.prefix_rfl

theorem session_buffered (caller : Caller) (maxMsgsz n : ℕ) : ∀ (msg : YclMsg) (fd : Fd),
    fd.buffered <+: (session caller maxMsgsz n msg fd).2.2.buffered := by
  induction n with
  | zero => exact fun _ _ => List.prefix_rfl
  | succ n ih =>
    intro msg fd
    have hcall := yclRecvmsg_buffered maxMsgsz msg fd
    rw [session]
    split <;> rename_i after last hrun <;> rw [hrun] at hcall <;> exact hcall.trans (ih _ _)

/-- Parsing the received message in place yields its payload, and the bytes
behind it are left alone whatever the caller does next. -/
theorem consume_spec {x rest : Bytes} {xs : List Bytes}
    (caller : Caller) (hcontents : msg.buf.contents = encode x ++ rest)
    (hnextoff : msg.nextoff = (encode x).length) (pending : Pending msg fd xs) :
    ∃ after, consume caller msg = (.message x, after) ∧ Pending after fd xs := by
  have hsize := pending.size
  have hlength : msg.buf.len = (encode x ++ rest).length := by
    rw [← hcontents, Buf.length_contents]
  have hdata : msg.buf.data = [] ++ (encode x ++ rest) ++ msg.buf.data.drop msg.buf.len := by
    rw [List.nil_append, ← hcontents, Buf.contents, List.take_append_drop]
  have hparse := @netstringParse_encode [] x rest (msg.buf.data.drop msg.buf.len)
    (by rw [← hlength]; exact hsize)
  rw [← hdata, ← hlength] at hparse
  simp only [List.length_nil, Nat.zero_add, List.nil_append] at hparse
  set tail := rest ++ msg.buf.data.drop msg.buf.len with htail
  have hmem : (consumed x ++ tail).length = msg.buf.data.length := by
    conv_rhs => rw [hdata]
    simp only [htail, List.length_append, List.length_nil, length_consumed]
    omega
  have hread := slice_consumed [] x tail
  simp only [List.nil_append, List.length_nil, Nat.zero_add] at hread
  refine ⟨caller.apply msg (consumed x ++ tail) hmem, ?_, ?_, hsize, pending.delivers⟩
  · unfold consume
    rw [hparse]
    simp only [dif_pos hmem, hread]
  · have hbehind := pending.behind
    rw [hcontents, hnextoff, List.drop_left] at hbehind
    have hfront : (caller.edit ((consumed x ++ tail).take msg.nextoff)).length =
        (encode x).length := by
      rw [caller.length_edit, hnextoff, ← length_consumed, List.take_left]
    have hkept : (consumed x ++ tail).drop msg.nextoff = tail := by
      rw [hnextoff, ← length_consumed, List.drop_left]
    unfold Caller.apply Buf.contents
    dsimp only
    generalize caller.edit ((consumed x ++ tail).take msg.nextoff) = front at hfront ⊢
    rw [hkept, hlength, List.length_append, hnextoff, ← hfront, List.take_length_add_append,
      List.drop_left, htail, List.take_left, hbehind]

/-- As many calls as there are messages and would-block results: every call
gives one of them, the messages in their order. -/
theorem session_spec (hmax : maxMsgsz ≤ 2 ^ 64) (caller : Caller) (n : ℕ) :
    ∀ {left : List Bytes} {msg : YclMsg} {fd : Fd}, Pending msg fd left →
      (∀ x ∈ left, (encode x).length < 2 ^ 64) → n = left.length + againCount fd.events →
      (∀ len ∈ (session caller maxMsgsz n msg fd).2.2.buffered, len < maxMsgsz) →
      (session caller maxMsgsz n msg fd).1.filterMap Outcome.payload? = left ∧
        (session caller maxMsgsz n msg fd).1.count .again = againCount fd.events := by
  induction n with
  | zero =>
    intro left msg fd _ _ hn _
    have hnil : left = [] := List.length_eq_zero_iff.mp (by omega)
    subst hnil
    exact ⟨rfl, by rw [List.length_nil, Nat.zero_add] at hn; exact hn⟩
  | succ n ih =>
    intro left msg fd pending hleft hn hlog
    have hwait : left ≠ [] ∨ 0 < againCount fd.events := by
      by_cases hnil : left = []
      · subst hnil
        right
        rw [List.length_nil] at hn
        omega
      · exact .inl hnil
    obtain ⟨result, after, last, hrun⟩ : ∃ result after last,
        yclRecvmsg maxMsgsz msg fd = (result, after, last) := ⟨_, _, _, rfl⟩
    have hlast : ∀ len ∈ last.buffered, len < maxMsgsz := by
      intro len hlen
      apply hlog
      rw [session, hrun]
      cases result <;> exact (session_buffered caller maxMsgsz n _ last).subset hlen
    have hreceived := yclRecvmsg_spec hmax hleft pending hwait hrun hlast
    cases hreceived with
    | message rest hcontents hnextoff pending' hagain =>
      obtain ⟨parsed, hconsume, hparsed⟩ := consume_spec caller hcontents hnextoff pending'
      rw [session, hrun] at hlog ⊢
      simp only [hconsume] at hlog ⊢
      obtain ⟨hmessages, hcount⟩ := ih hparsed (fun y hy => hleft y (List.mem_cons_of_mem _ hy))
        (by rw [List.length_cons] at hn; omega) hlog
      exact ⟨by rw [List.filterMap_cons_some (f := Outcome.payload?) rfl, hmessages],
        by rw [List.count_cons_of_ne (by simp), hcount, hagain]⟩
    | again pending' hagain =>
      rw [session, hrun] at hlog ⊢
      obtain ⟨hmessages, hcount⟩ := ih pending' hleft (by omega) hlog
      exact ⟨by rw [List.filterMap_cons_none (f := Outcome.payload?) rfl, hmessages],
        by rw [List.count_cons_self, hcount, hagain]⟩

/-- Any stream of messages, cut in any way and blocking anywhere: as long as the
buffered length stays below the limit, the calls deliver exactly the messages
in order, and every would-block result is reported once. -/
theorem recvmsg_reassembles (caller : Caller) {maxMsgsz : ℕ} (hmax : maxMsgsz < 2 ^ 64)
    (messages : List Bytes) (hmessages : ∀ x ∈ messages, (encode x).length < 2 ^ 64)
    (events : List ReadEvent) (hdelivers : ∀ event ∈ events, event.Delivers)
    (hstream : streamBytes events = (messages.map encode).flatten)
    (hlimit : ∀ len ∈ (session caller maxMsgsz (messages.length + againCount events) yclMsgInit
      ⟨events, []⟩).2.2.buffered, len < maxMsgsz) :
    (session caller maxMsgsz (messages.length + againCount events) yclMsgInit
        ⟨events, []⟩).1.filterMap Outcome.payload? = messages ∧
      (session caller maxMsgsz (messages.length + againCount events) yclMsgInit
        ⟨events, []⟩).1.count .again = againCount events := by
  have pending : Pending yclMsgInit ⟨events, []⟩ messages := by
    refine ⟨?_, Nat.two_pow_pos 64, hdelivers⟩
    unfold yclMsgInit
    rw [Buf.contents_init, hstream]
    rfl
  exact session_spec hmax.le caller _ pending hmessages rfl hlimit

/-! A stream below the limit never reaches it. -/

/-- No more than `bound` bytes are, or ever were, in the buffer and the stream
together. -/
structure Bounded (bound : ℕ) (msg : YclMsg) (fd : Fd) : Prop where
  total : msg.buf.len + (streamBytes fd.events).length ≤ bound
  log : ∀ len ∈ fd.buffered, len ≤ bound

variable {bound : ℕ}

theorem ioReadbuf_bounded (h : Bounded bound msg fd) :
    Bounded bound { msg with buf := (ioReadbuf fd msg.buf).2.1 } (ioReadbuf fd msg.buf).2.2 := by
  obtain ⟨events, log⟩ := fd
  have htotal := h.total
  have hlog := h.log
  unfold ioReadbuf
  set room := if msg.buf.cap - msg.buf.len < readbufGrowsz then msg.buf.grow readbufGrowsz
    else msg.buf with hroom
  have hsame : room.len = msg.buf.len := by
    rw [hroom]
    split <;> rfl
  cases events with
  | nil => exact ⟨by simpa [hsame] using htotal, hlog⟩
  | cons event rest =>
    cases event with
    | again => exact ⟨by simpa [hsame, streamBytes] using htotal, hlog⟩
    | fail => exact ⟨by simpa [hsame, streamBytes] using htotal, hlog⟩
    | data chunk =>
      simp only [streamBytes, List.length_append] at htotal
      have hcopied : (room.copyIn (chunk.take (room.cap - room.len))).len =
          msg.buf.len + min (room.cap - room.len) chunk.length := by
        simp [Buf.copyIn, hsame]
      refine ⟨?_, ?_⟩
      · dsimp only
        rw [hcopied]
        split
        · omega
        · simp only [streamBytes, List.length_append, List.length_drop]
          omega
      · intro len hmem
        obtain hold | hnew := List.mem_append.mp hmem
        · exact hlog len hold
        · rw [List.mem_singleton.mp hnew, hcopied]
          omega

theorem recvLoop_bounded (maxMsgsz : ℕ)
    (h : Bounded bound msg fd) :
    Bounded bound (recvLoop maxMsgsz msg fd).2.1 (recvLoop maxMsgsz msg fd).2.2 := by
  induction hweight : fd.weight using Nat.strongRecOn generalizing msg fd with
  | _ weight ih =>
    have hread := ioReadbuf_bounded h
    rw [recvLoop]
    split
    · exact ⟨h.total, h.log⟩
    · split
      · rename_i buf after hrun
        rw [hrun] at hread
        exact hread
      · rename_i buf after hrun
        rw [hrun] at hread
        exact hread
      · rename_i nread buf after hrun
        rw [hrun] at hread
        split
        · exact hread
        · rename_i hmore
          split
          · exact hread
          · exact ih _ (hweight ▸ ioReadbuf_weight hrun hmore) hread rfl
    · exact h

theorem yclRecvmsg_bounded (maxMsgsz : ℕ)
    (h : Bounded bound msg fd) :
    Bounded bound (yclRecvmsg maxMsgsz msg fd).2.1 (yclRecvmsg maxMsgsz msg fd).2.2 := by
  have htotal := h.total
  have hcheck : Bounded bound (checkMsg msg).2 fd := by
    refine ⟨?_, h.log⟩
    have hshift : (msg.buf.shiftDown msg.nextoff).len = msg.buf.len - msg.nextoff := rfl
    have hclear : msg.buf.clear.len = 0 := rfl
    unfold checkMsg
    split
    · split
      · dsimp only
        split <;> dsimp only <;> omega
      · dsimp only
        omega
    · exact htotal
  unfold yclRecvmsg
  split <;> rename_i hrun <;> rw [hrun] at hcheck
  · exact hcheck
  · exact recvLoop_bounded maxMsgsz hcheck
  · exact hcheck

theorem session_bounded (caller : Caller) (maxMsgsz n : ℕ) :
    ∀ {msg : YclMsg} {fd : Fd}, Bounded bound msg fd →
      Bounded bound (session caller maxMsgsz n msg fd).2.1
        (session caller maxMsgsz n msg fd).2.2 := by
  induction n with
  | zero => exact fun h => h
  | succ n ih =>
    intro msg fd h
    have hcall := yclRecvmsg_bounded maxMsgsz h
    rw [session]
    split <;> rename_i after last hrun <;> rw [hrun] at hcall
    · apply ih
      refine ⟨?_, hcall.log⟩
      have hlen : (consume caller after).2.buf.len = after.buf.len := by
        unfold consume
        split
        · rfl
        · split <;> rfl
      rw [hlen]
      exact hcall.total
    · exact ih hcall
    · exact ih hcall

/-! One call on what has come so far. -/

theorem recvLoop_bytes (weight : ℕ) : ∀ {msg : YclMsg} {fd : Fd},
    fd.weight = weight → (∀ event ∈ fd.events, event.Delivers) →
    ∀ {result after last}, recvLoop maxMsgsz msg fd = (result, after, last) →
      after.buf.contents ++ streamBytes last.events =
          msg.buf.contents ++ streamBytes fd.events ∧
        (result = .again → after.nextoff = msg.nextoff) := by
  induction weight using Nat.strongRecOn with
  | _ weight ih =>
    intro msg fd hweight hdelivers result after last hrun
    rw [recvLoop] at hrun
    split at hrun
    · cases hrun
      exact ⟨rfl, fun h => by cases h⟩
    · split at hrun
      · rename_i buf mid hread
        cases hrun
        exact ⟨(ioReadbuf_reads hdelivers hread).bytes, fun _ => rfl⟩
      · rename_i buf mid hread
        cases hrun
        exact ⟨(ioReadbuf_reads hdelivers hread).bytes, fun h => by cases h⟩
      · rename_i nread buf mid hread
        have hreads := ioReadbuf_reads hdelivers hread
        split at hrun
        · cases hrun
          exact ⟨hreads.bytes, fun h => by cases h⟩
        · rename_i hmore
          split at hrun
          · cases hrun
            exact ⟨hreads.bytes, fun h => by cases h⟩
          · have hless := ioReadbuf_weight hread hmore
            obtain ⟨hbytes, hnextoff⟩ := ih _ (hweight ▸ hless) rfl hreads.delivers hrun
            exact ⟨hbytes.trans hreads.bytes, hnextoff⟩
    · cases hrun
      exact ⟨rfl, fun h => by cases h⟩

theorem yclRecvmsg_eq_recvLoop (maxMsgsz : ℕ) (h : msg.nextoff = 0) (fd : Fd) :
    yclRecvmsg maxMsgsz msg fd = recvLoop maxMsgsz msg fd := by
  obtain ⟨buf, mbuf, optbuf, nextoff⟩ := msg
  subst h
  rfl

theorem yclRecvmsg_alone (hmax : maxMsgsz ≤ 2 ^ 64) {x : Bytes}
    (hx : (encode x).length < maxMsgsz) (hnextoff : msg.nextoff = 0)
    {reads : List ReadEvent} (hdelivers : ∀ event ∈ reads, event.Delivers)
    (hagain : againCount reads = 0) (hbytes : msg.buf.contents ++ streamBytes reads = encode x) :
    ∃ after log, yclRecvmsg maxMsgsz msg ⟨reads, []⟩ = (.ok, after, ⟨[], log⟩) ∧
      after.buf.contents = encode x := by
  have hlength : msg.buf.len + (streamBytes reads).length = (encode x).length := by
    rw [← hbytes, List.length_append, Buf.length_contents]
  have hpending : Pending msg ⟨reads, []⟩ [x] := by
    refine ⟨?_, by omega, hdelivers⟩
    rw [hnextoff, List.drop_zero, hbytes]
    exact (List.append_nil _).symm
  obtain ⟨result, after, last, hrun⟩ : ∃ result after last,
      yclRecvmsg maxMsgsz msg ⟨reads, []⟩ = (result, after, last) := ⟨_, _, _, rfl⟩
  have hbounded : Bounded (encode x).length msg ⟨reads, []⟩ := ⟨hlength.le, nofun⟩
  have hlog := (yclRecvmsg_bounded maxMsgsz hbounded).log
  rw [hrun] at hlog
  have hreceived := yclRecvmsg_spec hmax (by simpa using hx.trans_le hmax) hpending
    (.inl (List.cons_ne_nil x [])) hrun fun len hlen => (hlog len hlen).trans_lt hx
  cases hreceived with
  | again _ hcount =>
    dsimp only at hcount
    omega
  | message rest hcontents hoff hrest hcount =>
    have hbehind := hrest.behind
    rw [hcontents, hoff, List.drop_left] at hbehind
    obtain ⟨hnil, hstream⟩ := List.append_eq_nil_iff.mp hbehind
    have hevents : last.events = [] := by
      rw [List.eq_nil_iff_forall_not_mem]
      intro event hevent
      have hdata := hrest.delivers event hevent
      cases event with
      | fail => exact hdata
      | again =>
        have hpos : 0 < againCount last.events := List.count_pos_iff.mpr hevent
        dsimp only at hcount
        omega
      | data chunk => exact hdata (chunk_eq_nil_of_streamBytes hstream hevent)
    refine ⟨after, last.buffered, ?_, ?_⟩
    · rw [hrun, ← hevents]
    · rw [hcontents, hnil, List.append_nil]

/-- Two messages cut inside the first length, inside the second message and
blocking twice; the caller clears what it has read. -/
theorem recvmsg_reassembles_run :
    ∃ outcomes, outcomes = (session ⟨fun bytes => bytes.map fun _ => 0, fun _ => List.length_map _⟩
        1048576 4 yclMsgInit
        ⟨[.data [51], .again, .data [58, 44, 58, 49, 44, 48], .again, .data [58, 44]], []⟩).1 ∧
      outcomes.filterMap Outcome.payload? = [[44, 58, 49], []] ∧ outcomes.count .again = 2 := by
  have hzero : numeral 0 = [48] := numeral_small rfl
  have hthree : numeral 3 = [51] := numeral_small rfl
  have h := recvmsg_reassembles ⟨fun bytes => bytes.map fun _ => 0, fun _ => List.length_map _⟩
    (show 1048576 < 2 ^ 64 by decide) [[44, 58, 49], []]
    (by simp [length_encode, hzero, hthree])
    [.data [51], .again, .data [58, 44, 58, 49, 44, 48], .again, .data [58, 44]]
    (by simp [ReadEvent.Delivers])
    (by simp [streamBytes, encode, lengthPrefix, hzero, hthree, colon, comma])
    (by
      intro len hlen
      have hbound := (session_bounded _ _ _ (show Bounded 9 yclMsgInit _ from
        ⟨by decide, by simp⟩)).log len hlen
      omega)
  exact ⟨_, rfl, h⟩

end Yans.Ycl
