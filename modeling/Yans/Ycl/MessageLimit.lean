import Yans.Ycl.Reassembly

/-! The limit on the size of a message. It is tested on the whole buffer after each
read, so that bytes of the following messages count when they arrive together with
the end of a short one. -/
namespace Yans.Ycl

open Library.Memory Library.Decimal Util Util.Netstring

def dflMaxmsgsz : ℕ := 1024 * 1024

/-- The read that brings `need` bytes into the buffer brings it to the limit. -/
inductive Overshoots (limit need : ℕ) : Buf → Fd → Prop where
  | completes {buf buf' : Buf} {fd after : Fd} {nread : ℕ} (before : buf.len < need)
      (read : ioReadbuf fd buf = (.ok nread, buf', after)) (complete : need ≤ buf'.len)
      (large : limit ≤ buf'.len) : Overshoots limit need buf fd
  | more {buf buf' : Buf} {fd after : Fd} {nread : ℕ} (before : buf.len < need)
      (read : ioReadbuf fd buf = (.ok nread, buf', after))
      (later : Overshoots limit need buf' after) : Overshoots limit need buf fd

def ConcernsOne (maxMsgsz : ℕ) (msg : YclMsg) (fd : Fd) (left : List Bytes) : Prop :=
  (yclRecvmsg maxMsgsz msg fd).1 = .err .toolarge →
    ∃ x xs, left = x :: xs ∧ maxMsgsz ≤ (encode x).length

/-- A message below the limit is to come, and the read that completes it brings so many
bytes of the following messages that the limit is reached. -/
def Overfills (maxMsgsz : ℕ) (msg : YclMsg) (fd : Fd) (left : List Bytes) : Prop :=
  ∃ x xs, left = x :: xs ∧ (encode x).length < maxMsgsz ∧
    Overshoots maxMsgsz (encode x).length (msg.buf.shiftDown msg.nextoff) fd

theorem Overshoots.before {limit need : ℕ} {buf : Buf} {fd : Fd}
    (h : Overshoots limit need buf fd) : buf.len < need := by
  cases h with
  | completes before _ _ _ => exact before
  | more before _ _ => exact before

variable {maxMsgsz : ℕ}

section Loop

variable {msg : YclMsg} {fd : Fd}

theorem recvLoop_of_ok {nextoff : ℕ} (h : netstringTryparse msg.buf.contents = .ok nextoff) :
    recvLoop maxMsgsz msg fd = (.ok, { msg with nextoff := nextoff }, fd) := by
  have hsome : msg.buf.len ≠ 0 := by
    intro hzero
    rw [← Buf.length_contents, List.length_eq_zero_iff] at hzero
    rw [hzero] at h
    cases h
  rw [recvLoop, if_neg hsome, h]

theorem recvLoop_of_incomplete (h : netstringTryparse msg.buf.contents = .error .errincomplete) :
    recvLoop maxMsgsz msg fd =
      match ioReadbuf fd msg.buf with
      | (.again, buf, fd) => (.again, { msg with buf := buf }, fd)
      | (.err, buf, fd) => (.err .io, { msg with buf := buf }, fd)
      | (.ok nread, buf, after) =>
        if nread = 0 then (.err .termination, { msg with buf := buf }, after)
        else if buf.len ≥ maxMsgsz then (.err .toolarge, { msg with buf := buf }, after)
        else recvLoop maxMsgsz { msg with buf := buf } after := by
  rw [recvLoop, h, ite_self]
  dsimp only
  split <;> rename_i hread <;> simp only [hread, dite_eq_ite]

theorem Pending.first {x : Bytes} {xs : List Bytes} (pending : Pending msg fd (x :: xs))
    (hnextoff : msg.nextoff = 0) (hleft : ∀ y ∈ x :: xs, (encode y).length < 2 ^ 64) :
    ((encode x).length ≤ msg.buf.len ∧
      netstringTryparse msg.buf.contents = .ok (encode x).length) ∨
    (msg.buf.len < (encode x).length ∧
      netstringTryparse msg.buf.contents = .error .errincomplete ∧ streamBytes fd.events ≠ []) := by
  have hbehind := pending.behind
  rw [hnextoff, List.drop_zero] at hbehind
  have hsize : msg.buf.contents.length < 2 ^ 64 := by
    rw [Buf.length_contents]
    exact pending.size
  obtain ⟨y, ys, rest, hcons, hcontents, -, hok⟩ | ⟨hmore, hstate⟩ :=
    tryparse_cases hbehind hsize hleft
  · left
    cases hcons
    refine ⟨?_, hok⟩
    rw [← Buf.length_contents, hcontents, List.length_append]
    exact Nat.le_add_right _ _
  · right
    obtain ⟨hnil, -⟩ | ⟨-, hstream⟩ := hstate
    · cases hnil
    refine ⟨?_, hmore, hstream⟩
    by_contra hlong
    rw [← Buf.length_contents] at hlong
    have hcons : encodings (x :: xs) = encode x ++ encodings xs := rfl
    obtain ⟨rest, hrest⟩ : encode x <+: msg.buf.contents :=
      List.prefix_of_prefix_length_le ⟨_, hcons.symm⟩ ⟨_, hbehind⟩ (Nat.not_lt.mp hlong)
    rw [← hrest] at hsize hmore
    rw [netstringTryparse_encode hsize] at hmore
    cases hmore

theorem Pending.read {left : List Bytes} (pending : Pending msg fd left)
    (hnextoff : msg.nextoff = 0) {ret : IoResult} {buf : Buf} {after : Fd}
    (hread : ioReadbuf fd msg.buf = (ret, buf, after)) (hsize : buf.len < 2 ^ 64) :
    Pending { msg with buf := buf } after left := by
  have hreads := ioReadbuf_reads pending.delivers hread
  have hbehind := pending.behind
  rw [hnextoff, List.drop_zero] at hbehind
  refine ⟨?_, hsize, hreads.delivers⟩
  rw [hnextoff, List.drop_zero, hreads.bytes, hbehind]

end Loop

/-- The induction is on what the descriptor can still deliver. A message below the limit
is refused by the read that completes it or not at all. -/
theorem recvLoop_toolarge_iff (hmax : maxMsgsz < 2 ^ 64) {x : Bytes}
    {xs : List Bytes} (hleft : ∀ y ∈ x :: xs, (encode y).length < 2 ^ 64)
    (hsmall : (encode x).length < maxMsgsz) (weight : ℕ) : ∀ {msg : YclMsg} {fd : Fd},
    fd.weight = weight → msg.nextoff = 0 → Pending msg fd (x :: xs) →
    ((recvLoop maxMsgsz msg fd).1 = .err .toolarge ↔
      Overshoots maxMsgsz (encode x).length msg.buf fd) := by
  induction weight using Nat.strongRecOn with
  | _ weight ih =>
    intro msg fd hweight hnextoff pending
    obtain ⟨hhere, hok⟩ | ⟨hbefore, hmore, hstream⟩ := pending.first hnextoff hleft
    · rw [recvLoop_of_ok hok]
      exact iff_of_false nofun fun h => absurd h.before (Nat.not_lt.mpr hhere)
    rw [recvLoop_of_incomplete hmore]
    cases hread : ioReadbuf fd msg.buf with
    | mk ret rest =>
      obtain ⟨buf, after⟩ := rest
      have hreads := ioReadbuf_reads pending.delivers hread
      obtain ⟨rfl, -, hend⟩ | ⟨nread, hnread, rfl, -⟩ | ⟨rfl, -⟩ := hreads.result
      · rw [hend] at hstream
        exact absurd rfl hstream
      · dsimp only
        rw [if_neg hnread]
        by_cases hlarge : buf.len ≥ maxMsgsz
        · rw [if_pos hlarge]
          exact iff_of_true rfl (.completes hbefore hread (hsmall.le.trans hlarge) hlarge)
        · rw [if_neg hlarge]
          have hnext := pending.read hnextoff hread (by omega)
          have hless := hweight ▸ ioReadbuf_weight hread hnread
          refine (@ih _ hless { msg with buf := buf } after rfl hnextoff hnext).trans ?_
          constructor
          · exact fun h => .more hbefore hread h
          · intro h
            cases h with
            | completes _ hagain _ hover =>
              rw [hread] at hagain
              cases hagain
              exact absurd hover hlarge
            | more _ hagain hlater =>
              rw [hread] at hagain
              cases hagain
              exact hlater
      · refine iff_of_false nofun fun h => ?_
        cases h with
        | completes _ hagain _ _ =>
          rw [hread] at hagain
          cases hagain
        | more _ hagain _ =>
          rw [hread] at hagain
          cases hagain

inductive Keeps : List Bytes → YclResult → YclMsg → Fd → Prop where
  | message {x : Bytes} {xs : List Bytes} {msg : YclMsg} {fd : Fd} (rest : Bytes)
      (contents_eq : msg.buf.contents = encode x ++ rest)
      (nextoff_eq : msg.nextoff = (encode x).length) (pending : Pending msg fd xs) :
      Keeps (x :: xs) .ok msg fd
  | nothing {left : List Bytes} {result : YclResult} {msg : YclMsg} {fd : Fd}
      (none : result ≠ .ok) (pending : Pending msg fd left) : Keeps left result msg fd

theorem recvLoop_keeps {left : List Bytes}
    (hleft : ∀ x ∈ left, (encode x).length < 2 ^ 64) (weight : ℕ) : ∀ {msg : YclMsg} {fd : Fd},
    fd.weight = weight → msg.nextoff = 0 → Pending msg fd left →
    ∀ {result after last}, recvLoop maxMsgsz msg fd = (result, after, last) →
      (∀ len ∈ last.buffered, len < 2 ^ 64) → Keeps left result after last := by
  induction weight using Nat.strongRecOn with
  | _ weight ih =>
    intro msg fd hweight hnextoff pending result after last hrun hlog
    have hbehind := pending.behind
    rw [hnextoff, List.drop_zero] at hbehind
    have hsize : msg.buf.contents.length < 2 ^ 64 := by
      rw [Buf.length_contents]
      exact pending.size
    obtain ⟨x, xs, rest, rfl, hcontents, hrest, hok⟩ | ⟨hmore, -⟩ :=
      tryparse_cases hbehind hsize hleft
    · rw [recvLoop_of_ok hok] at hrun
      cases hrun
      refine .message rest hcontents rfl ⟨?_, pending.size, pending.delivers⟩
      dsimp only
      rw [hcontents, List.drop_left, hrest]
    rw [recvLoop_of_incomplete hmore] at hrun
    cases hread : ioReadbuf fd msg.buf with
    | mk ret read =>
      obtain ⟨buf, mid⟩ := read
      rw [hread] at hrun
      have hnext : (∀ len ∈ mid.buffered, len < 2 ^ 64) →
          Pending { msg with buf := buf } mid left := by
        intro hmid
        apply pending.read hnextoff hread
        obtain hsame | hlogged := ioReadbuf_len hread
        · exact hsame ▸ pending.size
        · exact hmid _ hlogged
      cases ret with
      | again =>
        cases hrun
        exact .nothing nofun (hnext hlog)
      | err =>
        cases hrun
        exact .nothing nofun (hnext hlog)
      | ok nread =>
        dsimp only at hrun
        by_cases hnread : nread = 0
        · rw [if_pos hnread] at hrun
          cases hrun
          exact .nothing nofun (hnext hlog)
        rw [if_neg hnread] at hrun
        by_cases hlarge : buf.len ≥ maxMsgsz
        · rw [if_pos hlarge] at hrun
          cases hrun
          exact .nothing nofun (hnext hlog)
        · rw [if_neg hlarge] at hrun
          have hless := hweight ▸ ioReadbuf_weight hread hnread
          have hgrows := recvLoop_buffered maxMsgsz { msg with buf := buf } mid
          rw [hrun] at hgrows
          exact @ih _ hless { msg with buf := buf } mid rfl hnextoff
            (hnext fun len hlen => hlog len (hgrows.subset hlen)) _ _ _ hrun hlog

/-- The loop starts with what is behind the previous message. -/
def YclMsg.next (msg : YclMsg) : YclMsg :=
  { msg with buf := msg.buf.shiftDown msg.nextoff, nextoff := 0 }

section Session

variable {msg : YclMsg} {fd : Fd} {left : List Bytes}

theorem Pending.next (pending : Pending msg fd left) : Pending msg.next fd left := by
  refine ⟨?_, (Nat.sub_le _ _).trans_lt pending.size, pending.delivers⟩
  unfold YclMsg.next
  rw [List.drop_zero, Buf.contents_shiftDown, pending.behind]

theorem yclRecvmsg_eq_next (maxMsgsz : ℕ) (pending : Pending msg fd left)
    (hleft : ∀ x ∈ left, (encode x).length < 2 ^ 64) :
    yclRecvmsg maxMsgsz msg fd = recvLoop maxMsgsz msg.next fd := by
  have hbehind := pending.next.behind
  rw [show msg.next.nextoff = 0 from rfl, List.drop_zero] at hbehind
  have hsize : msg.next.buf.contents.length < 2 ^ 64 := by
    rw [Buf.length_contents]
    exact pending.next.size
  unfold yclRecvmsg checkMsg
  by_cases hprevious : msg.nextoff > 0
  · rw [if_pos hprevious]
    by_cases htrailing : msg.nextoff < msg.buf.len
    · rw [if_pos htrailing]
      dsimp only
      obtain ⟨x, xs, rest, -, -, -, hok⟩ | ⟨hmore, -⟩ := tryparse_cases hbehind hsize hleft
      · rw [recvLoop_of_ok hok]
        unfold YclMsg.next at hok
        rw [hok]
        rfl
      · unfold YclMsg.next at hmore
        rw [hmore]
        rfl
    · rw [if_neg htrailing, YclMsg.next, Buf.shiftDown_of_le (Nat.not_lt.mp htrailing)]
  · have hzero : msg.nextoff = 0 := by omega
    rw [if_neg hprevious, YclMsg.next, hzero, Buf.shiftDown_zero]

theorem yclRecvmsg_keeps (pending : Pending msg fd left)
    (hleft : ∀ x ∈ left, (encode x).length < 2 ^ 64) {result : YclResult} {after : YclMsg}
    {last : Fd} (hrun : yclRecvmsg maxMsgsz msg fd = (result, after, last))
    (hlog : ∀ len ∈ last.buffered, len < 2 ^ 64) : Keeps left result after last := by
  rw [yclRecvmsg_eq_next maxMsgsz pending hleft] at hrun
  exact recvLoop_keeps hleft _ rfl rfl pending.next hrun hlog

theorem recvLoop_nil (maxMsgsz : ℕ) (pending : Pending msg fd []) (hnextoff : msg.nextoff = 0) :
    (recvLoop maxMsgsz msg fd).1 ≠ .err .toolarge := by
  have hbehind := pending.behind
  rw [hnextoff, List.drop_zero] at hbehind
  obtain ⟨hcontents, hstream⟩ := List.append_eq_nil_iff.mp hbehind
  have hmore : netstringTryparse msg.buf.contents = .error .errincomplete := by
    rw [hcontents]
    rfl
  rw [recvLoop_of_incomplete hmore]
  cases hread : ioReadbuf fd msg.buf with
  | mk ret read =>
    obtain ⟨buf, after⟩ := read
    have hreads := ioReadbuf_reads pending.delivers hread
    obtain ⟨rfl, -, -⟩ | ⟨nread, hnread, rfl, -⟩ | ⟨rfl, -⟩ := hreads.result
    · exact nofun
    · cases hevents : fd.events with
      | nil =>
        unfold ioReadbuf at hread
        rw [hevents] at hread
        cases hread
        exact absurd rfl hnread
      | cons event rest =>
        have hmem : event ∈ fd.events := hevents ▸ List.mem_cons_self
        have hevent := pending.delivers event hmem
        cases event with
        | data chunk => exact absurd (chunk_eq_nil_of_streamBytes hstream hmem) hevent
        | again =>
          obtain ⟨grown, hagain, -⟩ := ioReadbuf_again hevents msg.buf
          rw [hagain] at hread
          cases hread
        | fail => exact absurd hevent id
    · exact nofun

theorem concernsOne_iff (hmax : maxMsgsz < 2 ^ 64) (pending : Pending msg fd left)
    (hleft : ∀ x ∈ left, (encode x).length < 2 ^ 64) :
    ConcernsOne maxMsgsz msg fd left ↔ ¬ Overfills maxMsgsz msg fd left := by
  unfold ConcernsOne Overfills
  rw [yclRecvmsg_eq_next maxMsgsz pending hleft]
  cases left with
  | nil =>
    refine iff_of_true (fun h => absurd h (recvLoop_nil maxMsgsz pending.next rfl)) ?_
    rintro ⟨x, xs, hcons, -⟩
    cases hcons
  | cons x xs =>
    by_cases hsmall : (encode x).length < maxMsgsz
    · rw [recvLoop_toolarge_iff hmax hleft hsmall _ rfl rfl pending.next]
      constructor
      · rintro hconcerns ⟨y, ys, hcons, -, hovershoots⟩
        cases hcons
        obtain ⟨z, zs, hcons, hlarge⟩ := hconcerns hovershoots
        cases hcons
        exact Nat.not_le.mpr hsmall hlarge
      · intro hnot hovershoots
        exact absurd ⟨x, xs, rfl, hsmall, hovershoots⟩ hnot
    · refine iff_of_true (fun _ => ⟨x, xs, rfl, Nat.not_lt.mp hsmall⟩) ?_
      rintro ⟨y, ys, hcons, hless, -⟩
      cases hcons
      exact hsmall hless

theorem session_keeps {caller : Caller} (n : ℕ) :
    ∀ {left : List Bytes} {msg : YclMsg} {fd : Fd}, Pending msg fd left →
      (∀ x ∈ left, (encode x).length < 2 ^ 64) →
      ∀ {outcomes after last}, session caller maxMsgsz n msg fd = (outcomes, after, last) →
        (∀ len ∈ last.buffered, len < 2 ^ 64) →
        ∃ more, left = outcomes.filterMap Outcome.payload? ++ more ∧ Pending after last more := by
  induction n with
  | zero =>
    intro left msg fd pending _ outcomes after last hrun _
    cases hrun
    exact ⟨left, rfl, pending⟩
  | succ n ih =>
    intro left msg fd pending hleft outcomes after last hrun hlog
    obtain ⟨result, mid, midFd, hcall⟩ : ∃ result mid midFd,
        yclRecvmsg maxMsgsz msg fd = (result, mid, midFd) := ⟨_, _, _, rfl⟩
    have hmid : ∀ {later : YclMsg}, (session caller maxMsgsz n later midFd).2.2 = last →
        ∀ len ∈ midFd.buffered, len < 2 ^ 64 := by
      intro later hlater len hlen
      apply hlog
      rw [← hlater]
      exact (session_buffered caller maxMsgsz n later midFd).subset hlen
    rw [session, hcall] at hrun
    have hkept : ∀ {outcome : Outcome}, outcome.payload? = none → Pending mid midFd left →
        ((outcome :: (session caller maxMsgsz n mid midFd).1,
          (session caller maxMsgsz n mid midFd).2.1,
          (session caller maxMsgsz n mid midFd).2.2) : List Outcome × YclMsg × Fd) =
            (outcomes, after, last) →
        ∃ more, left = outcomes.filterMap Outcome.payload? ++ more ∧ Pending after last more := by
      intro outcome hnone hpending hrest
      simp only [Prod.mk.injEq] at hrest
      obtain ⟨rfl, rfl, rfl⟩ := hrest
      rw [List.filterMap_cons_none hnone]
      exact ih hpending hleft rfl hlog
    cases result with
    | ok =>
      simp only [Prod.mk.injEq] at hrun
      obtain ⟨houtcomes, hafter, hlast⟩ := hrun
      have hkeeps := yclRecvmsg_keeps pending hleft hcall (hmid hlast)
      cases hkeeps with
      | nothing hnone _ => exact absurd rfl hnone
      | @message x xs _ _ rest hcontents hnextoff hpending =>
        obtain ⟨parsed, hconsume, hparsed⟩ := consume_spec caller hcontents hnextoff hpending
        rw [hconsume] at houtcomes hafter hlast
        obtain ⟨more, hmore, hfinal⟩ :=
          ih hparsed (fun y hy => hleft y (List.mem_cons_of_mem _ hy)) rfl (hlast ▸ hlog)
        refine ⟨more, ?_, hafter ▸ hlast ▸ hfinal⟩
        rw [← houtcomes, List.filterMap_cons_some (f := Outcome.payload?) rfl, List.cons_append,
          ← hmore]
    | again =>
      have hkeeps := yclRecvmsg_keeps pending hleft hcall
        (hmid (congrArg (fun run : List Outcome × YclMsg × Fd => run.2.2) hrun))
      cases hkeeps with
      | nothing _ hpending => exact hkept rfl hpending hrun
    | err code =>
      have hkeeps := yclRecvmsg_keeps pending hleft hcall
        (hmid (congrArg (fun run : List Outcome × YclMsg × Fd => run.2.2) hrun))
      cases hkeeps with
      | nothing _ hpending => exact hkept rfl hpending hrun

end Session

/-- After any number of calls on a stream of messages, the limit of the next one concerns the
message that it receives exactly if it does not overfill the buffer with messages behind a
short one. -/
theorem toolarge_concerns_one_iff (caller : Caller) {maxMsgsz : ℕ} (hmax : maxMsgsz < 2 ^ 64)
    (messages : List Bytes) (hmessages : ∀ x ∈ messages, (encode x).length < 2 ^ 64)
    (events : List ReadEvent) (hdelivers : ∀ event ∈ events, event.Delivers)
    (hstream : streamBytes events = (messages.map encode).flatten) (n : ℕ)
    {outcomes : List Outcome} {msg : YclMsg} {fd : Fd}
    (hrun : session caller maxMsgsz n yclMsgInit ⟨events, []⟩ = (outcomes, msg, fd))
    (hsize : ∀ len ∈ fd.buffered, len < 2 ^ 64) :
    ∃ left, messages = outcomes.filterMap Outcome.payload? ++ left ∧
      (ConcernsOne maxMsgsz msg fd left ↔ ¬ Overfills maxMsgsz msg fd left) := by
  have pending : Pending yclMsgInit ⟨events, []⟩ messages := by
    refine ⟨?_, Nat.two_pow_pos 64, hdelivers⟩
    unfold yclMsgInit
    rw [Buf.contents_init, hstream]
    rfl
  obtain ⟨left, hleft, hpending⟩ := session_keeps n pending hmessages hrun hsize
  refine ⟨left, hleft, concernsOne_iff hmax hpending fun x hx => hmessages x ?_⟩
  rw [hleft]
  exact List.mem_append_right _ hx

/-- Two messages in one read, of which the first has been received. -/
theorem toolarge_concerns_one_iff_two :
    let run := session ⟨id, fun _ => rfl⟩ dflMaxmsgsz 1 yclMsgInit
      ⟨[.data [49, 58, 97, 44, 49, 58, 98, 44]], []⟩
    ∃ left, [[97], [98]] = run.1.filterMap Outcome.payload? ++ left ∧
      (ConcernsOne dflMaxmsgsz run.2.1 run.2.2 left ↔
        ¬ Overfills dflMaxmsgsz run.2.1 run.2.2 left) := by
  have hnumeral : numeral 1 = [49] := numeral_small rfl
  refine toolarge_concerns_one_iff ⟨id, fun _ => rfl⟩ (by decide) [[97], [98]] ?_
    [.data [49, 58, 97, 44, 49, 58, 98, 44]] ?_ ?_ 1 rfl ?_
  · simp [length_encode, hnumeral]
  · simp [ReadEvent.Delivers]
  · simp [streamBytes, encode, lengthPrefix, hnumeral, colon, comma]
  · decide +kernel

/-! A short message in front of a long one -/

/-- Whether reading a chunk with a buffer of this length and capacity overshoots. -/
def fills (limit need : ℕ) : ℕ → ℕ → ℕ → ℕ → Bool
  | 0, _, _, _ => false
  | rounds + 1, len, cap, chunk =>
    let added := Buf.alignOffset (cap / 2)
    let cap := if cap - len < readbufGrowsz then
      cap + (if added < readbufGrowsz then Buf.alignOffset readbufGrowsz else added) else cap
    len < need && (chunk ≥ cap - len) &&
      (need ≤ cap && limit ≤ cap ||
        chunk > cap - len && fills limit need rounds cap cap (chunk - (cap - len)))

theorem ioReadbuf_fills {fd : Fd} {buf : Buf} {chunk : Bytes} {cap : ℕ}
    (hevents : fd.events = [.data chunk])
    (hcap : (if buf.cap - buf.len < readbufGrowsz then buf.grow readbufGrowsz else buf).cap = cap)
    (hlong : cap - buf.len ≤ chunk.length) :
    ∃ nread buf' after, ioReadbuf fd buf = (.ok nread, buf', after) ∧ buf'.len = cap ∧
      buf'.cap = cap ∧
      (cap - buf.len < chunk.length → after.events = [.data (chunk.drop (cap - buf.len))]) := by
  have hroom : (if buf.cap - buf.len < readbufGrowsz then buf.grow readbufGrowsz
      else buf).len = buf.len := by
    split <;> rfl
  unfold ioReadbuf
  rw [hevents]
  generalize (if buf.cap - buf.len < readbufGrowsz then buf.grow readbufGrowsz else buf) = room
    at hcap hroom ⊢
  have hle := room.len_le
  have htake : (chunk.take (room.cap - room.len)).length = cap - buf.len := by
    rw [List.length_take, hcap, hroom, Nat.min_eq_left hlong]
  have hfull : buf.len + (cap - buf.len) = cap := by
    unfold Buf.cap at hcap
    omega
  refine ⟨_, _, _, rfl, ?_, ?_, fun hmore => ?_⟩
  · unfold Buf.copyIn
    dsimp only
    rw [htake, hroom, hfull]
  · unfold Buf.copyIn Buf.cap
    rw [length_write, ← Buf.cap, hcap]
    change room.len + (chunk.take (room.cap - room.len)).length ≤ room.cap
    rw [htake, hroom, hfull, hcap]
  · dsimp only
    rw [hcap, hroom, if_neg (Nat.not_le.mpr hmore)]

theorem overshoots_of_fills {limit need : ℕ} (rounds : ℕ) : ∀ {buf : Buf} {fd : Fd}
    {chunk : Bytes}, fd.events = [.data chunk] →
    fills limit need rounds buf.len buf.cap chunk.length = true → Overshoots limit need buf fd := by
  induction rounds with
  | zero =>
    intro buf fd chunk _ h
    cases h
  | succ rounds ih =>
    intro buf fd chunk hevents h
    unfold fills at h
    dsimp only at h
    have hcap : (if buf.cap - buf.len < readbufGrowsz then buf.grow readbufGrowsz else buf).cap =
        if buf.cap - buf.len < readbufGrowsz then
          buf.cap + (if Buf.alignOffset (buf.cap / 2) < readbufGrowsz then
            Buf.alignOffset readbufGrowsz else Buf.alignOffset (buf.cap / 2))
        else buf.cap := by
      split
      · simp only [Buf.grow, Buf.cap, List.length_append, List.length_replicate]
      · rfl
    generalize (if buf.cap - buf.len < readbufGrowsz then
      buf.cap + (if Buf.alignOffset (buf.cap / 2) < readbufGrowsz then
        Buf.alignOffset readbufGrowsz else Buf.alignOffset (buf.cap / 2))
      else buf.cap) = cap at hcap h
    simp only [Bool.and_eq_true, Bool.or_eq_true, decide_eq_true_eq] at h
    obtain ⟨⟨hbefore, hlong⟩, hnow | ⟨hmore, hlater⟩⟩ := h
    · obtain ⟨nread, buf', after, hread, hlen, -, -⟩ := ioReadbuf_fills hevents hcap hlong
      exact .completes hbefore hread (hlen ▸ hnow.1) (hlen ▸ hnow.2)
    · obtain ⟨nread, buf', after, hread, hlen, hcap', hrest⟩ :=
        ioReadbuf_fills hevents hcap hlong
      refine .more hbefore hread (ih (hrest hmore) ?_)
      rw [hlen, hcap', List.length_drop]
      exact hlater

theorem first_refused {x y : Bytes} (hsmall : (encode x).length < dflMaxmsgsz)
    (hlarge : (encode y).length < 2 ^ 64)
    (hfills : fills dflMaxmsgsz (encode x).length 14 0 8192
      ((encode x).length + (encode y).length) = true) :
    (yclRecvmsg dflMaxmsgsz yclMsgInit ⟨[.data (encode x ++ encode y)], []⟩).1 =
      .err .toolarge := by
  have hmax : dflMaxmsgsz < 2 ^ 64 := by decide
  have hleft : ∀ z ∈ [x, y], (encode z).length < 2 ^ 64 := by
    intro z hz
    rw [List.mem_pair] at hz
    obtain rfl | rfl := hz
    · exact hsmall.trans hmax
    · exact hlarge
  have pending : Pending yclMsgInit ⟨[.data (encode x ++ encode y)], []⟩ [x, y] := by
    refine ⟨?_, Nat.two_pow_pos 64, ?_⟩
    · unfold yclMsgInit
      rw [Buf.contents_init]
      simp [streamBytes, encodings]
    · intro event hevent
      rw [List.mem_singleton.mp hevent]
      exact List.append_ne_nil_of_left_ne_nil (encode_ne_nil _) _
  have hcap : yclMsgInit.buf.cap = 8192 := List.length_replicate
  rw [yclRecvmsg_eq_recvLoop dflMaxmsgsz rfl,
    recvLoop_toolarge_iff hmax hleft hsmall _ rfl rfl pending]
  apply overshoots_of_fills 14 rfl
  rw [List.length_append, hcap]
  exact hfills

def shortMessage : Bytes := List.replicate 720000 97

def longMessage : Bytes := List.replicate 400000 97

theorem length_shortMessage : (encode shortMessage).length = 720008 := by
  have hnumeral : (numeral 720000).length = 6 := by simp [numeral_step, numeral_small]
  rw [length_encode, shortMessage, List.length_replicate, hnumeral]

theorem length_longMessage : (encode longMessage).length = 400008 := by
  have hnumeral : (numeral 400000).length = 6 := by simp [numeral_step, numeral_small]
  rw [length_encode, longMessage, List.length_replicate, hnumeral]

/-- Sent together, the short message is refused: it ends in a read that brings the
buffer to the limit. -/
theorem short_message_refused :
    (yclRecvmsg dflMaxmsgsz yclMsgInit
      ⟨[.data (encode shortMessage ++ encode longMessage)], []⟩).1 = .err .toolarge ∧
    (encode shortMessage).length < dflMaxmsgsz := by
  have hsmall : (encode shortMessage).length < dflMaxmsgsz := by
    rw [length_shortMessage]
    decide
  have hlarge : (encode longMessage).length < 2 ^ 64 := by
    rw [length_longMessage]
    decide
  refine ⟨first_refused hsmall hlarge ?_, hsmall⟩
  rw [length_shortMessage, length_longMessage]
  decide

end Yans.Ycl
