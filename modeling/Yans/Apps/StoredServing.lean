import Yans.Apps.StoredRequests

/-! What `stored` does for a client between two requests. While nothing of a later
request comes too early and no answer stops halfway inside of another one, it is
always in one of a few modes, and a step takes it from one to the next. -/
namespace Yans.Apps.Stored

open Library.Memory Library.Strings Library.Runs Util Util.Netstring Ycl
open Util.EdsSend (EdsClient EdsTransition Handler edsClientSend edsClientSetOnReadable
  edsClientSetOnWritable edsClientClearActions edsServiceRemoveClient)

namespace Server

variable {World : Type} {out : Outside World}

/-- What is still to be sent of the answer that is under way. -/
def owed (s : Server World) : List Item :=
  s.client.wrdata.map .byte ++
    if s.client.onWritable = some (.callback .onSendfd) then
      [.fd s.store.cli.openFd s.store.cli.openErrno]
    else []

/-! When every request is answered -/

/-- The next call of `ycl_recvmsg` meets neither the end of the stream nor the
limit on messages. -/
def Connected (s : Server World) : Prop :=
  ∀ err, (yclRecvmsg dflMaxmsgsz s.msgbuf s.fd).1 ≠ .err err

/-- If that call gives a message for whose answer the buffer is used, then the
buffer holds nothing else. -/
def Unpipelined (s : Server World) (keeps : YclMsg → Prop) : Prop :=
  ∀ msgbuf fd, yclRecvmsg dflMaxmsgsz s.msgbuf s.fd = (.ok, msgbuf, fd) → ¬ keeps msgbuf →
    msgbuf.buf.len = msgbuf.nextoff

/-- The message is a request to open a file, which is answered with a descriptor. -/
def AsksOpen (msgbuf : YclMsg) : Prop :=
  ∃ req ∈ (yclMsgParseStoreEnteredReq msgbuf).1, strEq req.action "open"

/-- The state before a step that keeps the requests and the answers. A request that
is answered with a message is alone in the buffer. No more is read while an answer is
under way, and the writable half of a transition comes when the answer is sent and,
if that half clears the buffer again, before a byte of the next request. -/
def Meets (s : Server World) (choice : Choice) : Prop :=
  match s.running, choice with
  | some (.callback .onReadreq), .go => s.Connected ∧ s.Unpipelined fun _ => False
  | some (.callback .onReadentered), .go => s.Connected ∧ s.Unpipelined AsksOpen
  | none, .go =>
    if s.waiting > 0 then
      s.client.trans.tflwrite = true → s.owed = [] ∧
        (s.client.trans.onWritable = some .onSentStoreList → s.msgbuf.buf.len = 0)
    else ∀ writable, s.loop = .onReadable true writable → s.client.onReadable ≠ none → s.owed = []
  | _, _ => True

instance (s : Server World) : Decidable s.Connected :=
  match hresult : (yclRecvmsg dflMaxmsgsz s.msgbuf s.fd).1 with
  | .ok => .isTrue fun _ herr => YclResult.noConfusion (hresult.symm.trans herr)
  | .again => .isTrue fun _ herr => YclResult.noConfusion (hresult.symm.trans herr)
  | .err err => .isFalse fun hconnected => hconnected err hresult

instance (s : Server World) (keeps : YclMsg → Prop) [DecidablePred keeps] :
    Decidable (s.Unpipelined keeps) :=
  decidable_of_iff
    ((yclRecvmsg dflMaxmsgsz s.msgbuf s.fd).1 = .ok →
      ¬ keeps (yclRecvmsg dflMaxmsgsz s.msgbuf s.fd).2.1 →
        (yclRecvmsg dflMaxmsgsz s.msgbuf s.fd).2.1.buf.len =
          (yclRecvmsg dflMaxmsgsz s.msgbuf s.fd).2.1.nextoff)
    ⟨fun h msgbuf fd hrun => by rw [hrun] at h; exact h rfl,
      fun h hok => h _ _ (Prod.ext hok rfl)⟩

instance : DecidablePred AsksOpen := fun _ => inferInstanceAs (Decidable (∃ req ∈ _, strEq _ _))

instance (s : Server World) (choice : Choice) : Decidable (Meets s choice) := by
  unfold Meets
  split <;> infer_instance

section Calls

variable {s : Server World} (hlive : s.client.removed = false)

include hlive

theorem setOnReadable_none :
    s.setOnReadable none =
      { s with client := { s.client with onReadable := none, rfd := false }, running := none } := by
  simp [setOnReadable, edsClientSetOnReadable, hlive]

theorem setOnReadable_some (cb : Callback) :
    s.setOnReadable (some cb) =
      { s with
        client := { s.client with onReadable := some cb, rsuspend := false, rfd := true }
        running := some (.callback cb) } := by
  simp [setOnReadable, edsClientSetOnReadable, hlive]

theorem setOnWritable_none :
    s.setOnWritable none =
      { s with client := { s.client with onWritable := none, wfd := false }, running := none } := by
  simp [setOnWritable, edsClientSetOnWritable, hlive]

theorem setOnWritable_some (handler : Handler Callback) :
    s.setOnWritable (some handler) =
      { s with
        client := { s.client with onWritable := some handler, wfd := true }
        running := some (runningOf handler) } := by
  simp [setOnWritable, edsClientSetOnWritable, hlive]

theorem send_eq (next : Option (EdsTransition Callback)) :
    s.send next =
      { s with
        client :=
          { s.client with
            wrdata := s.msgbuf.buf.contents
            trans := next.getD ⟨true, true, none, none⟩
            onWritable := some .onEdsClientSend
            wfd := true }
        running := some .onEdsClientSend } := by
  simp [send, edsClientSend, edsClientSetOnWritable, hlive, runningOf]

end Calls

/-! What the server is doing -/

def readerOf : Phase → Option Callback
  | .readreq => some .onReadreq
  | .readentered => some .onReadentered
  | .finished => none

/-- The transition of a send that is over may have its writable half left, for a
call that waits. -/
structure Over (σ : State World) (s : Server World) : Prop where
  live : s.client.removed = false
  wrdata_eq : s.client.wrdata = []
  tflread : s.client.trans.tflread = false
  waiting : s.client.trans.tflwrite = true → 0 < s.waiting
  onWritable : s.client.trans.tflwrite = true → s.client.trans.onWritable = none ∨
    s.client.trans.onWritable = some .onSentStoreList ∧ σ.phase = .readreq ∧ σ.cli.buf = []

def Unregistered (s : Server World) : Prop :=
  s.client.onWritable = none ∨
    s.client.onWritable = some .onEdsClientSend ∧ s.client.trans.tflwrite = true

/-- The buffer is free, and the requests `left` are to be read. -/
structure Unread (left : List Bytes) (s : Server World) : Prop where
  stream_eq : streamBytes s.fd.events = encodings left
  delivers : ∀ event ∈ s.fd.events, event.Delivers

structure Reading (σ : State World) (left : List Bytes) (s : Server World) : Prop where
  ended : Over σ s
  unregistered : Unregistered s
  store_eq : s.store = σ
  active : σ.phase ≠ .finished
  onReadable : s.client.onReadable = readerOf σ.phase
  rfd : s.client.rfd = true
  pending : Pending s.msgbuf s.fd left

inductive Next (σ : State World) (left : List Bytes) (s : Server World) :
    EdsTransition Callback → Prop where
  | list (phase : σ.phase = .readreq) (buf : σ.cli.buf = [])
      (store_eq : { s.store with cli := { s.store.cli with buf := [] } } = σ) :
      Next σ left s afterList
  | entered (phase : σ.phase = .readentered) (store_eq : s.store = σ) : Next σ left s afterEntered
  | refused (phase : σ.phase = .finished) (store_eq : s.store = σ) (left_eq : left = [])
      (onReadable : s.client.onReadable = none) : Next σ left s ⟨true, true, none, none⟩

structure Sending (σ : State World) (left : List Bytes) (s : Server World) : Prop where
  live : s.client.removed = false
  wrdata_ne : s.client.wrdata ≠ []
  onWritable : s.client.onWritable = some .onEdsClientSend
  wfd : s.client.wfd = true
  next : Next σ left s s.client.trans
  unread : Unread left s

structure SendingFd (σ : State World) (left : List Bytes) (s : Server World) : Prop where
  ended : Over σ s
  onWritable : s.client.onWritable = some (.callback .onSendfd)
  wfd : s.client.wfd = true
  onReadable : s.client.onReadable = none
  store_eq : s.store = σ
  phase : σ.phase = .readentered
  pending : Pending s.msgbuf s.fd left

structure Fresh (σ : State World) (left : List Bytes) (s : Server World) : Prop where
  ended : Over σ s
  waiting_eq : s.waiting = 0
  onWritable : s.client.onWritable = none
  onReadable : s.client.onReadable = some .storeOnReadable
  rfd : s.client.rfd = true
  store_eq : s.store = σ
  phase : σ.phase = .readreq
  unread : Unread left s

structure SentStatus (σ : State World) (left : List Bytes) (s : Server World) : Prop where
  ended : Over σ s
  unregistered : Unregistered s
  store_eq : s.store = σ
  phase : σ.phase = .readentered
  unread : Unread left s

structure SentList (σ : State World) (left : List Bytes) (s : Server World) : Prop where
  ended : Over σ s
  onWritable : s.client.onWritable ≠ some (.callback .onSendfd)
  store_eq : { s.store with cli := { s.store.cli with buf := [] } } = σ
  phase : σ.phase = .readreq
  unread : Unread left s

structure Closing (σ : State World) (left : List Bytes) (s : Server World) : Prop where
  ended : Over σ s
  unregistered : Unregistered s
  phase : σ.phase = .finished
  left_eq : left = []
  onReadable : s.client.onReadable = none

structure Closed (left : List Bytes) (s : Server World) : Prop where
  left_eq : left = []
  waiting_eq : s.waiting = 0
  wrdata_eq : s.client.wrdata = []
  onReadable : s.client.onReadable = none
  onWritable : s.client.onWritable = none

/-- The invariant: what the server does, with what is run next. A reader that has
nothing to run has not got the whole next request. -/
inductive Mode (σ : State World) (left : List Bytes) (s : Server World) : Prop where
  | fresh (running : s.running = none ∨ s.running = some (.callback .storeOnReadable))
      (h : Fresh σ left s)
  | reading (running : s.running = none) (h : Reading σ left s)
      (quiet : left = [] ∨ streamBytes s.fd.events ≠ [])
  | receiving (running : s.running = (readerOf σ.phase).map .callback) (h : Reading σ left s)
  | sending (running : s.running = none ∨ s.running = some .onEdsClientSend) (h : Sending σ left s)
  | sendingFd (running : s.running = none ∨ s.running = some (.callback .onSendfd))
      (h : SendingFd σ left s)
  | sentStatus (running : s.running = some (.callback .onPostEnterResponse))
      (h : SentStatus σ left s)
  | sentList (running : s.running = some (.callback .onSentStoreList)) (h : SentList σ left s)
  | closing (running : s.running = none) (h : Closing σ left s)
  | closed (running : s.running = none) (h : Closed left s)

/-- What a step makes of the requests and the answers. A step that does not answer
takes at least `agains` would-block results from the stream. -/
inductive Advances (out : Outside World) (agains : ℕ) (σ : State World) (left : List Bytes)
    (s s' : Server World) : Prop where
  | same (mode : Mode σ left s') (sent_eq : s'.sent ++ s'.owed = s.sent ++ s.owed)
      (again_le : againCount s'.fd.events + agains ≤ againCount s.fd.events) :
      Advances out agains σ left s s'
  | answered {x : Bytes} {xs : List Bytes} {response : Response} {σ' : State World}
      (left_eq : left = x :: xs) (step_eq : Stored.step out σ (messageOf x) = (some response, σ'))
      (mode : Mode σ' xs s') (sent_eq : s'.sent ++ s'.owed = s.sent ++ s.owed ++ response.items)
      (again_le : againCount s'.fd.events ≤ againCount s.fd.events) :
      Advances out agains σ left s s'

theorem tflwrite_of_waiting {σ : State World} {s : Server World} (h : Over σ s)
    (hwaiting : s.waiting = 0) : s.client.trans.tflwrite = false := by
  cases htflwrite : s.client.trans.tflwrite with
  | false => rfl
  | true =>
    have hpos := h.waiting htflwrite
    omega

theorem Unregistered.onWritable_eq {s : Server World} (h : Unregistered s)
    (htflwrite : s.client.trans.tflwrite = false) : s.client.onWritable = none := by
  cases h with
  | inl hnone => exact hnone
  | inr hleft =>
    rw [htflwrite] at hleft
    exact absurd hleft.2 Bool.false_ne_true

theorem owed_eq_nil {s : Server World} (hwrdata : s.client.wrdata = [])
    (honWritable : s.client.onWritable ≠ some (.callback .onSendfd)) : s.owed = [] := by
  unfold owed
  rw [hwrdata, if_neg honWritable]
  rfl

theorem owed_of_unregistered {s : Server World} (hwrdata : s.client.wrdata = [])
    (h : Unregistered s) : s.owed = [] := by
  apply owed_eq_nil hwrdata
  obtain hnone | ⟨hsend, -⟩ := h
  · simp [hnone]
  · simp [hsend]

/-- The event loop and `select` change nothing but their place, and what is run. -/
def moved (running : Option Running) (loop : Loop) (s : Server World) : Server World :=
  { s with running := running, loop := loop }

theorem Next.congr {σ : State World} {left : List Bytes} {s s' : Server World}
    {trans : EdsTransition Callback} (h : Next σ left s trans) (hstore : s'.store = s.store)
    (honReadable : s'.client.onReadable = s.client.onReadable) : Next σ left s' trans := by
  cases h with
  | list phase buf store_eq => exact .list phase buf (hstore ▸ store_eq)
  | entered phase store_eq => exact .entered phase (hstore.trans store_eq)
  | refused phase store_eq left_eq onReadable =>
    exact .refused phase (hstore.trans store_eq) left_eq (honReadable.trans onReadable)

section Moved

variable {σ : State World} {left : List Bytes} {s : Server World} (running : Option Running)
  (loop : Loop)

theorem Over.moved (h : Over σ s) : Over σ (s.moved running loop) :=
  ⟨h.live, h.wrdata_eq, h.tflread, h.waiting, h.onWritable⟩

theorem Unread.moved (h : Unread left s) : Unread left (s.moved running loop) :=
  ⟨h.stream_eq, h.delivers⟩

theorem Fresh.moved (h : Fresh σ left s) : Fresh σ left (s.moved running loop) :=
  { h with
    ended := h.ended.moved running loop
    unread := h.unread.moved running loop }

theorem Reading.moved (h : Reading σ left s) : Reading σ left (s.moved running loop) :=
  { h with ended := h.ended.moved running loop }

theorem Sending.moved (h : Sending σ left s) : Sending σ left (s.moved running loop) :=
  { h with
    next := h.next.congr rfl rfl
    unread := h.unread.moved running loop }

theorem SendingFd.moved (h : SendingFd σ left s) : SendingFd σ left (s.moved running loop) :=
  { h with ended := h.ended.moved running loop }

theorem Closing.moved (h : Closing σ left s) : Closing σ left (s.moved running loop) :=
  { h with ended := h.ended.moved running loop }

theorem Closed.moved (h : Closed left s) : Closed left (s.moved running loop) :=
  { h with }

end Moved

inductive Idles (s : Server World) : Server World → Prop where
  | waited (waiting : 0 < s.waiting) (meets : s.client.trans.tflwrite = true → s.owed = [] ∧
      (s.client.trans.onWritable = some .onSentStoreList → s.msgbuf.buf.len = 0)) :
      Idles s s.afterReadable
  | moved (waiting : s.waiting = 0) (loop : Loop) : Idles s (s.moved none loop)
  | readable (waiting : s.waiting = 0) (meets : s.client.onReadable ≠ none → s.owed = [])
      (loop : Loop) : Idles s (s.moved (s.client.onReadable.map .callback) loop)
  | writable (waiting : s.waiting = 0) (loop : Loop) :
      Idles s (s.moved (s.client.onWritable.map runningOf) loop)
  | removed (waiting : s.waiting = 0) (onReadable : s.client.onReadable = none)
      (onWritable : s.client.onWritable = none) :
      Idles s { s with loop := .select, client := (edsServiceRemoveClient s.client).1 }

theorem moved_running {s : Server World} (hrunning : s.running = none) (loop : Loop) :
    { s with loop := loop } = s.moved none loop := by
  unfold moved
  rw [← hrunning]

theorem idles_of_step {s s' : Server World} {choice : Choice} (hrunning : s.running = none)
    (hmeets : Meets s choice) (hstep : step out s choice = some s') : Idles s s' := by
  cases choice with
  | select readable writable =>
    simp only [step, hrunning] at hstep
    split at hstep
    · rename_i hguard
      cases hstep
      exact .moved hguard.1 _
    · cases hstep
  | go =>
    simp only [step, hrunning] at hstep
    simp only [Meets, hrunning] at hmeets
    split at hstep
    · rename_i hwaiting
      rw [if_pos hwaiting] at hmeets
      cases hstep
      exact .waited hwaiting hmeets
    · rename_i hwaiting
      rw [if_neg hwaiting] at hmeets
      have hzero : s.waiting = 0 := by omega
      unfold loopStep at hstep
      split at hstep
      · cases hstep
      · rename_i readable writable hloop
        split at hstep
        · cases hstep
          rw [moved_running hrunning]
          exact .moved hzero _
        · cases hstep
          cases readable with
          | false => exact .moved hzero _
          | true => exact .readable hzero (hmeets writable hloop) _
      · rename_i writable hloop
        split at hstep
        · cases hstep
          rw [moved_running hrunning]
          exact .moved hzero _
        · cases hstep
          cases writable with
          | false => exact .moved hzero _
          | true => exact .writable hzero _
      · split at hstep
        · rename_i hunused
          cases hstep
          exact .removed hzero hunused.2.1 hunused.2.2
        · cases hstep
          rw [moved_running hrunning]
          exact .moved hzero _
  | write accepted =>
    simp only [step, hrunning] at hstep
    cases hstep
  | sendmsg accepted =>
    simp only [step, hrunning] at hstep
    cases hstep

section Steps

variable {σ : State World} {left : List Bytes} {s s' : Server World}

theorem afterReadable_of_not_tflwrite (htflwrite : s.client.trans.tflwrite = false) :
    s.afterReadable = { s with waiting := s.waiting - 1 } := by
  simp [afterReadable, htflwrite]

theorem Over.returned (h : Over σ s) (htflwrite : s.client.trans.tflwrite = false) :
    Over σ { s with waiting := s.waiting - 1 } := by
  refine { h with waiting := ?_ }
  intro hset
  rw [htflwrite] at hset
  cases hset

theorem afterReadable_none (hlive : s.client.removed = false)
    (htflwrite : s.client.trans.tflwrite = true) (hnone : s.client.trans.onWritable = none) :
    s.afterReadable =
      { s with
        client :=
          { s.client with
            trans := { s.client.trans with tflwrite := false }
            onWritable := none
            wfd := false }
        waiting := s.waiting - 1
        running := none } := by
  unfold afterReadable
  dsimp only
  rw [if_pos htflwrite, hnone]
  apply setOnWritable_none
  exact hlive

theorem afterReadable_some (hlive : s.client.removed = false)
    (htflwrite : s.client.trans.tflwrite = true) {cb : Callback}
    (hsome : s.client.trans.onWritable = some cb) :
    s.afterReadable =
      { s with
        client :=
          { s.client with
            trans := { s.client.trans with tflwrite := false }
            onWritable := some (.callback cb)
            wfd := true }
        waiting := s.waiting - 1
        running := some (.callback cb) } := by
  unfold afterReadable
  dsimp only
  rw [if_pos htflwrite, hsome]
  apply setOnWritable_some
  exact hlive

theorem Fresh.idles (h : Fresh σ left s) (hidles : Idles s s') : Advances out 0 σ left s s' := by
  cases hidles with
  | waited waiting meets =>
    have hzero := h.waiting_eq
    omega
  | moved waiting loop => exact .same (.fresh (.inl rfl) (h.moved _ _)) rfl le_rfl
  | readable waiting meets loop =>
    refine .same (.fresh (.inr ?_) (h.moved _ _)) rfl le_rfl
    rw [h.onReadable]
    rfl
  | writable waiting loop =>
    refine .same (.fresh (.inl ?_) (h.moved _ _)) rfl le_rfl
    rw [h.onWritable]
    rfl
  | removed waiting onReadable onWritable =>
    rw [h.onReadable] at onReadable
    cases onReadable

theorem Reading.sentList (h : Reading σ left s) (hphase : σ.phase = .readreq)
    (hbuf : σ.cli.buf = []) (hlen : s.msgbuf.buf.len = 0) {running : Option Running}
    {client : EdsClient Callback} {waiting : ℕ} (hover : Over σ { s with
      client := client, waiting := waiting, running := running })
    (hsendfd : client.onWritable ≠ some (.callback .onSendfd)) :
    SentList σ left { s with client := client, waiting := waiting, running := running } where
  ended := hover
  onWritable := hsendfd
  store_eq := by
    rw [h.store_eq, ← hbuf]
  phase := hphase
  unread := by
    have hbehind := h.pending.behind
    have hnil : s.msgbuf.buf.contents = [] := by
      rw [← List.length_eq_zero_iff, Buf.length_contents, hlen]
    rw [hnil, List.drop_nil, List.nil_append] at hbehind
    exact ⟨hbehind, h.pending.delivers⟩

theorem Reading.idles (h : Reading σ left s) (hrunning : s.running = none)
    (hquiet : left = [] ∨ streamBytes s.fd.events ≠ []) (hidles : Idles s s') :
    Advances out 0 σ left s s' := by
  have howed := owed_of_unregistered h.ended.wrdata_eq h.unregistered
  cases hidles with
  | waited waiting meets =>
    cases htflwrite : s.client.trans.tflwrite with
    | false =>
      rw [afterReadable_of_not_tflwrite htflwrite]
      have hover := h.ended.returned htflwrite
      exact .same (.reading hrunning { h with ended := hover } hquiet) rfl le_rfl
    | true =>
      obtain hnone | ⟨hsome, hphase, hbuf⟩ := h.ended.onWritable htflwrite
      · rw [afterReadable_none h.ended.live htflwrite hnone]
        refine .same (.reading rfl ?_ hquiet) ?_ le_rfl
        · exact
            { ended := ⟨h.ended.live, h.ended.wrdata_eq, h.ended.tflread, by simp, by simp⟩
              unregistered := .inl rfl
              store_eq := h.store_eq
              active := h.active
              onReadable := h.onReadable
              rfd := h.rfd
              pending := h.pending }
        · rw [howed, owed_eq_nil]
          · exact h.ended.wrdata_eq
          · simp
      · rw [afterReadable_some h.ended.live htflwrite hsome]
        refine .same (.sentList rfl ?_) ?_ le_rfl
        · apply h.sentList hphase hbuf ((meets htflwrite).2 hsome)
          · exact ⟨h.ended.live, h.ended.wrdata_eq, h.ended.tflread, by simp, by simp⟩
          · simp
        · rw [howed, owed_eq_nil]
          · exact h.ended.wrdata_eq
          · simp
  | moved waiting loop => exact .same (.reading rfl (h.moved _ _) hquiet) rfl le_rfl
  | readable waiting meets loop =>
    refine .same (.receiving ?_ (h.moved _ _)) rfl le_rfl
    exact congrArg (Option.map Running.callback) h.onReadable
  | writable waiting loop =>
    refine .same (.reading ?_ (h.moved _ _) hquiet) rfl le_rfl
    rw [h.unregistered.onWritable_eq (tflwrite_of_waiting h.ended waiting)]
    rfl
  | removed waiting onReadable onWritable =>
    rw [h.onReadable] at onReadable
    have hactive := h.active
    cases hphase : σ.phase <;> rw [hphase] at onReadable hactive
    · cases onReadable
    · cases onReadable
    · exact absurd rfl hactive

theorem Sending.owed_ne (h : Sending σ left s) : s.owed ≠ [] := by
  intro hnil
  have hwrdata := (List.append_eq_nil_iff.mp hnil).1
  exact h.wrdata_ne (List.map_eq_nil_iff.mp hwrdata)

theorem Next.tflwrite {trans : EdsTransition Callback} (h : Next σ left s trans) :
    trans.tflread = true ∧ trans.tflwrite = true := by
  cases h <;> exact ⟨rfl, rfl⟩

theorem Sending.idles (h : Sending σ left s) (hidles : Idles s s') : Advances out 0 σ left s s' := by
  cases hidles with
  | waited waiting meets => exact absurd (meets h.next.tflwrite.2).1 h.owed_ne
  | moved waiting loop => exact .same (.sending (.inl rfl) (h.moved _ _)) rfl le_rfl
  | readable waiting meets loop =>
    refine .same (.sending (.inl ?_) (h.moved _ _)) rfl le_rfl
    have hnone : s.client.onReadable = none := by
      by_contra hsome
      exact h.owed_ne (meets hsome)
    rw [hnone]
    rfl
  | writable waiting loop =>
    refine .same (.sending (.inr ?_) (h.moved _ _)) rfl le_rfl
    rw [h.onWritable]
    rfl
  | removed waiting onReadable onWritable =>
    rw [h.onWritable] at onWritable
    cases onWritable

theorem SendingFd.owed_eq (h : SendingFd σ left s) :
    s.owed = [.fd s.store.cli.openFd s.store.cli.openErrno] := by
  unfold owed
  rw [h.ended.wrdata_eq, h.onWritable, if_pos rfl]
  rfl

theorem SendingFd.idles (h : SendingFd σ left s) (hrunning : s.running = none)
    (hidles : Idles s s') : Advances out 0 σ left s s' := by
  have howed := h.owed_eq
  cases hidles with
  | waited waiting meets =>
    cases htflwrite : s.client.trans.tflwrite with
    | false =>
      rw [afterReadable_of_not_tflwrite htflwrite]
      have hover := h.ended.returned htflwrite
      exact .same (.sendingFd (.inl hrunning) { h with ended := hover }) rfl le_rfl
    | true =>
      rw [(meets htflwrite).1] at howed
      cases howed
  | moved waiting loop => exact .same (.sendingFd (.inl rfl) (h.moved _ _)) rfl le_rfl
  | readable waiting meets loop =>
    refine .same (.sendingFd (.inl ?_) (h.moved _ _)) rfl le_rfl
    rw [h.onReadable]
    rfl
  | writable waiting loop =>
    refine .same (.sendingFd (.inr ?_) (h.moved _ _)) rfl le_rfl
    rw [h.onWritable]
    rfl
  | removed waiting onReadable onWritable =>
    rw [h.onWritable] at onWritable
    cases onWritable

theorem Closing.idles (h : Closing σ left s) (hrunning : s.running = none)
    (hidles : Idles s s') : Advances out 0 σ left s s' := by
  have howed := owed_of_unregistered h.ended.wrdata_eq h.unregistered
  cases hidles with
  | waited waiting meets =>
    cases htflwrite : s.client.trans.tflwrite with
    | false =>
      rw [afterReadable_of_not_tflwrite htflwrite]
      have hover := h.ended.returned htflwrite
      exact .same (.closing hrunning { h with ended := hover }) rfl le_rfl
    | true =>
      obtain hnone | ⟨-, hphase, -⟩ := h.ended.onWritable htflwrite
      · rw [afterReadable_none h.ended.live htflwrite hnone]
        refine .same (.closing rfl ?_) ?_ le_rfl
        · exact
            { ended := ⟨h.ended.live, h.ended.wrdata_eq, h.ended.tflread, by simp, by simp⟩
              unregistered := .inl rfl
              phase := h.phase
              left_eq := h.left_eq
              onReadable := h.onReadable }
        · rw [howed, owed_eq_nil]
          · exact h.ended.wrdata_eq
          · simp
      · rw [h.phase] at hphase
        cases hphase
  | moved waiting loop => exact .same (.closing rfl (h.moved _ _)) rfl le_rfl
  | readable waiting meets loop =>
    refine .same (.closing ?_ (h.moved _ _)) rfl le_rfl
    rw [h.onReadable]
    rfl
  | writable waiting loop =>
    refine .same (.closing ?_ (h.moved _ _)) rfl le_rfl
    rw [h.unregistered.onWritable_eq (tflwrite_of_waiting h.ended waiting)]
    rfl
  | removed waiting onReadable onWritable =>
    have hclient : (edsServiceRemoveClient s.client).1 =
        { s.client with removed := true, onDone := none, rfd := false, wfd := false } := by
      simp [edsServiceRemoveClient, h.ended.live]
    rw [hclient]
    exact .same (.closed hrunning ⟨h.left_eq, waiting, h.ended.wrdata_eq, onReadable, onWritable⟩)
      rfl le_rfl

theorem Closed.idles (h : Closed left s) (hrunning : s.running = none) (hidles : Idles s s') :
    Advances out 0 σ left s s' := by
  cases hidles with
  | waited waiting meets =>
    have hzero := h.waiting_eq
    omega
  | moved waiting loop => exact .same (.closed rfl (h.moved _ _)) rfl le_rfl
  | readable waiting meets loop =>
    refine .same (.closed ?_ (h.moved _ _)) rfl le_rfl
    rw [h.onReadable]
    rfl
  | writable waiting loop =>
    refine .same (.closed ?_ (h.moved _ _)) rfl le_rfl
    rw [h.onWritable]
    rfl
  | removed waiting onReadable onWritable =>
    have hclient : ∃ removed onDone rfd wfd, (edsServiceRemoveClient s.client).1 =
        { s.client with removed := removed, onDone := onDone, rfd := rfd, wfd := wfd } := by
      unfold edsServiceRemoveClient
      split
      · exact ⟨_, _, _, _, rfl⟩
      · exact ⟨_, _, _, _, rfl⟩
    obtain ⟨removed, onDone, rfd, wfd, hclient⟩ := hclient
    rw [hclient]
    exact .same (.closed hrunning ⟨h.left_eq, waiting, h.wrdata_eq, onReadable, onWritable⟩)
      rfl le_rfl

/-! A message that is being sent -/

theorem completed_some (hlive : s.client.removed = false)
    (htflread : s.client.trans.tflread = true) {cb : Callback}
    (hsome : s.client.trans.onReadable = some cb) :
    s.completed =
      { s with
        client :=
          { s.client with
            trans := { s.client.trans with tflread := false }
            onReadable := some cb
            rsuspend := false
            rfd := true }
        waiting := s.waiting + 1
        running := some (.callback cb) } := by
  unfold completed
  dsimp only
  rw [if_pos htflread, hsome]
  apply setOnReadable_some
  exact hlive

theorem completed_none (hlive : s.client.removed = false)
    (htflread : s.client.trans.tflread = true) (hnone : s.client.trans.onReadable = none) :
    s.completed =
      { s with
        client :=
          { s.client with
            trans := { s.client.trans with tflread := false }
            onReadable := none
            rfd := false }
        waiting := s.waiting + 1
        running := none } := by
  unfold completed
  dsimp only
  rw [if_pos htflread, hnone]
  apply setOnReadable_none
  exact hlive

theorem Next.completed (hlive : s.client.removed = false) (hwrdata : s.client.wrdata = [])
    (honWritable : s.client.onWritable = some .onEdsClientSend)
    (hnext : Next σ left s s.client.trans) (hunread : Unread left s) :
    Mode σ left s.completed ∧ s.completed.owed = [] ∧ s.completed.sent = s.sent ∧
      s.completed.fd = s.fd := by
  have howed : ∀ {client : EdsClient Callback} {running : Option Running}, client.wrdata = [] →
      client.onWritable = some .onEdsClientSend →
      owed { s with client := client, waiting := s.waiting + 1, running := running } = [] := by
    intro client running hdata hsend
    unfold owed
    rw [hdata, hsend]
    rfl
  generalize htrans : s.client.trans = trans at hnext
  cases hnext with
  | list phase buf store_eq =>
    rw [completed_some hlive (by rw [htrans]; rfl) (by rw [htrans]; rfl)]
    refine ⟨.sentList rfl ⟨⟨hlive, hwrdata, rfl, fun _ => Nat.succ_pos _, fun _ => ?_⟩, ?_, store_eq,
      phase, ⟨hunread.stream_eq, hunread.delivers⟩⟩, howed hwrdata honWritable, rfl, rfl⟩
    · dsimp only
      rw [htrans]
      exact .inr ⟨rfl, phase, buf⟩
    · dsimp only
      rw [honWritable]
      simp
  | entered phase store_eq =>
    rw [completed_some hlive (by rw [htrans]; rfl) (by rw [htrans]; rfl)]
    refine ⟨.sentStatus rfl ⟨⟨hlive, hwrdata, rfl, fun _ => Nat.succ_pos _, fun _ => ?_⟩,
      .inr ⟨honWritable, ?_⟩, store_eq, phase, ⟨hunread.stream_eq, hunread.delivers⟩⟩,
      howed hwrdata honWritable, rfl, rfl⟩
    · dsimp only
      rw [htrans]
      exact .inl rfl
    · dsimp only
      rw [htrans]
      rfl
  | refused phase store_eq left_eq onReadable =>
    rw [completed_none hlive (by rw [htrans]) (by rw [htrans])]
    refine ⟨.closing rfl ⟨⟨hlive, hwrdata, rfl, fun _ => Nat.succ_pos _, fun _ => ?_⟩,
      .inr ⟨honWritable, ?_⟩, phase, left_eq, rfl⟩, howed hwrdata honWritable, rfl, rfl⟩
    · dsimp only
      rw [htrans]
      exact .inl rfl
    · dsimp only
      rw [htrans]

theorem Sending.writes (h : Sending σ left s) (accepted : Option ℕ) :
    Advances out 0 σ left s (s.onEdsClientSend accepted) := by
  unfold onEdsClientSend
  cases accepted with
  | none => exact .same (.sending (.inl rfl) (h.moved none s.loop)) rfl le_rfl
  | some n =>
    dsimp only
    have howed : s.owed = s.client.wrdata.map .byte := by
      unfold owed
      rw [h.onWritable]
      exact List.append_nil _
    split
    · rename_i hall
      obtain ⟨hmode, hnil, hsent, hfd⟩ := @Next.completed _ σ left
        { s with
          client := { s.client with wrdata := s.client.wrdata.drop n }
          sent := s.sent ++ (s.client.wrdata.take n).map .byte
          running := none } h.live hall h.onWritable (h.next.congr rfl rfl)
        ⟨h.unread.stream_eq, h.unread.delivers⟩
      refine .same hmode ?_ (by rw [hfd]; exact le_rfl)
      rw [hnil, hsent, howed, List.append_nil]
      dsimp only
      rw [List.take_of_length_le (List.drop_eq_nil_iff.mp hall)]
    · rename_i hmore
      refine .same (.sending (.inl rfl) ⟨h.live, hmore, h.onWritable, h.wfd,
        h.next.congr rfl rfl, h.unread.stream_eq, h.unread.delivers⟩) ?_ le_rfl
      rw [howed]
      unfold owed
      dsimp only
      rw [h.onWritable, if_neg (by simp), List.append_nil, List.append_assoc, ← List.map_append,
        List.take_append_drop]

/-! The callbacks that go on to read -/

variable {msgbuf : YclMsg}

theorem Unread.pending (h : Unread left s)
    (hcontents : msgbuf.buf.contents = []) : Pending msgbuf s.fd left where
  behind := by rw [hcontents, List.drop_nil, List.nil_append, h.stream_eq]
  size := by
    rw [← Buf.length_contents, hcontents]
    exact Nat.two_pow_pos 64
  delivers := h.delivers

theorem Over.receiving (h : Over σ s) (hunregistered : Unregistered s) (hstore : s.store = σ)
    {cb : Callback} (hcb : readerOf σ.phase = some cb) (honReadable : s.client.onReadable = some cb)
    (hrfd : s.client.rfd = true) (hrunning : s.running = some (.callback cb))
    (hpending : Pending s.msgbuf s.fd left) : Mode σ left s := by
  refine .receiving ?_ ⟨h, hunregistered, hstore, ?_, honReadable.trans hcb.symm, hrfd, hpending⟩
  · rw [hrunning, hcb]
    rfl
  · intro hphase
    rw [hphase] at hcb
    cases hcb

theorem Fresh.starts (h : Fresh σ left s) : Advances out 0 σ left s s.storeOnReadable := by
  have hstart : s.storeOnReadable =
      { s with
        client := { s.client with onReadable := some .onReadreq, rsuspend := false, rfd := true }
        running := some (.callback .onReadreq)
        hasMsgbuf := true
        msgbuf := if s.hasMsgbuf then yclMsgReset s.msgbuf else yclMsgInit } := by
    apply setOnReadable_some
    exact h.ended.live
  have hcontents : (if s.hasMsgbuf then yclMsgReset s.msgbuf else yclMsgInit).buf.contents = [] := by
    split
    · exact Buf.contents_clear _
    · exact Buf.contents_init _
  rw [hstart]
  refine .same ?_ rfl le_rfl
  exact Over.receiving
    ⟨h.ended.live, h.ended.wrdata_eq, h.ended.tflread, h.ended.waiting, h.ended.onWritable⟩
    (.inl h.onWritable) h.store_eq (by rw [h.phase]; rfl) rfl rfl rfl (h.unread.pending hcontents)

theorem SentStatus.reads (h : SentStatus σ left s) :
    Advances out 0 σ left s s.onPostEnterResponse := by
  have hafter : s.onPostEnterResponse =
      { s with
        client := { s.client with onReadable := some .onReadentered, rsuspend := false, rfd := true }
        running := some (.callback .onReadentered)
        msgbuf := yclMsgReset s.msgbuf } := by
    apply setOnReadable_some
    exact h.ended.live
  rw [hafter]
  refine .same ?_ rfl le_rfl
  exact Over.receiving
    ⟨h.ended.live, h.ended.wrdata_eq, h.ended.tflread, h.ended.waiting, h.ended.onWritable⟩
    h.unregistered h.store_eq (by rw [h.phase]; rfl) rfl rfl rfl
    (h.unread.pending (Buf.contents_clear _))

theorem SentList.reads (h : SentList σ left s) : Advances out 0 σ left s s.onSentStoreList := by
  have hafter : s.onSentStoreList =
      { s with
        client :=
          { s.client with
            onWritable := none
            wfd := false
            onReadable := some .onReadreq
            rsuspend := false
            rfd := true }
        running := some (.callback .onReadreq)
        msgbuf := yclMsgReset s.msgbuf
        store := { s.store with cli := { s.store.cli with buf := [] } } } := by
    unfold onSentStoreList
    dsimp only
    rw [setOnWritable_none (by exact h.ended.live)]
    apply setOnReadable_some
    exact h.ended.live
  have howed := owed_eq_nil h.ended.wrdata_eq h.onWritable
  rw [hafter]
  refine .same ?_ ?_ le_rfl
  · exact Over.receiving
      ⟨h.ended.live, h.ended.wrdata_eq, h.ended.tflread, h.ended.waiting, h.ended.onWritable⟩
      (.inl rfl) h.store_eq (by rw [h.phase]; rfl) rfl rfl rfl
      (h.unread.pending (Buf.contents_clear _))
  · rw [howed, owed_eq_nil]
    · exact h.ended.wrdata_eq
    · simp

theorem SendingFd.sends (h : SendingFd σ left s) (accepted : Bool) :
    Advances out 0 σ left s (s.onSendfd accepted) := by
  cases accepted with
  | false => exact .same (.sendingFd (.inl rfl) (h.moved none s.loop)) rfl le_rfl
  | true =>
    have hafter : s.onSendfd true =
        { s with
          client :=
            { s.client with
              onWritable := none
              wfd := false
              onReadable := some .onReadentered
              rsuspend := false
              rfd := true }
          running := some (.callback .onReadentered)
          sent := s.sent ++ [.fd s.store.cli.openFd s.store.cli.openErrno] } := by
      unfold onSendfd
      rw [if_pos rfl, setOnWritable_none (by exact h.ended.live)]
      apply setOnReadable_some
      exact h.ended.live
    rw [hafter]
    refine .same ?_ ?_ le_rfl
    · exact Over.receiving
        ⟨h.ended.live, h.ended.wrdata_eq, h.ended.tflread, h.ended.waiting, h.ended.onWritable⟩
        (.inl rfl) h.store_eq (by rw [h.phase]; rfl) rfl rfl rfl h.pending
    · rw [h.owed_eq, owed_eq_nil]
      · exact List.append_nil _
      · exact h.ended.wrdata_eq
      · simp

theorem contents_yclMsgCreateStatusResp (okmsg errmsg : Option Bytes) (msg : YclMsg) :
    (yclMsgCreateStatusResp okmsg errmsg msg).buf.contents.map .byte =
      (Response.status okmsg errmsg).items ∧
      (yclMsgCreateStatusResp okmsg errmsg msg).buf.contents ≠ [] := by
  have hcontents := contents_yclMsgCreate yclMsgStatusResp
    (@Members.cons ⟨.data, ascii "okmsg"⟩ _ (okmsg.getD [])
      (@Members.cons ⟨.data, ascii "errmsg"⟩ _ (errmsg.getD []) .nil))
  have hfields : yclMsgStatusResp.fields ≠ [] := by decide
  unfold Response.items yclMsgCreateStatusResp
  dsimp only
  rw [hcontents msg hfields, hcontents yclMsgInit hfields]
  exact ⟨rfl, by simp [encode]⟩

theorem contents_yclMsgCreateStoreList (errmsg : Option Bytes) (entries : Bytes) (msg : YclMsg) :
    (yclMsgCreateStoreList errmsg entries msg).buf.contents.map .byte =
      (Response.list errmsg entries).items ∧
      (yclMsgCreateStoreList errmsg entries msg).buf.contents ≠ [] := by
  have hcontents := contents_yclMsgCreate yclMsgStoreList
    (@Members.cons ⟨.data, ascii "errmsg"⟩ _ (errmsg.getD [])
      (@Members.cons ⟨.data, ascii "entries"⟩ _ entries .nil))
  have hfields : yclMsgStoreList.fields ≠ [] := by decide
  unfold Response.items yclMsgCreateStoreList
  dsimp only
  rw [hcontents msg hfields, hcontents yclMsgInit hfields]
  exact ⟨rfl, by simp [encode]⟩

theorem send_mode (hlive : s.client.removed = false) (hne : s.msgbuf.buf.contents ≠ [])
    (hunread : Unread left s) {next : Option (EdsTransition Callback)}
    (hnext : Next σ left s (next.getD ⟨true, true, none, none⟩)) :
    Mode σ left (s.send next) ∧ (s.send next).owed = s.msgbuf.buf.contents.map .byte ∧
      (s.send next).sent = s.sent ∧ (s.send next).fd = s.fd := by
  rw [send_eq hlive]
  refine ⟨.sending (.inr rfl) ⟨hlive, hne, rfl, rfl, hnext.congr rfl rfl, hunread.stream_eq,
    hunread.delivers⟩, ?_, rfl, rfl⟩
  unfold owed
  rw [if_neg (by simp), List.append_nil]

/-- What the answer of a request makes of a server that has only that request in
its buffer. -/
structure Answers (σ : State World) (left : List Bytes) (response : Response) (s s' : Server World) :
    Prop where
  mode : Mode σ left s'
  owed_eq : s'.owed = response.items
  sent_eq : s'.sent = s.sent
  fd_eq : s'.fd = s.fd

theorem sendStoreList_answers (hlive : s.client.removed = false) (hunread : Unread left s)
    (hstore : s.store = σ) (hphase : σ.phase = .readreq) (hbuf : σ.cli.buf = [])
    (errmsg : Option Bytes) (entries : Bytes) :
    Answers σ left (.list errmsg entries) s (s.sendStoreList errmsg entries) := by
  obtain ⟨hitems, hne⟩ := contents_yclMsgCreateStoreList errmsg entries s.msgbuf
  obtain ⟨hmode, howed, hsent, hfd⟩ := @send_mode _ σ left
    { s with
      msgbuf := yclMsgCreateStoreList errmsg entries s.msgbuf
      store := { s.store with cli := { s.store.cli with buf := entries } } }
    hlive hne ⟨hunread.stream_eq, hunread.delivers⟩ (some afterList) (by
      refine .list hphase hbuf ?_
      rw [hstore, ← hbuf])
  exact ⟨hmode, howed.trans hitems, hsent, hfd⟩

theorem sendEnteredResponse_answers (hlive : s.client.removed = false) (hunread : Unread left s)
    (hstore : s.store = σ) (hphase : σ.phase = .readentered) (okmsg errmsg : Option Bytes) :
    Answers σ left (.status okmsg errmsg) s (s.sendEnteredResponse okmsg errmsg) := by
  obtain ⟨hitems, hne⟩ := contents_yclMsgCreateStatusResp okmsg errmsg s.msgbuf
  obtain ⟨hmode, howed, hsent, hfd⟩ := @send_mode _ σ left
    { s with msgbuf := yclMsgCreateStatusResp okmsg errmsg s.msgbuf }
    hlive hne ⟨hunread.stream_eq, hunread.delivers⟩ (some afterEntered) (.entered hphase hstore)
  exact ⟨hmode, howed.trans hitems, hsent, hfd⟩

theorem writeErrResponse_answers (hlive : s.client.removed = false) (hunread : Unread left s)
    (hstore : s.store = σ) (hphase : σ.phase = .finished) (hleft : left = [])
    (errmsg : Option Bytes) :
    Answers σ left (.status none errmsg) s (s.writeErrResponse errmsg) := by
  obtain ⟨hitems, hne⟩ := contents_yclMsgCreateStatusResp none errmsg s.msgbuf
  obtain ⟨hmode, howed, hsent, hfd⟩ := @send_mode _ σ left
    { s.clearActions with msgbuf := yclMsgCreateStatusResp none errmsg s.msgbuf }
    hlive hne ⟨hunread.stream_eq, hunread.delivers⟩ none (.refused hphase hstore hleft rfl)
  exact ⟨hmode, howed.trans hitems, hsent, hfd⟩

theorem answerReq_answers {before : State World} {x : Bytes} {response : Response}
    (hanswered : Answered before x response σ) (hbefore : before.phase = .readreq)
    (hlive : s.client.removed = false) (hunread : Unread left s) (hstore : s.store = σ)
    (hleft : σ.phase = .finished → left = []) :
    Answers σ left response s (s.answerReq response) := by
  cases hanswered with
  | list asks _ phase buf => exact sendStoreList_answers hlive hunread hstore phase buf _ _
  | entered asks _ phase =>
    unfold answerReq
    dsimp only
    rw [hstore, phase, if_neg (by simp), setOnReadable_none hlive]
    have hsent := @sendEnteredResponse_answers _ σ left
      { s with client := { s.client with onReadable := none, rfd := false }, running := none }
      hlive ⟨hunread.stream_eq, hunread.delivers⟩ hstore phase
    exact ⟨(hsent _ _).mode, (hsent _ _).owed_eq, (hsent _ _).sent_eq, (hsent _ _).fd_eq⟩
  | refused asks _ phase =>
    unfold answerReq
    dsimp only
    rw [hstore, if_pos phase]
    exact writeErrResponse_answers hlive hunread hstore phase (hleft phase) _
  | opened _ phase | renamed _ phase =>
    rw [hbefore] at phase
    cases phase

variable {x : Bytes} {response : Response}

theorem answerEntered_rename {before : State World}
    (hanswered : Answered before x response σ) (hbefore : before.phase = .readentered)
    (hrename : ¬ AsksEntered "open" x) (hlive : s.client.removed = false) (hunread : Unread left s)
    (hstore : s.store = σ) : Answers σ left response s (s.answerEntered response) := by
  cases hanswered with
  | list _ phase | entered _ phase | refused _ phase =>
    rw [hbefore] at phase
    cases phase
  | opened asks _ phase => exact absurd asks hrename
  | renamed asks _ phase =>
    unfold answerEntered
    dsimp only
    rw [hstore, phase, if_neg (by simp)]
    exact sendEnteredResponse_answers hlive hunread hstore phase _ _

theorem answerEntered_open {before : State World}
    (hanswered : Answered before x response σ) (hopen : AsksEntered "open" x)
    (hbefore : before.phase = .readentered) (hover : Over before s) (hstore : s.store = σ)
    (hpending : Pending s.msgbuf s.fd left) :
    Answers σ left response s (s.answerEntered response) := by
  cases hanswered with
  | list _ phase | entered _ phase | refused _ phase =>
    rw [hbefore] at phase
    cases phase
  | renamed asks _ _ =>
    obtain ⟨req, hreq, haction⟩ := asks
    obtain ⟨other, hother, hopen⟩ := hopen
    rw [Option.mem_def.mp hother] at hreq
    cases hreq
    exact absurd haction (not_rename_of_open hopen)
  | opened asks _ phase =>
    have hafter : s.answerEntered (.fd σ.cli.openFd σ.cli.openErrno) =
        { s with
          client :=
            { s.client with
              onReadable := none
              rfd := false
              onWritable := some (.callback .onSendfd)
              wfd := true }
          running := some (.callback .onSendfd) } := by
      unfold answerEntered
      rw [setOnReadable_none hover.live]
      apply setOnWritable_some
      exact hover.live
    have hfd : SendingFd σ left (s.answerEntered (.fd σ.cli.openFd σ.cli.openErrno)) := by
      rw [hafter]
      refine ⟨⟨hover.live, hover.wrdata_eq, hover.tflread, hover.waiting, ?_⟩, rfl, rfl, rfl,
        hstore, phase, hpending⟩
      intro htflwrite
      obtain hnone | ⟨-, hreadreq, -⟩ := hover.onWritable htflwrite
      · exact .inl hnone
      · rw [hbefore] at hreadreq
        cases hreadreq
    refine ⟨.sendingFd (.inr ?_) hfd, ?_, ?_, ?_⟩
    · rw [hafter]
    · rw [hfd.owed_eq, hfd.store_eq]
      rfl
    · rw [hafter]
    · rw [hafter]

/-- A call of `ycl_recvmsg` for a reader. -/
inductive Receives (left : List Bytes) (s : Server World) (onMessage : Server World → Server World) :
    Server World → Prop where
  | again {msgbuf : YclMsg} {fd : Fd} (pending : Pending msgbuf fd left)
      (quiet : left = [] ∨ streamBytes fd.events ≠ [])
      (again_lt : againCount fd.events < againCount s.fd.events) :
      Receives left s onMessage { s with msgbuf := msgbuf, fd := fd, running := none }
  | message {x rest : Bytes} {xs : List Bytes} {msgbuf : YclMsg} {fd : Fd} (left_eq : left = x :: xs)
      (recvmsg : yclRecvmsg dflMaxmsgsz s.msgbuf s.fd = (.ok, msgbuf, fd))
      (contents : msgbuf.buf.contents = encode x ++ rest)
      (nextoff : msgbuf.nextoff = (encode x).length) (pending : Pending msgbuf fd xs)
      (again_eq : againCount fd.events = againCount s.fd.events) :
      Receives left s onMessage (onMessage { s with msgbuf := msgbuf, fd := fd, running := none })

theorem receives (hpending : Pending s.msgbuf s.fd left)
    (hleft : ∀ x ∈ left, (encode x).length < 2 ^ 64) (hconnected : s.Connected)
    (onMessage : Server World → Server World) :
    Receives left s onMessage (s.receive onMessage) := by
  obtain ⟨result, msgbuf, fd, hrun⟩ : ∃ result msgbuf fd,
      yclRecvmsg dflMaxmsgsz s.msgbuf s.fd = (result, msgbuf, fd) := ⟨_, _, _, rfl⟩
  have hmax : dflMaxmsgsz ≤ 2 ^ 64 := by decide
  unfold receive
  rw [hrun]
  cases yclRecvmsg_cases hmax hleft hpending hrun with
  | inr hrefused =>
    obtain ⟨err, herr⟩ := hrefused.is_err
    refine absurd ?_ (hconnected err)
    rw [hrun, herr]
  | inl hreceived =>
    cases hreceived with
    | message rest hcontents hnextoff hrest hcount =>
      exact .message rfl hrun hcontents hnextoff hrest hcount
    | again hrest hcount =>
      exact .again hrest (stream_ne_nil_of_again hleft hrun hrest) (by omega)

theorem unread_of_alone {msgbuf parsed : YclMsg} {x rest : Bytes} {xs : List Bytes} {fd : Fd}
    {client : EdsClient Callback} {store : State World}
    (hcontents : msgbuf.buf.contents = encode x ++ rest)
    (hnextoff : msgbuf.nextoff = (encode x).length) (hpending : Pending msgbuf fd xs)
    (halone : msgbuf.buf.len = msgbuf.nextoff) :
    Unread xs { s with
      client := client, msgbuf := parsed, fd := fd, store := store, running := none } := by
  have hrest : rest = [] := by
    have hlen := congrArg List.length hcontents
    rw [Buf.length_contents, List.length_append, halone, hnextoff] at hlen
    apply List.eq_nil_of_length_eq_zero
    omega
  have hbehind := hpending.behind
  rw [hcontents, hnextoff, List.drop_left, hrest, List.nil_append] at hbehind
  exact ⟨hbehind, hpending.delivers⟩

variable {σ' : State World}

theorem onReadreq_eq_of_step {m : Message}
    (hphase : σ.phase = .readreq) (hstep : Stored.step out σ m = (some response, σ')) :
    Stored.onReadreq out m.storeReq σ = (response, σ') := by
  unfold Stored.step at hstep
  rw [hphase] at hstep
  obtain ⟨hresponse, hafter⟩ := Prod.mk.inj hstep
  exact Prod.ext (Option.some.inj hresponse) hafter

theorem onReadentered_eq_of_step {m : Message}
    (hphase : σ.phase = .readentered) (hstep : Stored.step out σ m = (some response, σ')) :
    Stored.onReadentered out m.storeEnteredReq σ = (response, σ') := by
  unfold Stored.step at hstep
  rw [hphase] at hstep
  obtain ⟨hresponse, hafter⟩ := Prod.mk.inj hstep
  exact Prod.ext (Option.some.inj hresponse) hafter

theorem serveReq_eq {rest : Bytes}
    (hcontents : msgbuf.buf.contents = encode x ++ rest) (hsize : msgbuf.buf.len < 2 ^ 64)
    (hstore : s.store = σ) (hphase : σ.phase = .readreq)
    (hstep : Stored.step out σ (messageOf x) = (some response, σ')) (fd : Fd) :
    serveReq out { s with msgbuf := msgbuf, fd := fd, running := none } =
      { s with
        msgbuf := (yclMsgParseStoreReq msgbuf).2
        fd := fd
        store := σ'
        running := none }.answerReq response := by
  unfold serveReq
  dsimp only
  rw [(yclMsgParseStoreReq_front hcontents hsize).1, hstore, onReadreq_eq_of_step hphase hstep]

theorem serveEntered_eq {rest : Bytes}
    (hcontents : msgbuf.buf.contents = encode x ++ rest) (hsize : msgbuf.buf.len < 2 ^ 64)
    (hstore : s.store = σ) (hphase : σ.phase = .readentered)
    (hstep : Stored.step out σ (messageOf x) = (some response, σ')) (fd : Fd) :
    serveEntered out { s with msgbuf := msgbuf, fd := fd, running := none } =
      { s with
        msgbuf := (yclMsgParseStoreEnteredReq msgbuf).2
        fd := fd
        store := σ'
        running := none }.answerEntered response := by
  unfold serveEntered
  dsimp only
  rw [(yclMsgParseStoreEnteredReq_front hcontents hsize).1, hstore,
    onReadentered_eq_of_step hphase hstep]

theorem Reading.again (h : Reading σ left s) {msgbuf : YclMsg} {fd : Fd}
    (hpending : Pending msgbuf fd left) :
    Reading σ left { s with msgbuf := msgbuf, fd := fd, running := none } :=
  { h with
    ended := ⟨h.ended.live, h.ended.wrdata_eq, h.ended.tflread, h.ended.waiting, h.ended.onWritable⟩
    pending := hpending }

theorem left_eq_of_finished {xs : List Bytes} (hwell : WellFormed out σ xs) :
    σ.phase = .finished → xs = [] := by
  intro hphase
  cases xs with
  | nil => rfl
  | cons x xs =>
    have hasks := hwell.1
    rw [hphase] at hasks
    exact absurd hasks id

theorem Reading.receivesReq (h : Reading σ left s) (hphase : σ.phase = .readreq)
    (hleft : ∀ x ∈ left, (encode x).length < 2 ^ 64) (hwell : WellFormed out σ left)
    (hconnected : s.Connected) (halone : s.Unpipelined fun _ => False) :
    Advances out 1 σ left s (s.onReadreq out) := by
  have howed := owed_of_unregistered h.ended.wrdata_eq h.unregistered
  have hreceives := receives h.pending hleft hconnected (serveReq out)
  unfold onReadreq
  generalize s.receive (serveReq out) = s' at hreceives ⊢
  cases hreceives with
  | again pending quiet again_lt =>
    exact .same (.reading rfl (h.again pending) quiet) rfl again_lt
  | @message x rest xs msgbuf fd left_eq recvmsg contents nextoff pending again_eq =>
    subst left_eq
    obtain ⟨response, σ', hstep, hanswered⟩ := @exists_answered _ out σ x hwell.1
    have hrest : WellFormed out σ' xs := by
      have hwell := hwell.2
      rwa [hstep] at hwell
    rw [serveReq_eq contents pending.size h.store_eq hphase hstep]
    have hunread := @unread_of_alone _ s msgbuf (yclMsgParseStoreReq msgbuf).2 x rest xs fd s.client
      σ' contents nextoff pending (halone _ _ recvmsg id)
    have hanswers := @answerReq_answers _ σ' xs
      { s with
        msgbuf := (yclMsgParseStoreReq msgbuf).2
        fd := fd
        store := σ'
        running := none } σ x response hanswered hphase h.ended.live hunread rfl
      (left_eq_of_finished hrest)
    refine .answered rfl hstep hanswers.mode ?_ ?_
    · rw [hanswers.owed_eq, hanswers.sent_eq, howed, List.append_nil]
    · rw [hanswers.fd_eq]
      exact again_eq.le

theorem Reading.receivesEntered (h : Reading σ left s) (hphase : σ.phase = .readentered)
    (hleft : ∀ x ∈ left, (encode x).length < 2 ^ 64) (hwell : WellFormed out σ left)
    (hconnected : s.Connected) (halone : s.Unpipelined AsksOpen) :
    Advances out 1 σ left s (s.onReadentered out) := by
  have howed := owed_of_unregistered h.ended.wrdata_eq h.unregistered
  have hreceives := receives h.pending hleft hconnected (serveEntered out)
  unfold onReadentered
  generalize s.receive (serveEntered out) = s' at hreceives ⊢
  cases hreceives with
  | again pending quiet again_lt =>
    exact .same (.reading rfl (h.again pending) quiet) rfl again_lt
  | @message x rest xs msgbuf fd left_eq recvmsg contents nextoff pending again_eq =>
    subst left_eq
    obtain ⟨response, σ', hstep, hanswered⟩ := @exists_answered _ out σ x hwell.1
    obtain ⟨hparsed, hbehind, hlen, hoff⟩ :=
      yclMsgParseStoreEnteredReq_front contents pending.size
    rw [serveEntered_eq contents pending.size h.store_eq hphase hstep]
    have hanswers : Answers σ' xs response
        { s with
          msgbuf := (yclMsgParseStoreEnteredReq msgbuf).2
          fd := fd
          store := σ'
          running := none }
        ({ s with
          msgbuf := (yclMsgParseStoreEnteredReq msgbuf).2
          fd := fd
          store := σ'
          running := none }.answerEntered response) := by
      by_cases hopen : AsksEntered "open" x
      · apply answerEntered_open hanswered hopen hphase _ rfl
        · refine ⟨?_, ?_, pending.delivers⟩
          · dsimp only
            rw [hoff, nextoff, hbehind]
            have hold := pending.behind
            rwa [contents, nextoff, List.drop_left] at hold
          · rw [hlen]
            exact pending.size
        · exact ⟨h.ended.live, h.ended.wrdata_eq, h.ended.tflread, h.ended.waiting,
            h.ended.onWritable⟩
      · apply answerEntered_rename hanswered hphase hopen
        · exact h.ended.live
        · refine @unread_of_alone _ s _ _ _ _ _ _ s.client σ' contents nextoff pending
            (halone _ _ recvmsg ?_)
          rintro ⟨req, hreq, haction⟩
          rw [hparsed] at hreq
          exact hopen ⟨req, hreq, haction⟩
        · rfl
    refine .answered rfl hstep hanswers.mode ?_ ?_
    · rw [hanswers.owed_eq, hanswers.sent_eq, howed, List.append_nil]
    · rw [hanswers.fd_eq]
      exact again_eq.le

theorem Reading.reads (h : Reading σ left s)
    (hrunning : s.running = (readerOf σ.phase).map .callback)
    (hleft : ∀ x ∈ left, (encode x).length < 2 ^ 64) (hwell : WellFormed out σ left)
    {choice : Choice} (hmeets : Meets s choice) (hstep : step out s choice = some s') :
    Advances out 1 σ left s s' := by
  cases hphase : σ.phase with
  | readreq =>
    rw [hphase] at hrunning
    replace hrunning : s.running = some (.callback .onReadreq) := hrunning
    cases choice <;> simp only [Server.step, hrunning] at hstep <;> cases hstep
    simp only [Meets, hrunning] at hmeets
    exact h.receivesReq hphase hleft hwell hmeets.1 hmeets.2
  | readentered =>
    rw [hphase] at hrunning
    replace hrunning : s.running = some (.callback .onReadentered) := hrunning
    cases choice <;> simp only [Server.step, hrunning] at hstep <;> cases hstep
    simp only [Meets, hrunning] at hmeets
    exact h.receivesEntered hphase hleft hwell hmeets.1 hmeets.2
  | finished => exact absurd hphase h.active

theorem Advances.any {agains : ℕ} (h : Advances out agains σ left s s') :
    Advances out 0 σ left s s' := by
  cases h with
  | same mode sent_eq again_le => exact .same mode sent_eq (Nat.le_of_add_right_le again_le)
  | answered left_eq step_eq mode sent_eq again_le =>
    exact .answered left_eq step_eq mode sent_eq again_le

theorem Mode.step (h : Mode σ left s) (hleft : ∀ x ∈ left, (encode x).length < 2 ^ 64)
    (hwell : WellFormed out σ left) {choice : Choice} (hmeets : Meets s choice)
    (hstep : step out s choice = some s') : Advances out 0 σ left s s' := by
  cases h with
  | fresh running h =>
    obtain hnone | hrunning := running
    · exact h.idles (idles_of_step hnone hmeets hstep)
    · cases choice <;> simp only [Server.step, hrunning] at hstep <;> cases hstep
      exact h.starts
  | reading running h quiet => exact h.idles running quiet (idles_of_step running hmeets hstep)
  | receiving running h => exact (h.reads running hleft hwell hmeets hstep).any
  | sending running h =>
    obtain hnone | hrunning := running
    · exact h.idles (idles_of_step hnone hmeets hstep)
    · cases choice with
      | write accepted =>
        simp only [Server.step, hrunning] at hstep
        split at hstep
        · cases hstep
          exact h.writes accepted
        · cases hstep
      | go =>
        simp only [Server.step, hrunning] at hstep
        rw [if_neg h.wrdata_ne] at hstep
        cases hstep
      | select readable writable =>
        simp only [Server.step, hrunning] at hstep
        cases hstep
      | sendmsg accepted =>
        simp only [Server.step, hrunning] at hstep
        cases hstep
  | sendingFd running h =>
    obtain hnone | hrunning := running
    · exact h.idles hnone (idles_of_step hnone hmeets hstep)
    · cases choice <;> simp only [Server.step, hrunning] at hstep <;> cases hstep
      exact h.sends _
  | sentStatus running h =>
    cases choice <;> simp only [Server.step, running] at hstep <;> cases hstep
    exact h.reads
  | sentList running h =>
    cases choice <;> simp only [Server.step, running] at hstep <;> cases hstep
    exact h.reads
  | closing running h => exact h.idles running (idles_of_step running hmeets hstep)
  | closed running h => exact h.idles running (idles_of_step running hmeets hstep)

end Steps

end Server

end Yans.Apps.Stored
