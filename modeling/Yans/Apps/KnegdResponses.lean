import Yans.Apps.KnegdClients

/-! Responses and earlier clients. The buffers of a slot come to the next client
with their bytes, and only their lengths are cleared; a response is taken from
the start of `respbuf` as a C string. -/
namespace Yans.Apps.Knegd

open Library.Memory Library.Strings Library.Runs Util Util.Netstring Ycl

variable {World : Type} {out : Outside World} {opts : KngOpts}

/-! A client's buffer is left alone by everything else -/

theorem startKnegdJob_respbufs (req : KnegdReq) (s : State World) :
    (startKnegdJob out opts req s).2.respbufs = s.respbufs := by
  unfold startKnegdJob
  dsimp only
  split <;> rfl

variable {req : KnegdReq} {after s : State World} {response : Option Response}

theorem onQueue_respbufs
    (h : onQueue out opts req s = some (response, after)) : after.respbufs = s.respbufs := by
  have hstart := @startKnegdJob_respbufs _ out opts req s
  unfold onQueue at h
  split at h
  · cases h
    rfl
  · split at h
    · cases h
      rfl
    · split at h
      · cases h
        rfl
      · split at h
        · split at h
          · rename_i hcall
            rw [hcall] at hstart
            cases h
            exact hstart
          · rename_i hcall
            rw [hcall] at hstart
            cases h
            exact hstart
        · obtain ⟨⟨errmsg, world⟩, -, h⟩ := Option.bind_eq_some_iff.mp h
          cases errmsg <;> cases h <;> rfl

variable {fd slot : ℤ}

theorem setRespbuf_of_ne (hne : slot ≠ fd) (buf : Buf) (s : State World) :
    (setRespbuf fd buf s).respbufs slot = s.respbufs slot := Function.update_of_ne hne _ _

variable {respbuf : Buf}

theorem onRequest_respbufs (hne : slot ≠ fd)
    (h : onRequest out opts fd respbuf req s = some (response, after)) :
    after.respbufs slot = s.respbufs slot := by
  unfold onRequest at h
  split at h
  · cases h
    rfl
  · split at h
    · cases h
      rfl
    · split at h
      · have hstart := @startKnegdJob_respbufs _ out opts req s
        unfold onStart at h
        split at h
        · rename_i hcall
          rw [hcall] at hstart
          cases h
          exact congrFun hstart slot
        · rename_i hcall
          rw [hcall] at hstart
          cases h
          exact (setRespbuf_of_ne hne _ _).trans (congrFun hstart slot)
      · split at h
        · cases h
          exact setRespbuf_of_ne hne _ _
        · split at h
          · cases h
            exact setRespbuf_of_ne hne _ _
          · split at h
            · cases h
              rfl
            · unfold onIdAction at h
              split at h
              · exact congrFun (onQueue_respbufs h) slot
              · split at h
                · cases h
                  exact setRespbuf_of_ne hne _ _
                · split at h
                  · obtain ⟨⟨buf, world⟩, -, h⟩ := Option.bind_eq_some_iff.mp h
                    cases h
                    exact setRespbuf_of_ne hne _ _
                  · split at h
                    · cases h
                      rfl
                    · cases h
                      rfl

theorem onReadreq_respbufs (hne : slot ≠ fd) {received : Received}
    (h : onReadreq out opts fd respbuf received s = some (response, after)) :
    after.respbufs slot = s.respbufs slot := by
  cases received with
  | again =>
    cases h
    rfl
  | failure =>
    cases h
    rfl
  | malformed =>
    cases h
    rfl
  | request req => exact onRequest_respbufs hne h

theorem dispatchNJobs_respbufs (rounds : ℕ) : ∀ {n : ℤ} {s after : State World},
    dispatchNJobs out opts rounds n s = some after → after.respbufs = s.respbufs := by
  induction rounds with
  | zero =>
    intro n s after h
    unfold dispatchNJobs at h
    split at h
    · cases h
    · cases h
      rfl
  | succ rounds ih =>
    intro n s after h
    unfold dispatchNJobs at h
    split at h
    · dsimp only at h
      split at h
      · cases h
      · cases h
        rfl
      · cases h
        rfl
      · rename_i req ctime world hnext
        have hstart := @startKnegdJob_respbufs _ out opts req { s with world := world }
        split at h
        · have hrest := ih h
          exact hrest
        · split at h
          · rename_i hcall
            rw [hcall] at hstart
            exact (ih h).trans hstart
          · rename_i hcall
            rw [hcall] at hstart
            exact (ih h).trans hstart
    · cases h
      rfl

theorem step_respbufs {rounds : ℕ} {event : Event World}
    (h : step out opts rounds s event = some (response, after))
    (hevent : (∃ pid, event = .reapedChild pid) ∨ event = .tick ∨ ∃ world, event = .elapse world) :
    after.respbufs = s.respbufs := by
  obtain ⟨pid, rfl⟩ | rfl | ⟨world, rfl⟩ := hevent
  · obtain ⟨mid, hmid, h⟩ := Option.bind_eq_some_iff.mp h
    cases h
    unfold kngOnSvcReapedChild dispatchAvailable at hmid
    dsimp only at hmid
    split at hmid
    · split at hmid
      · have hrest := dispatchNJobs_respbufs rounds hmid
        exact hrest
      · cases hmid
        rfl
    · split at hmid
      · have hrest := dispatchNJobs_respbufs rounds hmid
        exact hrest
      · cases hmid
        rfl
  · cases h
    rfl
  · simp only [step] at h
    split at h
    · cases h
      rfl
    · cases h

/-! A client that is being read from -/

def ClientEvent.IsFor (fd : ℤ) : ClientEvent World → Prop
  | .readable slot => slot = fd
  | .readreq slot _ => slot = fd
  | .finalize slot => slot = fd
  | _ => False

/-- The client that was accepted on `fd` last has sent `bytes` since then, and
has to go on. Whatever happened before is any history of earlier clients. -/
inductive Receiving (out : Outside World) (opts : KngOpts) (fd : ℤ) : Daemon World → Bytes → Prop
    where
  | accepted {d after : Daemon World} (hreached : Reached out opts d)
      (hstep : DaemonStep out opts d (.readable fd) after) : Receiving out opts fd after []
  | again {d after : Daemon World} {reads : List ReadEvent} {bytes : Bytes}
      (hbefore : Receiving out opts fd d bytes) (hdelivers : ∀ event ∈ reads, event.Delivers)
      (hstep : DaemonStep out opts d (.readreq fd reads) after) (hreading : after.reading fd = true) :
      Receiving out opts fd after (bytes ++ streamBytes reads)
  | other {d after : Daemon World} {event : ClientEvent World} {bytes : Bytes}
      (hbefore : Receiving out opts fd d bytes) (hevent : ¬ event.IsFor fd)
      (hstep : DaemonStep out opts d event after) : Receiving out opts fd after bytes

/-- The buffers hold what this client has sent and nothing else. -/
structure Holding (fd : ℤ) (d : Daemon World) (bytes : Bytes) (msg : YclMsg) (respbuf : Buf) :
    Prop where
  reading : d.reading fd = true
  msgbuf_eq : d.msgbufs fd = some msg
  respbuf_eq : d.state.respbufs fd = some respbuf
  nextoff : msg.nextoff = 0
  received : msg.buf.contents = bytes
  empty : respbuf.contents = []

theorem holding_readable (fd : ℤ) (d : Daemon World) :
    ∃ msg respbuf, Holding fd (readable fd d) [] msg respbuf := by
  obtain ⟨msg, hmsg, hnextoff, hcontents⟩ : ∃ msg, (readable fd d).msgbufs fd = some msg ∧
      msg.nextoff = 0 ∧ msg.buf.contents = [] := by
    refine ⟨_, Function.update_self fd _ _, ?_, ?_⟩
    · cases d.msgbufs fd <;> rfl
    · cases d.msgbufs fd with
      | none => exact Buf.contents_init _
      | some msg => exact Buf.contents_clear _
  obtain ⟨respbuf, hrespbuf, hempty⟩ : ∃ respbuf, (readable fd d).state.respbufs fd = some respbuf ∧
      respbuf.contents = [] := by
    unfold readable kngOnReadable
    cases d.state.respbufs fd with
    | none => exact ⟨_, Function.update_self fd _ _, Buf.contents_init _⟩
    | some respbuf => exact ⟨_, Function.update_self fd _ _, Buf.contents_clear _⟩
  exact ⟨msg, respbuf, Function.update_self fd _ _, hmsg, hrespbuf, hnextoff, hcontents, hempty⟩

theorem parse_isAgain (msg : YclMsg) : (yclMsgParseKnegdReq msg).isAgain = false := by
  unfold yclMsgParseKnegdReq
  dsimp only
  split <;> rfl

variable {reads : List ReadEvent} {msg : YclMsg}

theorem receive_again (hdelivers : ∀ event ∈ reads, event.Delivers)
    {after : YclMsg} {received : Received} (hnextoff : msg.nextoff = 0)
    (h : receive reads msg = some (received, after)) (hagain : received.isAgain = true) :
    received = .again ∧ after.nextoff = 0 ∧
      after.buf.contents = msg.buf.contents ++ streamBytes reads := by
  unfold receive at h
  rw [yclRecvmsg_eq_recvLoop dflMaxmsgsz hnextoff] at h
  obtain ⟨result, got, last, hrun⟩ : ∃ result got last,
      recvLoop dflMaxmsgsz msg ⟨reads, []⟩ = (result, got, last) := ⟨_, _, _, rfl⟩
  obtain ⟨hbytes, hkeeps⟩ := recvLoop_bytes _ rfl hdelivers hrun
  rw [hrun] at h
  dsimp only at h
  split at h
  · rename_i hend
    cases result with
    | again =>
      cases h
      rw [hend] at hbytes
      exact ⟨rfl, (hkeeps rfl).trans hnextoff, (List.append_nil _).symm.trans hbytes⟩
    | err err =>
      cases h
      cases hagain
    | ok =>
      cases h
      rw [parse_isAgain] at hagain
      cases hagain
  · cases h

variable {d : Daemon World}

theorem other_keeps {rounds : ℕ} {event : Event World} {after : Daemon World}
    {bytes : Option Bytes} (h : other out opts rounds event d = some (bytes, after))
    (hevent : (∃ pid, event = .reapedChild pid) ∨ event = .tick ∨ ∃ world, event = .elapse world) :
    after.reading fd = d.reading fd ∧ after.msgbufs fd = d.msgbufs fd ∧
      after.state.respbufs fd = d.state.respbufs fd := by
  obtain ⟨⟨rounds', response, hstep⟩, hmsgbufs, hreading⟩ := other_eq_some h
  exact ⟨congrFun hreading fd, congrFun hmsgbufs fd, congrFun (step_respbufs hstep hevent) fd⟩

theorem other_slot {after : Daemon World} {event : ClientEvent World}
    (hevent : ¬ event.IsFor fd) (h : DaemonStep out opts d event after) :
    after.reading fd = d.reading fd ∧ after.msgbufs fd = d.msgbufs fd ∧
      after.state.respbufs fd = d.state.respbufs fd := by
  obtain ⟨rounds, bytes, hstep⟩ := h
  cases event with
  | readable slot =>
    have hne : fd ≠ slot := fun heq => hevent heq.symm
    simp only [daemonStep] at hstep
    split at hstep
    · cases hstep
    · cases hstep
      refine ⟨Function.update_of_ne hne _ _, Function.update_of_ne hne _ _, ?_⟩
      unfold readable kngOnReadable
      split <;> exact setRespbuf_of_ne hne _ _
  | readreq slot reads =>
    have hne : fd ≠ slot := fun heq => hevent heq.symm
    simp only [daemonStep] at hstep
    split at hstep
    · obtain ⟨msg, respbuf, received, parsed, response, state, -, -, -, hread, -, rfl⟩ :=
        readreq_eq_some hstep
      exact ⟨Function.update_of_ne hne _ _, Function.update_of_ne hne _ _,
        onReadreq_respbufs hne hread⟩
    · cases hstep
  | finalize slot =>
    have hne : fd ≠ slot := fun heq => hevent heq.symm
    cases hstep
    exact ⟨Function.update_of_ne hne _ _, Function.update_of_ne hne _ _,
      Function.update_of_ne hne _ _⟩
  | reapedChild pid => exact other_keeps hstep (.inl ⟨pid, rfl⟩)
  | tick => exact other_keeps hstep (.inr (.inl rfl))
  | elapse world => exact other_keeps hstep (.inr (.inr ⟨world, rfl⟩))

variable {bytes : Bytes}

theorem Receiving.holding
    (h : Receiving out opts fd d bytes) : ∃ msg respbuf, Holding fd d bytes msg respbuf := by
  induction h with
  | @accepted d after hreached hstep =>
    obtain ⟨rounds, response, hstep⟩ := hstep
    simp only [daemonStep] at hstep
    split at hstep
    · cases hstep
    · cases hstep
      exact holding_readable fd d
  | @again d after reads bytes hbefore hdelivers hstep hreading ih =>
    obtain ⟨msg, respbuf, hholding⟩ := ih
    obtain ⟨rounds, response, hstep⟩ := hstep
    simp only [daemonStep] at hstep
    rw [if_pos hholding.reading] at hstep
    obtain ⟨msg', respbuf', received, parsed, answer, state, hmsg, hrespbuf, hreceive, hread, -, rfl⟩ :=
      readreq_eq_some hstep
    obtain rfl := Option.some.inj (hholding.msgbuf_eq.symm.trans hmsg)
    obtain rfl := Option.some.inj (hholding.respbuf_eq.symm.trans hrespbuf)
    have hisAgain : received.isAgain = true :=
      (Function.update_self fd _ d.reading).symm.trans hreading
    obtain ⟨rfl, hnextoff, hcontents⟩ := receive_again hdelivers hholding.nextoff hreceive hisAgain
    cases hread
    refine ⟨parsed, respbuf, hreading, Function.update_self fd _ _, hholding.respbuf_eq, hnextoff, ?_,
      hholding.empty⟩
    rw [hcontents, hholding.received]
  | @other d after event bytes hbefore hevent hstep ih =>
    obtain ⟨msg, respbuf, hholding⟩ := ih
    refine ⟨msg, respbuf, ?_⟩
    obtain ⟨hreading, hmsgbuf, hrespbuf⟩ : after.reading fd = d.reading fd ∧
        after.msgbufs fd = d.msgbufs fd ∧ after.state.respbufs fd = d.state.respbufs fd := by
      exact other_slot hevent hstep
    exact
      { reading := hreading.trans hholding.reading
        msgbuf_eq := hmsgbuf.trans hholding.msgbuf_eq
        respbuf_eq := hrespbuf.trans hholding.respbuf_eq
        nextoff := hholding.nextoff
        received := hholding.received
        empty := hholding.empty }

/-! Texts are appended to what the buffer holds -/

theorem cstring_data {buf : Buf} (h : 0 ∈ buf.contents) : cstring buf.data = cstring buf.contents := by
  conv_lhs => rw [buf.data_eq]
  exact cstring_append_left h _

variable {left right : Buf}

theorem separate_congr (h : left.contents = right.contents) :
    (separate left).contents = (separate right).contents := by
  have hlen : left.len = right.len := by
    rw [← Buf.length_contents, h, Buf.length_contents]
  unfold separate
  rw [hlen]
  split
  · rw [Buf.contents_achar, Buf.contents_achar, h]
  · exact h

theorem contents_shrink (buf : Buf) (nbytes : ℕ) :
    (buf.shrink nbytes).contents = buf.contents.take (buf.len - nbytes) := by
  unfold Buf.shrink Buf.contents
  dsimp only
  rw [List.take_take]
  congr 1
  split <;> omega

theorem loadLine_congr (h : left.contents = right.contents) (line : Bytes) :
    (loadLine left line).contents = (loadLine right line).contents := by
  unfold loadLine
  generalize (tokens ((cstring line).takeWhile (· ≠ 35))).filter (· ≠ []) = texts
  induction texts generalizing left right with
  | nil => exact h
  | cons text texts ih =>
    apply ih
    rw [Buf.contents_achar, Buf.contents_achar, Buf.contents_adata, Buf.contents_adata, h]

/-- The induction is on the file. -/
theorem loadLines_congr (n : ℕ) : ∀ {file : Bytes}, file.length = n → ∀ {left right : Buf},
    left.contents = right.contents →
      (loadLines left file).contents = (loadLines right file).contents := by
  induction n using Nat.strongRecOn with
  | _ n ih =>
    intro file hfile left right h
    rw [loadLines]
    conv_rhs => rw [loadLines]
    split
    · exact h
    · rename_i hne
      have hless := fgets_shorter hne
      rw [hfile] at hless
      exact ih _ hless rfl (loadLine_congr h _)

theorem loadManifest_congr (h : left.contents = right.contents) {world : World}
    {file : Bytes} (hfile : (out.manifest world).1 = some file) :
    cstring (loadManifest out left world).1.data = cstring (loadManifest out right world).1.data := by
  have hlines := loadLines_congr _ (@rfl _ file.length) h
  have hlen : (loadLines left file).len = (loadLines right file).len := by
    rw [← Buf.length_contents, hlines, Buf.length_contents]
  unfold loadManifest
  cases hmanifest : out.manifest world with
  | mk found after =>
    rw [hmanifest] at hfile
    subst hfile
    rw [cstring_data (by simp), cstring_data (by simp), Buf.contents_achar, Buf.contents_achar,
      contents_shrink, contents_shrink, hlines, hlen]

theorem appendJobPids_fold (jobs : List KngJob) (buf : Buf) (s : Bytes) :
    appendJobPids jobs buf s = Buf.achar ((Str.fields s [0]).foldl
      (fun buf field => (separate buf).adata (printInt (jobsPid jobs field))) buf) 0 := by
  have hwalk := congrArg Id.run (@Str.strMapField_run Id _ [0] _ _ (appendJobPid jobs)
    (fun buf field => (separate buf).adata (printInt (jobsPid jobs field))) (fun _ _ _ => rfl) s buf)
  rw [List.idRun_foldlM] at hwalk
  exact congrArg (fun buf : Buf => buf.achar 0) hwalk

theorem appendJobPids_congr (h : left.contents = right.contents)
    (jobs : List KngJob) (s : Bytes) :
    (appendJobPids jobs left s).contents = (appendJobPids jobs right s).contents := by
  rw [appendJobPids_fold, appendJobPids_fold, Buf.contents_achar, Buf.contents_achar]
  congr 1
  generalize Str.fields s [0] = ids
  induction ids generalizing left right with
  | nil => exact h
  | cons id ids ih =>
    apply ih
    rw [Buf.contents_adata, Buf.contents_adata, separate_congr h]

/-- What `append_job_status` does with one id. -/
def appendStatus (out : Outside World) (jobs : List KngJob) (st : Buf × World) (s : Bytes) :
    Option (Buf × World) :=
  if (jobsFindById jobs s).isSome then some ((separate st.1).adata (ascii "running"), st.2)
  else (out.queueContains s st.2).map fun found =>
    ((separate st.1).adata (ascii (if found.1 then "queued" else "n/a")), found.2)

theorem appendJobStatuses_fold (jobs : List KngJob) (buf : Buf) (s : Bytes) (world : World) :
    appendJobStatuses out jobs buf s world =
      ((Str.fields s [0]).foldlM (appendStatus out jobs) (buf, world)).map
        fun st => (st.1.achar 0, st.2) := by
  have hstep : ∀ s len st, (appendJobStatus out jobs s len).run st =
      (fun after => (1, after)) <$> appendStatus out jobs st s := by
    rintro s len ⟨buf, world⟩
    rw [appendJobStatus_run]
    unfold appendStatus
    split
    · rfl
    · exact (Option.map_map _ _ _).symm
  unfold appendJobStatuses
  rw [← Str.strMapField_run hstep]
  cases (Str.strMapField s [0] (appendJobStatus out jobs)).run (buf, world) <;> rfl

/-- The induction is on the ids. -/
theorem foldlM_appendStatus_congr (jobs : List KngJob) (ids : List Bytes) :
    ∀ {left right : Buf} {world : World}, left.contents = right.contents →
      (ids.foldlM (appendStatus out jobs) (left, world)).map (fun st => (st.1.contents, st.2)) =
        (ids.foldlM (appendStatus out jobs) (right, world)).map
          fun st => (st.1.contents, st.2) := by
  induction ids with
  | nil =>
    intro left right world h
    exact congrArg (fun bytes => some (bytes, world)) h
  | cons id ids ih =>
    intro left right world h
    have htext : ∀ text, ((separate left).adata text).contents =
        ((separate right).adata text).contents := by
      intro text
      rw [Buf.contents_adata, Buf.contents_adata, separate_congr h]
    rw [List.foldlM_cons, List.foldlM_cons]
    unfold appendStatus
    split
    · exact ih (htext _)
    · cases out.queueContains id world with
      | none => rfl
      | some found => exact ih (htext _)

structure SameGlobals (s s' : State World) : Prop where
  jobs_eq : s.jobs = s'.jobs
  kngq_eq : s.kngq = s'.kngq
  world_eq : s.world = s'.world

/-- The request comes to the branch for the action `manifest`. -/
structure AsksManifest (req : KnegdReq) : Prop where
  executable : ¬ (lenOf req.type > 0 ∧ strEq req.type "MANIFEST")
  action : strEq req.action "manifest"

theorem startKnegdJob_congr {s s' : State World} (h : SameGlobals s s') (req : KnegdReq) :
    (startKnegdJob out opts req s).1 = (startKnegdJob out opts req s').1 := by
  unfold startKnegdJob
  dsimp only
  rw [h.world_eq]
  rcases jobNew out opts req.type req.id req.name _ s'.world with ⟨err | job, world⟩ <;> rfl

variable {s' : State World}

theorem onQueue_congr (h : SameGlobals s s') (req : KnegdReq) :
    (onQueue out opts req s).map Prod.fst = (onQueue out opts req s').map Prod.fst := by
  have hstart := @startKnegdJob_congr _ out opts _ _ h req
  unfold onQueue
  rw [h.kngq_eq, h.world_eq]
  split
  · rfl
  · split
    · rfl
    · split
      · rfl
      · split
        · generalize startKnegdJob out opts req s = started at hstart ⊢
          generalize startKnegdJob out opts req s' = started' at hstart ⊢
          obtain ⟨result, after⟩ := started
          obtain ⟨result', after'⟩ := started'
          obtain rfl : result = result' := hstart
          cases result <;> rfl
        · rcases out.queuePut req s'.world with - | ⟨err | err, world⟩ <;> rfl

theorem onStart_congr (h : SameGlobals s s')
    (hbufs : left.contents = right.contents) (fd : ℤ) (req : KnegdReq) :
    (onStart out opts fd left req s).1 = (onStart out opts fd right req s').1 := by
  have hstart := @startKnegdJob_congr _ out opts _ _ h req
  unfold onStart
  generalize startKnegdJob out opts req s = started at hstart ⊢
  generalize startKnegdJob out opts req s' = started' at hstart ⊢
  obtain ⟨result, after⟩ := started
  obtain ⟨result', after'⟩ := started'
  obtain rfl : result = result' := hstart
  cases result with
  | error err => rfl
  | ok job =>
    dsimp only
    unfold writeOkResponse
    rw [cstring_data (by simp), cstring_data (by simp), Buf.contents_adata, Buf.contents_adata, hbufs]

theorem onIdAction_congr (h : SameGlobals s s')
    (hbufs : left.contents = right.contents) (fd : ℤ) (req : KnegdReq) :
    (onIdAction out opts fd left req s).map Prod.fst =
      (onIdAction out opts fd right req s').map Prod.fst := by
  unfold onIdAction
  dsimp only
  split
  · exact onQueue_congr h req
  · split
    · have hpids := appendJobPids_congr hbufs s.jobs (req.id.getD [])
      have hzero : ∀ buf : Buf, 0 ∈ (appendJobPids s.jobs buf (req.id.getD [])).contents := by
        intro buf
        change 0 ∈ (Buf.achar _ 0).contents
        rw [Buf.contents_achar]
        exact List.mem_append_right _ (List.mem_singleton_self 0)
      rw [← h.jobs_eq]
      have htext : cstring (appendJobPids s.jobs left (req.id.getD [])).data =
          cstring (appendJobPids s.jobs right (req.id.getD [])).data := by
        rw [cstring_data (hzero _), cstring_data (hzero _), hpids]
      exact congrArg (fun text => some (some (Response.ok text))) htext
    · split
      · have hstatuses := @foldlM_appendStatus_congr _ out s'.jobs
          (Str.fields (req.id.getD []) [0]) _ _ s'.world hbufs
        rw [appendJobStatuses_fold, appendJobStatuses_fold, h.jobs_eq, h.world_eq]
        generalize (Str.fields (req.id.getD []) [0]).foldlM (appendStatus out s'.jobs)
          (left, s'.world) = texts at hstatuses ⊢
        generalize (Str.fields (req.id.getD []) [0]).foldlM (appendStatus out s'.jobs)
          (right, s'.world) = texts' at hstatuses ⊢
        rcases texts with - | ⟨left', world⟩ <;> rcases texts' with - | ⟨right', world'⟩
        · rfl
        · cases hstatuses
        · cases hstatuses
        · have hcontents : left'.contents = right'.contents :=
            congrArg Prod.fst (Option.some.inj hstatuses)
          simp only [Option.map_some, Option.bind_eq_bind, Option.bind_some, Option.pure_def,
            writeOkResponse]
          rw [cstring_data (by simp), cstring_data (by simp), Buf.contents_achar,
            Buf.contents_achar, hcontents]
      · split <;> rfl

theorem onRequest_congr (h : SameGlobals s s')
    (hbufs : left.contents = right.contents) (fd : ℤ)
    (hmanifest : AsksManifest req → (out.manifest s.world).1 ≠ none) :
    (onRequest out opts fd left req s).map Prod.fst =
      (onRequest out opts fd right req s').map Prod.fst := by
  unfold onRequest
  split
  · rfl
  · split
    · rfl
    · rename_i hexecutable
      split
      · exact congrArg some (onStart_congr h hbufs fd req)
      · split
        · rename_i haction
          obtain ⟨file, hfile⟩ := Option.ne_none_iff_exists'.mp (hmanifest ⟨hexecutable, haction⟩)
          have hload := loadManifest_congr hbufs hfile
          rw [← h.world_eq]
          exact congrArg (fun text => some (some (Response.ok text))) hload
        · split
          · rw [h.kngq_eq]
            unfold loadQueueinfo writeOkResponse
            dsimp only [Option.map_some]
            rw [cstring_data (by simp), cstring_data (by simp), Buf.contents_adata,
              Buf.contents_adata, hbufs]
          · split
            · rfl
            · exact onIdAction_congr h hbufs fd req

variable {mem : Bytes}

theorem stringOf_append_left {slot : Ycl.Slot}
    (h : slot.Inside msgbufAddr mem.length) (tail : Bytes) :
    stringOf (mem ++ tail) slot = stringOf mem slot := by
  cases slot with
  | data string =>
    unfold stringOf
    dsimp only
    split
    · rfl
    · rename_i hne
      rw [slice_append_left (h.resolve_left hne)]
  | long l => rfl
  | arr ptr nelems => rfl

theorem reqOf_append_left {r : List Ycl.Slot}
    (h : ∀ slot ∈ r, slot.Inside msgbufAddr mem.length) (tail : Bytes) :
    reqOf (mem ++ tail) r = reqOf mem r := by
  unfold reqOf
  split
  · simp only [List.forall_mem_cons] at h
    rw [stringOf_append_left h.2.1, stringOf_append_left h.2.2.1, stringOf_append_left h.2.2.2.1,
      stringOf_append_left h.2.2.2.2.1]
  · rfl

theorem scalar_knegdReq : ∀ field ∈ yclMsgKnegdReq.fields, field.typ.IsScalar := by
  unfold yclMsgKnegdReq FieldType.IsScalar
  simp

def requestIn (x : Bytes) : Received := yclMsgParseKnegdReq (alone (encode x))

variable {x : Bytes}

theorem yclMsgParseKnegdReq_eq (hx : (encode x).length < 2 ^ 64)
    (hcontents : msg.buf.contents = encode x) : yclMsgParseKnegdReq msg = requestIn x := by
  have hlen : msg.buf.len = (encode x).length := by rw [← hcontents, Buf.length_contents]
  obtain ⟨hstatus, hr, hmem, hlength, hinside⟩ :=
    yclMsgParse_local msgbufAddr 0 scalar_knegdReq (hlen ▸ hx)
  rw [hcontents] at hstatus hr hmem hlength hinside
  rw [← hlength] at hinside
  unfold requestIn yclMsgParseKnegdReq
  dsimp only
  rw [hstatus, hr, hmem, reqOf_append_left hinside]

/-- The members of a request as a client fills them in. -/
def reqMembers (timeout : Word) (action id name type : Bytes) : Members yclMsgKnegdReq.fields :=
  @Members.cons ⟨.long, ascii "timeout"⟩ _ timeout (@Members.cons ⟨.data, ascii "action"⟩ _ action
    (@Members.cons ⟨.data, ascii "id"⟩ _ id (@Members.cons ⟨.data, ascii "name"⟩ _ name
      (@Members.cons ⟨.data, ascii "type"⟩ _ type .nil))))

theorem stringOf_holds {scratch : Bytes} (hmem : mem.length < 2 ^ 64 - 1)
    {slot : Ycl.Slot} (h : slot.Holds msgbufAddr 0 mem scratch .data bytes) : stringOf mem slot = dataPayload bytes := by
  obtain ⟨hempty, hnonempty⟩ := h
  unfold dataPayload
  by_cases hnil : bytes = []
  · rw [hempty hnil, if_pos hnil]
    rfl
  · obtain ⟨string, rfl, hlen, hslice⟩ := hnonempty hnil
    rw [if_neg hnil]
    unfold stringOf
    dsimp only
    rw [if_neg, hlen, hslice]
    intro hnull
    have hfar : (string.data - msgbufAddr).toNat = 2 ^ 64 - 1 := by
      rw [hnull]
      rfl
    rw [hfar, slice, List.drop_eq_nil_of_le (by omega), List.take_nil] at hslice
    exact hnil hslice.symm

theorem requestIn_body (timeout : Word) (action id name type : Bytes)
    (hsize : (encode (reqMembers timeout action id name type).body).length < 2 ^ 64 - 1) :
    requestIn (reqMembers timeout action id name type).body =
      .request ⟨timeout.toInt, dataPayload action, dataPayload id, dataPayload name,
        dataPayload type⟩ := by
  set body := (reqMembers timeout action id name type).body with hbody
  have hcontents : (alone (encode body)).buf.contents = encode body := List.take_length
  obtain ⟨-, -, -, hlength, -⟩ := @yclMsgParse_local msgbufAddr 0 _ scalar_knegdReq
    (alone (encode body)) (show (encode body).length < 2 ^ 64 by omega)
  rw [hcontents] at hlength
  obtain ⟨hstatus, hmembers⟩ := yclMsgParse_body yclMsgKnegdReq
    (reqMembers timeout action id name type) (alone (encode body)) msgbufAddr 0 (by decide) hcontents
    (show (encode body).length < 2 ^ 64 by omega) (Nat.two_pow_pos 64)
  obtain ⟨slot₁, _, hr, htimeout, slot₂, _, rfl, haction, slot₃, _, rfl, hid, slot₄, _, rfl, hname,
    slot₅, _, rfl, htype, rfl⟩ := hmembers
  have hmem : (yclMsgParse yclMsgKnegdReq msgbufAddr 0 (alone (encode body))).mem.length <
      2 ^ 64 - 1 := by
    rw [hlength]
    exact hsize
  unfold requestIn yclMsgParseKnegdReq
  rw [if_pos hstatus, hr]
  unfold reqOf
  dsimp only
  rw [stringOf_holds hmem haction, stringOf_holds hmem hid, stringOf_holds hmem hname,
    stringOf_holds hmem htype, show slot₁ = .long timeout from htimeout]
  rfl

/-- The next client of the slot sends the message, and the reads bring the last
bytes of it. -/
structure Serving (out : Outside World) (opts : KngOpts) (fd : ℤ) (x : Bytes) (d : Daemon World)
    (reads : List ReadEvent) : Prop where
  receiving : ∃ bytes, Receiving out opts fd d bytes ∧ bytes ++ streamBytes reads = encode x
  delivers : ∀ event ∈ reads, event.Delivers
  again : againCount reads = 0

/-- The bytes of the response; the outer `none` is a failed assertion. -/
def responseBytes (out : Outside World) (opts : KngOpts) (fd : ℤ) (reads : List ReadEvent)
    (d : Daemon World) : Option (Option Bytes) :=
  (readreq out opts fd reads d).map Prod.fst

def bytesOf (response : Option Response) : Option Bytes :=
  response.map fun response => encode (membersOf response).body

theorem sendResponse_fst (response : Option Response) (msg : YclMsg) :
    (sendResponse response msg).1 = bytesOf response := by
  cases response with
  | none => rfl
  | some response => exact congrArg some (contents_yclMsgCreate _ _ msg (by decide))

theorem receive_alone {x : Bytes} (hx : (encode x).length < dflMaxmsgsz) {msg : YclMsg}
    (hnextoff : msg.nextoff = 0) {reads : List ReadEvent}
    (hdelivers : ∀ event ∈ reads, event.Delivers) (hagain : againCount reads = 0)
    (hbytes : msg.buf.contents ++ streamBytes reads = encode x) :
    ∃ parsed, receive reads msg = some (requestIn x, parsed) := by
  have hmax : dflMaxmsgsz ≤ 2 ^ 64 := by decide
  obtain ⟨after, log, hrun, hcontents⟩ :=
    yclRecvmsg_alone hmax hx hnextoff hdelivers hagain hbytes
  refine ⟨parsedMsgbuf after, ?_⟩
  unfold receive
  rw [hrun]
  dsimp only
  rw [if_pos rfl, yclMsgParseKnegdReq_eq (hx.trans_le hmax) hcontents]

theorem responseBytes_eq (hx : (encode x).length < dflMaxmsgsz)
    (h : Holding fd d bytes msg respbuf)
    (hdelivers : ∀ event ∈ reads, event.Delivers) (hagain : againCount reads = 0)
    (hbytes : bytes ++ streamBytes reads = encode x) :
    responseBytes out opts fd reads d =
      (onReadreq out opts fd respbuf (requestIn x) d.state).map fun result => bytesOf result.1 := by
  obtain ⟨parsed, hreceive⟩ :=
    receive_alone hx h.nextoff hdelivers hagain (h.received ▸ hbytes)
  unfold responseBytes readreq
  rw [h.msgbuf_eq, h.respbuf_eq]
  simp only [Option.bind_eq_bind, Option.bind_some, hreceive]
  cases onReadreq out opts fd respbuf (requestIn x) d.state with
  | none => rfl
  | some result => exact congrArg some (sendResponse_fst result.1 parsed)

def ManifestMissing (out : Outside World) (x : Bytes) (world : World) : Prop :=
  ∃ req, requestIn x = .request req ∧ AsksManifest req ∧ (out.manifest world).1 = none

theorem responses_same (hx : (encode x).length < dflMaxmsgsz)
    {d' : Daemon World} {reads' : List ReadEvent} (h : Serving out opts fd x d reads)
    (h' : Serving out opts fd x d' reads') (hglobals : SameGlobals d.state d'.state)
    (hmanifest : ¬ ManifestMissing out x d.state.world) :
    responseBytes out opts fd reads d = responseBytes out opts fd reads' d' := by
  obtain ⟨bytes, hreceiving, hbytes⟩ := h.receiving
  obtain ⟨bytes', hreceiving', hbytes'⟩ := h'.receiving
  obtain ⟨msg, respbuf, hholding⟩ := hreceiving.holding
  obtain ⟨msg', respbuf', hholding'⟩ := hreceiving'.holding
  rw [responseBytes_eq hx hholding h.delivers h.again hbytes,
    responseBytes_eq hx hholding' h'.delivers h'.again hbytes']
  have hsame : (onReadreq out opts fd respbuf (requestIn x) d.state).map Prod.fst =
      (onReadreq out opts fd respbuf' (requestIn x) d'.state).map Prod.fst := by
    cases hrequest : requestIn x with
    | again => rfl
    | failure => rfl
    | malformed => rfl
    | request req =>
      exact onRequest_congr hglobals (hholding.empty.trans hholding'.empty.symm) fd
        fun hasks hnone => hmanifest ⟨req, hrequest, hasks, hnone⟩
  have hbytesOf := congrArg (Option.map bytesOf) hsame
  rwa [Option.map_map, Option.map_map] at hbytesOf

/-! A manifest that is not there shows the text of the client before -/

theorem printInt_ne_zero (n : ℤ) : ∀ byte ∈ printInt n, byte ≠ 0 := by
  have hdigits : ∀ byte ∈ Library.Decimal.numeral n.natAbs, byte ≠ 0 := by
    rintro byte hbyte rfl
    exact absurd (Library.Decimal.isDigit_of_mem_numeral _ _ hbyte) (by decide)
  unfold printInt
  split
  · rw [List.forall_mem_cons]
    exact ⟨by decide, hdigits⟩
  · exact hdigits

theorem printInt_ne_nil (n : ℤ) : printInt n ≠ [] := by
  unfold printInt
  split
  · exact List.cons_ne_nil _ _
  · exact Library.Decimal.numeral_ne_nil _

def pidsBody (ids : Bytes) : Bytes := (reqMembers 0 (ascii "pids") ids [] []).body

variable {ids : Bytes}

theorem pidsBody_eq (hids : ids ≠ []) : pidsBody ids =
    encode (ascii "action") ++ encode (ascii "pids") ++ (encode (ascii "id") ++ encode ids) := by
  have haction : ascii "pids" ≠ [] := by decide
  simp [pidsBody, reqMembers, Members.body, payload, dataPayload, longPayload, hids, haction]

theorem length_pidsBody_le (hids : ids ≠ []) :
    (encode (pidsBody ids)).length ≤ 75 + 4 * ids.length := by
  have hbody := length_encode_le (pidsBody ids)
  have haction := length_encode_le (ascii "action")
  have hpids := length_encode_le (ascii "pids")
  have hid := length_encode_le (ascii "id")
  have hlist := length_encode_le ids
  have hlengths : (ascii "action").length = 6 ∧ (ascii "pids").length = 4 ∧
      (ascii "id").length = 2 := by decide
  have hsum : (pidsBody ids).length = (encode (ascii "action")).length +
      (encode (ascii "pids")).length + ((encode (ascii "id")).length + (encode ids).length) := by
    rw [pidsBody_eq hids, List.length_append, List.length_append, List.length_append]
  omega

theorem onRequest_pids (fd : ℤ) (respbuf : Buf) (hids : cstring ids ≠ [])
    (s : State World) :
    onRequest out opts fd respbuf ⟨0, some (ascii "pids"), some ids, none, none⟩ s =
      some (writeOkResponse (appendJobPids s.jobs respbuf ids).data,
        setRespbuf fd (appendJobPids s.jobs respbuf ids) s) := by
  have hid : ¬ IsEmpty (some ids) := hids
  unfold onRequest onIdAction
  dsimp only
  rw [if_neg (by decide), if_neg (by decide), if_neg (by decide), if_neg (by decide),
    if_neg (by decide), if_neg hid, if_neg (by decide), if_pos (by decide)]
  rfl

theorem onRequest_manifest (fd : ℤ) (respbuf : Buf) {req : KnegdReq} (h : AsksManifest req)
    {s : State World} (hmissing : (out.manifest s.world).1 = none) :
    (onRequest out opts fd respbuf req s).map Prod.fst =
      some (writeOkResponse respbuf.data) := by
  have hstart : ¬ strEq req.action "start" := by
    intro hstart
    have hequal := (strcmp_eq_zero_iff.mp h.action).symm.trans (strcmp_eq_zero_iff.mp hstart)
    exact absurd hequal (by decide)
  have hempty : ¬ IsEmpty req.action := by
    intro hempty
    have hequal := (strcmp_eq_zero_iff.mp h.action).symm.trans hempty
    exact absurd hequal (by decide)
  unfold onRequest
  rw [if_neg hempty, if_neg h.executable, if_neg hstart, if_pos h.action]
  unfold loadManifest
  cases hfile : out.manifest s.world with
  | mk found world =>
    rw [hfile] at hmissing
    subst hmissing
    rfl

theorem sameGlobals_readable (fd : ℤ) (d : Daemon World) :
    SameGlobals d.state (readable fd d).state := by
  unfold readable kngOnReadable
  split <;> exact ⟨rfl, rfl, rfl⟩

theorem readable_step {fd : ℤ} {d : Daemon World} (hfree : d.reading fd = false) :
    DaemonStep out opts d (.readable fd) (readable fd d) := by
  refine ⟨0, none, ?_⟩
  simp [daemonStep, hfree]

theorem encode_delivers (x : Bytes) : ∀ event ∈ [ReadEvent.data (encode x)], event.Delivers := by
  intro event hevent
  obtain rfl := List.mem_singleton.mp hevent
  exact encode_ne_nil x

theorem requestIn_pidsBody {ids : Bytes} (hne : ids ≠ []) (hshort : ids.length < 1000) :
    requestIn (pidsBody ids) = .request ⟨0, some (ascii "pids"), some ids, none, none⟩ := by
  have hlength := length_pidsBody_le hne
  have hbody := requestIn_body 0 (ascii "pids") ids [] [] (by
    change (encode (pidsBody ids)).length < 2 ^ 64 - 1
    omega)
  rw [show pidsBody ids = (reqMembers 0 (ascii "pids") ids [] []).body from rfl, hbody]
  have haction : ascii "pids" ≠ [] := by decide
  simp [dataPayload, hne, haction]

theorem pids_client {d : Daemon World} (hreached : Reached out opts d) {fd : ℤ}
    (hfree : d.reading fd = false) {ids : Bytes} (hids : cstring ids ≠ [])
    (hshort : ids.length < 1000) :
    ∃ after empty, Reached out opts after ∧ after.reading fd = false ∧
      SameGlobals d.state after.state ∧ Buf.contents empty = [] ∧
      after.state.respbufs fd = some (appendJobPids d.state.jobs empty ids) := by
  have hne : ids ≠ [] := by
    rintro rfl
    exact hids rfl
  have hlength := length_pidsBody_le hne
  have hmax : dflMaxmsgsz = 1024 * 1024 := rfl
  obtain ⟨msg, empty, hholding⟩ := holding_readable fd d
  have hglobals := sameGlobals_readable fd d
  obtain ⟨parsed, hreceive⟩ := @receive_alone (pidsBody ids) (by omega) msg hholding.nextoff
    [.data (encode (pidsBody ids))] (encode_delivers _) rfl
    (by rw [hholding.received]; exact List.append_nil _)
  have hrequest := requestIn_pidsBody hne hshort
  set response := writeOkResponse (appendJobPids d.state.jobs empty ids).data with hresponse
  have hread : readreq out opts fd [.data (encode (pidsBody ids))] (readable fd d) =
      some ((sendResponse response parsed).1,
        { state := setRespbuf fd (appendJobPids d.state.jobs empty ids) (readable fd d).state
          msgbufs := Function.update (readable fd d).msgbufs fd
            (some (sendResponse response parsed).2)
          reading := Function.update (readable fd d).reading fd false }) := by
    unfold readreq
    rw [hholding.msgbuf_eq, hholding.respbuf_eq]
    simp only [Option.bind_eq_bind, Option.bind_some, hreceive, hrequest, onReadreq,
      onRequest_pids fd empty hids, ← hglobals.jobs_eq]
    rfl
  have hstep : DaemonStep out opts (readable fd d) (.readreq fd [.data (encode (pidsBody ids))])
      { state := setRespbuf fd (appendJobPids d.state.jobs empty ids) (readable fd d).state
        msgbufs := Function.update (readable fd d).msgbufs fd
          (some (sendResponse response parsed).2)
        reading := Function.update (readable fd d).reading fd false } := by
    refine ⟨0, (sendResponse response parsed).1, ?_⟩
    simp only [daemonStep]
    rw [if_pos hholding.reading]
    exact hread
  exact ⟨_, empty, .step (.step hreached trivial (readable_step hfree)) trivial hstep,
    Function.update_self fd _ _, ⟨hglobals.jobs_eq, hglobals.kngq_eq, hglobals.world_eq⟩,
    hholding.empty, Function.update_self fd _ _⟩

theorem stale_response (hreached : Reached out opts d)
    (hfree : d.reading fd = false) (hrespbuf : d.state.respbufs fd = some respbuf)
    (hx : (encode x).length < dflMaxmsgsz)
    (hmissing : ManifestMissing out x d.state.world) :
    Serving out opts fd x (readable fd d) [.data (encode x)] ∧
      responseBytes out opts fd [.data (encode x)] (readable fd d) =
        some (bytesOf (some (.ok (cstring respbuf.data)))) := by
  have hbytes : [] ++ streamBytes [ReadEvent.data (encode x)] = encode x := List.append_nil _
  have hreceiving := Receiving.accepted hreached (@readable_step _ out opts fd d hfree)
  refine ⟨⟨⟨[], hreceiving, hbytes⟩, encode_delivers x, rfl⟩, ?_⟩
  obtain ⟨msg, cleared, hholding⟩ := holding_readable fd d
  have hcleared : cleared = respbuf.clear := by
    have heq := hholding.respbuf_eq
    unfold readable kngOnReadable at heq
    rw [hrespbuf] at heq
    exact (Option.some.inj ((Function.update_self fd _ _).symm.trans heq)).symm
  obtain ⟨req, hrequest, hasks, hnone⟩ := hmissing
  rw [(sameGlobals_readable fd d).world_eq] at hnone
  have hanswer := @onRequest_manifest _ out opts fd cleared req hasks (readable fd d).state hnone
  rw [responseBytes_eq hx hholding (encode_delivers x) rfl hbytes, hrequest]
  have hmapped := congrArg (Option.map bytesOf) hanswer
  rw [Option.map_map] at hmapped
  rw [hcleared] at hmapped ⊢
  exact hmapped

theorem bytesOf_ok_ne {text text' : Bytes} (htext : text ≠ []) (hlonger : text.length < text'.length) :
    bytesOf (some (.ok text)) ≠ bytesOf (some (.ok text')) := by
  have htext' : text' ≠ [] := by
    rintro rfl
    exact absurd hlonger (Nat.not_lt_zero _)
  have hbody : ∀ {okmsg : Bytes}, okmsg ≠ [] →
      (membersOf (.ok okmsg)).body = encode (ascii "okmsg") ++ encode okmsg := by
    intro okmsg hne
    simp [membersOf, Members.body, payload, dataPayload, hne]
  have hlt : (encode (membersOf (.ok text)).body).length <
      (encode (membersOf (.ok text')).body).length := by
    apply length_encode_lt
    rw [hbody htext, hbody htext', List.length_append, List.length_append]
    exact Nat.add_lt_add_left (length_encode_lt hlonger) _
  intro heq
  exact hlt.ne (congrArg List.length (Option.some.inj heq))

theorem contents_appendJobPids {empty : Buf} (hempty : empty.contents = []) (jobs : List KngJob) :
    (appendJobPids jobs empty [97]).contents = printInt (jobsPid jobs [97]) ++ [0] ∧
      (appendJobPids jobs empty [97, 0, 97]).contents =
        printInt (jobsPid jobs [97, 0, 97]) ++ 32 :: printInt (jobsPid jobs [97]) ++ [0] := by
  have hlen : empty.len = 0 := by rw [← Buf.length_contents, hempty]; rfl
  have hfirst : separate empty = empty := if_neg (by omega)
  have hone : Str.fields [97] [0] = [[97]] := by decide
  have htwo : Str.fields [97, 0, 97] [0] = [[97, 0, 97], [97]] := by decide
  constructor
  · rw [appendJobPids_fold, hone, List.foldl_cons, List.foldl_nil, hfirst, Buf.contents_achar,
      Buf.contents_adata, hempty, List.nil_append]
  · have hsecond : ∀ text, text ≠ [] → (separate (empty.adata text)).contents = text ++ [32] := by
      intro text htext
      have hpos := List.length_pos_iff.mpr htext
      unfold separate
      rw [if_pos (by rw [Buf.len_adata]; omega), Buf.contents_achar, Buf.contents_adata, hempty]
      rfl
    rw [appendJobPids_fold, htwo, List.foldl_cons, List.foldl_cons, List.foldl_nil, hfirst,
      Buf.contents_achar, Buf.contents_adata, hsecond _ (printInt_ne_nil _), List.append_assoc _ [32]]
    rfl

theorem responses_differ {d : Daemon World} (hreached : Reached out opts d) {fd : ℤ}
    (hfree : d.reading fd = false) {x : Bytes} (hx : (encode x).length < dflMaxmsgsz)
    (hmissing : ManifestMissing out x d.state.world) :
    ∃ d₁ d₂ reads, Serving out opts fd x d₁ reads ∧ Serving out opts fd x d₂ reads ∧
      SameGlobals d.state d₁.state ∧ SameGlobals d.state d₂.state ∧
      responseBytes out opts fd reads d₁ ≠ responseBytes out opts fd reads d₂ := by
  obtain ⟨d₁, empty₁, hreached₁, hfree₁, hglobals₁, hempty₁, hrespbuf₁⟩ :=
    @pids_client _ out opts d hreached fd hfree [97] (by decide) (by decide)
  obtain ⟨d₂, empty₂, hreached₂, hfree₂, hglobals₂, hempty₂, hrespbuf₂⟩ :=
    @pids_client _ out opts d hreached fd hfree [97, 0, 97] (by decide) (by decide)
  obtain ⟨hserving₁, hbytes₁⟩ := stale_response hreached₁ hfree₁ hrespbuf₁ hx
    (hglobals₁.world_eq ▸ hmissing)
  obtain ⟨hserving₂, hbytes₂⟩ := stale_response hreached₂ hfree₂ hrespbuf₂ hx
    (hglobals₂.world_eq ▸ hmissing)
  have hreadable₁ := sameGlobals_readable fd d₁
  have hreadable₂ := sameGlobals_readable fd d₂
  refine ⟨readable fd d₁, readable fd d₂, _, hserving₁, hserving₂,
    ⟨hglobals₁.jobs_eq.trans hreadable₁.jobs_eq, hglobals₁.kngq_eq.trans hreadable₁.kngq_eq,
      hglobals₁.world_eq.trans hreadable₁.world_eq⟩,
    ⟨hglobals₂.jobs_eq.trans hreadable₂.jobs_eq, hglobals₂.kngq_eq.trans hreadable₂.kngq_eq,
      hglobals₂.world_eq.trans hreadable₂.world_eq⟩, ?_⟩
  have hone := (contents_appendJobPids hempty₁ d.state.jobs).1
  have htwo := (contents_appendJobPids hempty₂ d.state.jobs).2
  rw [hbytes₁, hbytes₂, cstring_data (by rw [hone]; simp), cstring_data (by rw [htwo]; simp), hone,
    htwo, cstring_append_zero, cstring_append_zero, cstring_of_ne_zero (printInt_ne_zero _),
    cstring_of_ne_zero]
  · intro heq
    refine bytesOf_ok_ne (printInt_ne_nil _) ?_ (Option.some.inj heq)
    rw [List.length_append, List.length_cons]
    omega
  · rw [List.forall_mem_append, List.forall_mem_cons]
    exact ⟨printInt_ne_zero _, by decide, printInt_ne_zero _⟩

/-- Whatever earlier clients did, the response to a request is the same in the
same state of the jobs and the queue, except for a request of the manifest when
there is none. -/
theorem responses_equal_iff {d : Daemon World} (hreached : Reached out opts d) {fd : ℤ}
    (hfree : d.reading fd = false) {x : Bytes} (hx : (encode x).length < dflMaxmsgsz) :
    (∀ d₁ d₂ reads₁ reads₂, Serving out opts fd x d₁ reads₁ → Serving out opts fd x d₂ reads₂ →
        SameGlobals d.state d₁.state → SameGlobals d.state d₂.state →
          responseBytes out opts fd reads₁ d₁ = responseBytes out opts fd reads₂ d₂) ↔
      ¬ ManifestMissing out x d.state.world := by
  constructor
  · intro hequal hmissing
    obtain ⟨d₁, d₂, reads, hserving₁, hserving₂, hglobals₁, hglobals₂, hne⟩ :=
      responses_differ hreached hfree hx hmissing
    exact hne (hequal d₁ d₂ reads reads hserving₁ hserving₂ hglobals₁ hglobals₂)
  · intro hmanifest d₁ d₂ reads₁ reads₂ hserving₁ hserving₂ hglobals₁ hglobals₂
    have hglobals : SameGlobals d₁.state d₂.state :=
      ⟨hglobals₁.jobs_eq.symm.trans hglobals₂.jobs_eq,
        hglobals₁.kngq_eq.symm.trans hglobals₂.kngq_eq,
        hglobals₁.world_eq.symm.trans hglobals₂.world_eq⟩
    exact responses_same hx hserving₁ hserving₂ hglobals (hglobals₁.world_eq ▸ hmanifest)

def sampleDaemon : Daemon (Finset ℤ × List KnegdReq) where
  state := sampleInitial
  msgbufs := fun _ => none
  reading := fun _ => false

theorem sampleDaemon_reached : Reached sampleOutside sampleOpts sampleDaemon :=
  .initial ⟨⟨2, (∅, []), rfl⟩, rfl, rfl⟩

/-- A client that asks for pids is answered in the same way after another one that left its
answer in the buffer. -/
theorem responses_equal_iff_pids : ∃ d respbuf, Reached sampleOutside sampleOpts d ∧
    d.state.respbufs 5 = some respbuf ∧ respbuf.contents ≠ [] ∧
    ∀ d₁ d₂ reads₁ reads₂, Serving sampleOutside sampleOpts 5 (pidsBody [97]) d₁ reads₁ →
      Serving sampleOutside sampleOpts 5 (pidsBody [97]) d₂ reads₂ →
        SameGlobals d.state d₁.state → SameGlobals d.state d₂.state →
          responseBytes sampleOutside sampleOpts 5 reads₁ d₁ =
            responseBytes sampleOutside sampleOpts 5 reads₂ d₂ := by
  obtain ⟨d, empty, hreached, hfree, -, hempty, hrespbuf⟩ :=
    @pids_client _ _ _ _ sampleDaemon_reached 5 rfl [97] (by decide) (by decide)
  have hlength := (length_pidsBody_le (List.cons_ne_nil 97 [])).trans_lt
    (show _ < dflMaxmsgsz by decide)
  have hmanifest : ¬ ManifestMissing sampleOutside (pidsBody [97]) d.state.world := by
    rintro ⟨req, hrequest, hasks, -⟩
    have hpids := requestIn_pidsBody (List.cons_ne_nil 97 []) (by decide)
    obtain rfl := Received.request.inj (hpids.symm.trans hrequest)
    exact absurd hasks.action (by decide)
  refine ⟨d, _, hreached, hrespbuf, ?_, (responses_equal_iff hreached hfree hlength).mpr hmanifest⟩
  rw [(contents_appendJobPids hempty _).1]
  simp

/-- The action `manifest` and nothing else. -/
def manifestBody : Bytes := (reqMembers 0 (ascii "manifest") [] [] []).body

theorem manifest_leaks :
    ¬ ∀ d₁ d₂ reads₁ reads₂, Serving sampleOutside sampleOpts 5 manifestBody d₁ reads₁ →
      Serving sampleOutside sampleOpts 5 manifestBody d₂ reads₂ →
        SameGlobals sampleDaemon.state d₁.state → SameGlobals sampleDaemon.state d₂.state →
          responseBytes sampleOutside sampleOpts 5 reads₁ d₁ =
            responseBytes sampleOutside sampleOpts 5 reads₂ d₂ := by
  have hbody : manifestBody = encode (ascii "action") ++ encode (ascii "manifest") := by
    have haction : ascii "manifest" ≠ [] := by decide
    simp [manifestBody, reqMembers, Members.body, payload, dataPayload, longPayload, haction]
  have hlength : (encode manifestBody).length ≤ 71 := by
    have haction := length_encode_le (ascii "action")
    have hmanifest := length_encode_le (ascii "manifest")
    have hlengths : (ascii "action").length = 6 ∧ (ascii "manifest").length = 8 := by decide
    have hencode := length_encode_le manifestBody
    have hsum := congrArg List.length hbody
    rw [List.length_append] at hsum
    omega
  have hsmall : (71 : ℕ) < dflMaxmsgsz ∧ (71 : ℕ) < 2 ^ 64 - 1 := by decide
  have hrequest := requestIn_body 0 (ascii "manifest") [] [] [] (hlength.trans_lt hsmall.2)
  have hmissing : ManifestMissing sampleOutside manifestBody sampleDaemon.state.world :=
    ⟨_, hrequest, ⟨by decide, by decide⟩, rfl⟩
  obtain ⟨d₁, d₂, reads, hserving₁, hserving₂, hglobals₁, hglobals₂, hne⟩ :=
    @responses_differ _ sampleOutside sampleOpts _ sampleDaemon_reached 5 rfl _
      (hlength.trans_lt hsmall.1) hmissing
  intro hequal
  exact hne (hequal d₁ d₂ reads reads hserving₁ hserving₂ hglobals₁ hglobals₂)

end Yans.Apps.Knegd
