import Yans.Net.FcgiRecords

/-! Whole requests. However the bytes of its records come, a request is read as if
it were put together from one record after the other. -/
namespace Yans.Net.Fcgi

open Library.Memory Util

structure Request where
  id : ℕ
  paramState : ParamState
  params : Bytes
  body : Bytes

def Request.setting (request : Request) : Setting := ⟨request.id, request.paramState⟩

instance (setting : Setting) (record : Record) : Decidable (setting.Ignores record) :=
  inferInstanceAs (Decidable (_ ∧ _))

abbrev Reading := Except FcgiErr (Request × List Record)

def paramsOf (request : Request) : List Record → Reading
  | [] => if request.paramState = .done then .ok (request, []) else .error .closed
  | record :: records =>
    match request.paramState with
    | .done => .ok (request, record :: records)
    | .expectBeginRequest =>
      if record.t ≠ fcgiBeginRequest then .error .unexpectedmsg
      else paramsOf { request with id := record.id, paramState := .expectParams } records
    | .expectParams =>
      if request.setting.Ignores record then paramsOf request records
      else if record.t ≠ fcgiParams then .error .unexpectedmsg
      else if record.content.length = 0 then .ok ({ request with paramState := .done }, records)
      else if request.params.length + record.content.length > maxParamsz then .error .paramsize
      else paramsOf { request with params := request.params ++ record.content } records

def bodyOf (request : Request) : List Record → Reading
  | [] => .error .closed
  | record :: records =>
    if request.setting.Ignores record then bodyOf request records
    else if record.t ≠ fcgiStdin then .error .unexpectedmsg
    else if record.content.length = 0 then .ok (request, records)
    else if request.body.length + record.content.length > maxBodysz then .error .bodysize
    else bodyOf { request with body := request.body ++ record.content } records

def requestOf (request : Request) (records : List Record) : Reading :=
  paramsOf request records >>= fun found => bodyOf found.1 found.2

/-- A call for a request, and more calls as long as nothing else comes of them. -/
def readCalls (call : FcgiCli → FcgiResult × FcgiCli) : ℕ → FcgiCli → FcgiResult × FcgiCli
  | 0, fcgi => call fcgi
  | n + 1, fcgi =>
    match call fcgi with
    | (.again, after) => readCalls call n after
    | stopped => stopped

structure Holds (fcgi : FcgiCli) (request : Request) : Prop where
  setting_eq : fcgi.setting = request.setting
  params_eq : fcgi.params.contents = request.params
  body_eq : fcgi.body.contents = request.body

/-! Looking for a record leaves alone what has been read of the request -/

def FcgiCli.kept (fcgi : FcgiCli) : Setting × Buf × Buf := (fcgi.setting, fcgi.params, fcgi.body)

theorem receive_kept (fcgi : FcgiCli) : (receive fcgi).2.kept = fcgi.kept := by
  unfold receive
  dsimp only
  split
  · rfl
  · split <;> rfl

theorem advance_kept (fcgi : FcgiCli) : (advance fcgi).2.kept = fcgi.kept := by
  unfold advance
  split
  · exact receive_kept fcgi
  · split
    · rfl
    · dsimp only
      split
      · split
        · rfl
        · exact receive_kept _
      · exact receive_kept _

theorem readmsg_kept (fcgi : FcgiCli) : (fcgiCliReadmsg fcgi).2.kept = fcgi.kept := by
  fun_induction fcgiCliReadmsg fcgi with
  | case1 fcgi after hadvance hignores ih => rw [ih, ← advance_kept fcgi, hadvance]
  | case2 fcgi after hadvance hkept => rw [← advance_kept fcgi, hadvance]
  | case3 fcgi hstopped => exact advance_kept fcgi

variable {fcgi after : FcgiCli} {request next : Request} {left rest : List Record}
  {result : FcgiResult} {blocks more : ℕ}
  {spec : Request → List Record → Reading}

theorem Holds.readmsg (h : Holds fcgi request) (hrun : fcgiCliReadmsg fcgi = (result, after)) :
    Holds after request := by
  have hkept := readmsg_kept fcgi
  rw [hrun] at hkept
  obtain ⟨hsetting, hparams, hbody⟩ : after.setting = fcgi.setting ∧ after.params = fcgi.params ∧
      after.body = fcgi.body := by simpa [FcgiCli.kept] using hkept
  exact ⟨hsetting.trans h.setting_eq, hparams ▸ h.params_eq, hbody ▸ h.body_eq⟩

theorem Pending.congr (h : Pending fcgi left) (hbuf : after.buf = fcgi.buf)
    (hio : after.io = fcgi.io) (hstate : after.readState = fcgi.readState) :
    Pending after left := by
  have hbehind : ∀ {shown}, Behind fcgi shown left → Behind after shown left := by
    intro shown hbehind
    refine ⟨?_, ?_⟩
    · rw [hbuf, hio]
      exact hbehind.bytes
    · rw [hio]
      exact hbehind.delivers
  unfold Pending at h ⊢
  rw [hstate]
  split at h
  · exact hbehind h
  · obtain ⟨record, h⟩ := h
    exact ⟨record, hbehind h⟩

/-- How a call ends that reads what `spec` finds in the records: with that, or with
the error, or it is to be made again for what is left. -/
inductive Called (spec : Request → List Record → Reading) (blocks : ℕ)
    (request : Request) (left : List Record) : FcgiResult → FcgiCli → Prop where
  | ok {after : FcgiCli} {next : Request} {rest : List Record} (holds : Holds after next)
      (pending : Pending after rest) (found : spec request left = .ok (next, rest))
      (again_le : againCount after.io.events ≤ blocks) : Called spec blocks request left .ok after
  | again {after : FcgiCli} {next : Request} {rest : List Record} (holds : Holds after next)
      (pending : Pending after rest) (same : spec request left = spec next rest)
      (done : request.paramState = .done → next.paramState = .done)
      (again_lt : againCount after.io.events < blocks) :
      Called spec blocks request left .again after
  | err {after : FcgiCli} {err : FcgiErr} (errcode_eq : after.errcode = some err)
      (failed : spec request left = .error err) : Called spec blocks request left .err after

theorem Called.of_more (h : Called spec blocks next rest result after)
    (hsame : spec request left = spec next rest)
    (hdone : request.paramState = .done → next.paramState = .done) (hmore : blocks ≤ more) :
    Called spec more request left result after := by
  cases h with
  | ok holds pending found again_le =>
    exact .ok holds pending (hsame.trans found) (again_le.trans hmore)
  | again holds pending same done again_lt =>
    exact .again holds pending (hsame.trans same) (fun h => done (hdone h))
      (again_lt.trans_le hmore)
  | err errcode_eq failed => exact .err errcode_eq (hsame.trans failed)

/-- The record that `fcgi_cli_readmsg` has found for a request. -/
structure Found (fcgi : FcgiCli) (request : Request) (record : Record) (rest : List Record) :
    Prop where
  holds : Holds fcgi request
  pending : Pending fcgi rest
  wanted : ¬ request.setting.Ignores record
  t_eq : (readMsg fcgi.buf.contents).header.t = record.t
  id_eq : (readMsg fcgi.buf.contents).header.id = record.id
  clen_eq : (readMsg fcgi.buf.contents).header.clen = record.content.length
  data_eq : (readMsg fcgi.buf.contents).data = record.content

theorem readmsg_cases (holds : Holds fcgi request) (pending : Pending fcgi left)
    (hskip : ∀ {record rest}, request.setting.Ignores record →
      spec request (record :: rest) = spec request rest)
    (hnil : spec request [] = .error .closed) (hrun : fcgiCliReadmsg fcgi = (result, after)) :
    (∃ record rest, result = .ok ∧ Found after request record rest ∧
      spec request left = spec request (record :: rest) ∧
      againCount after.io.events ≤ againCount fcgi.io.events) ∨
    result ≠ .ok ∧ Called spec (againCount fcgi.io.events) request left result after := by
  have hholds := holds.readmsg hrun
  have hreceived := readmsg_spec _ rfl pending hrun
  rw [holds.setting_eq] at hreceived
  have hskips : ∀ {skipped rest}, (∀ other ∈ skipped, request.setting.Ignores other) →
      spec request (skipped ++ rest) = spec request rest := by
    intro skipped rest hignored
    induction skipped with
    | nil => rfl
    | cons other skipped ih =>
      rw [List.forall_mem_cons] at hignored
      exact (hskip hignored.1).trans (ih hignored.2)
  cases hreceived with
  | @record _ skipped left record ignored wanted behind complete again_le =>
    obtain ⟨rest, hcontents, -⟩ := behind.bytes
    have hmsg : readMsg after.buf.contents = record.msg := by
      rw [hcontents]
      apply Record.readMsg_encode
    have pending := pending_complete behind complete
    refine .inl ⟨record, left, rfl, ⟨hholds, pending, wanted, ?_, ?_, ?_, ?_⟩, hskips ignored,
      again_le⟩
    · rw [hmsg]
      rfl
    · rw [hmsg]
      rfl
    · rw [hmsg]
      exact record.clen_header
    · rw [hmsg]
      rfl
  | again ignored behind incomplete again_lt =>
    exact .inr ⟨by simp, .again hholds (pending_incomplete behind incomplete) (hskips ignored) id
      again_lt⟩
  | closed ignored behind incomplete errcode_eq again_le =>
    refine .inr ⟨by simp, .err errcode_eq ?_⟩
    have hends := @hskips _ [] ignored
    rw [List.append_nil] at hends
    exact hends.trans hnil

/-- The induction is on the work that is left for the reader. -/
theorem readparamsLoop_spec (work : ℕ) : ∀ {fcgi after : FcgiCli} {request : Request}
    {left : List Record} {result : FcgiResult}, fcgi.work = work → Holds fcgi request →
    request.paramState ≠ .done → Pending fcgi left → readparamsLoop fcgi = (result, after) →
    Called paramsOf (againCount fcgi.io.events) request left result after := by
  induction work using Nat.strongRecOn with
  | _ work ih =>
    intro fcgi after request left result hwork holds hdone pending hrun
    rw [readparamsLoop] at hrun
    obtain ⟨ret, mid, hreadmsg⟩ : ∃ ret mid, fcgiCliReadmsg fcgi = (ret, mid) := ⟨_, _, rfl⟩
    have hless := @fcgiCliReadmsg_work fcgi mid
    rw [hreadmsg] at hrun hless
    have hskip : ∀ {record rest}, request.setting.Ignores record →
        paramsOf request (record :: rest) = paramsOf request rest := by
      intro record rest hignored
      cases hphase : request.paramState with
      | done => exact absurd hphase hdone
      | expectBeginRequest => exact absurd hphase hignored.1
      | expectParams => simp only [paramsOf, hphase, if_pos hignored]
    have hnil : paramsOf request [] = .error .closed := by rw [paramsOf, if_neg hdone]
    obtain ⟨record, rest, rfl, found, hsame, hmore⟩ | ⟨hok, hcalled⟩ :=
      readmsg_cases holds pending hskip hnil hreadmsg
    · have hid : mid.id = request.id := congrArg Setting.id found.holds.setting_eq
      have hstate : mid.paramState = request.paramState :=
        congrArg Setting.paramState found.holds.setting_eq
      have hlen : mid.params.len = request.params.length := by
        rw [← Buf.length_contents, found.holds.params_eq]
      dsimp only at hrun
      rw [found.t_eq, found.id_eq, found.clen_eq, found.data_eq, hstate, hlen] at hrun
      cases hphase : request.paramState with
      | done => exact absurd hphase hdone
      | expectBeginRequest =>
        simp only [paramsOf, hphase] at hsame hrun
        split at hrun
        · rename_i hother
          cases hrun
          exact .err rfl (hsame.trans (if_pos hother))
        · rename_i hother
          have hnext := @ih mid.work (hwork ▸ hless rfl) (mid.set ⟨record.id, .expectParams⟩) after
            { request with id := record.id, paramState := .expectParams } rest result rfl
            ⟨rfl, found.holds.params_eq, found.holds.body_eq⟩ (by simp) (found.pending.set _) hrun
          exact hnext.of_more (hsame.trans (if_neg hother)) (fun h => absurd h hdone) hmore
      | expectParams =>
        simp only [paramsOf, hphase, if_neg found.wanted] at hsame hrun
        split at hrun
        · rename_i hother
          cases hrun
          exact .err rfl (hsame.trans (if_pos hother))
        · rename_i hother
          rw [if_neg hother] at hsame
          split at hrun
          · rename_i hlast
            cases hrun
            refine @Called.ok _ _ _ _ (mid.set ⟨mid.id, .done⟩) { request with paramState := .done }
              rest ⟨?_, found.holds.params_eq, found.holds.body_eq⟩ (found.pending.set _)
              (hsame.trans (if_pos hlast)) hmore
            exact congrArg (Setting.mk · .done) hid
          · rename_i hlast
            rw [if_neg hlast] at hsame
            split at hrun
            · rename_i hlarge
              cases hrun
              exact .err rfl (hsame.trans (if_pos hlarge))
            · rename_i hlarge
              have hnext := @ih mid.work (hwork ▸ hless rfl)
                { mid with
                  params := mid.params.adata record.content, paramState := .expectParams } after
                { request with
                  params := request.params ++ record.content, paramState := .expectParams } rest
                result rfl ⟨?_, ?_, found.holds.body_eq⟩ (by simp)
                (found.pending.congr rfl rfl rfl) hrun
              · exact hnext.of_more (hsame.trans (if_neg hlarge)) (fun h => absurd h hdone) hmore
              · exact congrArg (Setting.mk · .expectParams) hid
              · rw [Buf.contents_adata, found.holds.params_eq]
    · cases ret with
      | ok => exact absurd rfl hok
      | again | err | aborted =>
        cases hrun
        exact hcalled

/-- The induction is on the work that is left for the reader. -/
theorem readbody_spec (work : ℕ) : ∀ {fcgi after : FcgiCli} {request : Request}
    {left : List Record} {result : FcgiResult}, fcgi.work = work → Holds fcgi request →
    Pending fcgi left → fcgiCliReadbody fcgi = (result, after) →
    Called bodyOf (againCount fcgi.io.events) request left result after := by
  induction work using Nat.strongRecOn with
  | _ work ih =>
    intro fcgi after request left result hwork holds pending hrun
    rw [fcgiCliReadbody] at hrun
    obtain ⟨ret, mid, hreadmsg⟩ : ∃ ret mid, fcgiCliReadmsg fcgi = (ret, mid) := ⟨_, _, rfl⟩
    have hless := @fcgiCliReadmsg_work fcgi mid
    rw [hreadmsg] at hrun hless
    have hskip : ∀ {record rest}, request.setting.Ignores record →
        bodyOf request (record :: rest) = bodyOf request rest := by
      intro record rest hignored
      rw [bodyOf, if_pos hignored]
    obtain ⟨record, rest, rfl, found, hsame, hmore⟩ | ⟨hok, hcalled⟩ :=
      readmsg_cases holds pending hskip rfl hreadmsg
    · have hlen : mid.body.len = request.body.length := by
        rw [← Buf.length_contents, found.holds.body_eq]
      dsimp only at hrun
      rw [found.t_eq, found.clen_eq, found.data_eq, hlen] at hrun
      rw [bodyOf, if_neg found.wanted] at hsame
      split at hrun
      · rename_i hother
        cases hrun
        exact .err rfl (hsame.trans (if_pos hother))
      · rename_i hother
        rw [if_neg hother] at hsame
        split at hrun
        · rename_i hlast
          cases hrun
          exact .ok found.holds found.pending (hsame.trans (if_pos hlast)) hmore
        · rename_i hlast
          rw [if_neg hlast] at hsame
          split at hrun
          · rename_i hlarge
            cases hrun
            exact .err rfl (hsame.trans (if_pos hlarge))
          · rename_i hlarge
            have hnext := @ih mid.work (hwork ▸ hless rfl)
              { mid with body := mid.body.adata record.content } after
              { request with body := request.body ++ record.content } rest result rfl
              ⟨found.holds.setting_eq, found.holds.params_eq, ?_⟩
              (found.pending.congr rfl rfl rfl) hrun
            · exact hnext.of_more (hsame.trans (if_neg hlarge)) id hmore
            · rw [Buf.contents_adata, found.holds.body_eq]
    · cases ret with
      | ok => exact absurd rfl hok
      | again | err | aborted =>
        cases hrun
        exact hcalled

theorem paramsOf_of_done (hdone : request.paramState = .done) :
    paramsOf request left = .ok (request, left) := by
  cases left with
  | nil => rw [paramsOf, if_pos hdone]
  | cons record records => simp only [paramsOf, hdone]

/-- The induction is on the records. -/
theorem done_of_paramsOf : ∀ {request : Request} {left : List Record},
    paramsOf request left = .ok (next, rest) → next.paramState = .done := by
  intro request left hfound
  induction left generalizing request with
  | nil =>
    rw [paramsOf] at hfound
    split at hfound
    · rename_i hdone
      cases hfound
      exact hdone
    · cases hfound
  | cons record records ih =>
    rw [paramsOf] at hfound
    split at hfound
    · rename_i hdone
      cases hfound
      exact hdone
    · split at hfound
      · cases hfound
      · exact ih hfound
    · split at hfound
      · exact ih hfound
      · split at hfound
        · cases hfound
        · split at hfound
          · cases hfound
            rfl
          · split at hfound
            · cases hfound
            · exact ih hfound

theorem readparams_spec (holds : Holds fcgi request) (pending : Pending fcgi left)
    (hrun : fcgiCliReadparams fcgi = (result, after)) :
    Called paramsOf (againCount fcgi.io.events) request left result after := by
  have hstate : fcgi.paramState = request.paramState := congrArg Setting.paramState holds.setting_eq
  rw [fcgiCliReadparams, hstate] at hrun
  split at hrun
  · rename_i hdone
    cases hrun
    exact .ok holds pending (paramsOf_of_done hdone) le_rfl
  · rename_i hdone
    exact readparamsLoop_spec _ rfl holds hdone pending hrun

theorem requestOf_of_paramsOf (hfound : paramsOf request left = .ok (next, rest)) :
    requestOf request left = bodyOf next rest := by
  rw [requestOf, hfound]
  rfl

theorem Called.of_body (h : Called bodyOf blocks next rest result after)
    (hdone : next.paramState = .done) (hsame : requestOf request left = bodyOf next rest)
    (hmore : blocks ≤ more) : Called requestOf more request left result after := by
  cases h with
  | ok holds pending found again_le =>
    exact .ok holds pending (hsame.trans found) (again_le.trans hmore)
  | @again _ _ rest holds pending same done again_lt =>
    have hrest := requestOf_of_paramsOf (@paramsOf_of_done _ rest (done hdone))
    exact .again holds pending ((hsame.trans same).trans hrest.symm) (fun _ => done hdone)
      (again_lt.trans_le hmore)
  | err errcode_eq failed => exact .err errcode_eq (hsame.trans failed)

theorem readreq_spec (holds : Holds fcgi request) (pending : Pending fcgi left)
    (hrun : fcgiCliReadreq fcgi = (result, after)) :
    Called requestOf (againCount fcgi.io.events) request left result after := by
  have hstate : fcgi.paramState = request.paramState := congrArg Setting.paramState holds.setting_eq
  rw [fcgiCliReadreq, hstate] at hrun
  split at hrun
  · rename_i hdone
    exact (readbody_spec _ rfl holds pending hrun).of_body hdone
      (requestOf_of_paramsOf (paramsOf_of_done hdone)) le_rfl
  · obtain ⟨ret, mid, hparams⟩ : ∃ ret mid, fcgiCliReadparams fcgi = (ret, mid) := ⟨_, _, rfl⟩
    have hcalled := readparams_spec holds pending hparams
    rw [hparams] at hrun
    cases hcalled with
    | ok holds pending found again_le =>
      exact (readbody_spec _ rfl holds pending hrun).of_body (done_of_paramsOf found)
        (requestOf_of_paramsOf found) again_le
    | again holds pending same done again_lt =>
      cases hrun
      refine .again holds pending ?_ done again_lt
      rw [requestOf, same, requestOf]
    | err errcode_eq failed =>
      cases hrun
      refine .err errcode_eq ?_
      rw [requestOf, failed]
      rfl

def Reports (found : Reading) (called : FcgiResult × FcgiCli) : Prop :=
  match found with
  | .ok (request, left) => called.1 = .ok ∧ Holds called.2 request ∧ Pending called.2 left
  | .error err => called.1 = .err ∧ called.2.errcode = some err

theorem Called.reports (h : Called spec blocks request left result after)
    (hstops : result ≠ .again) : Reports (spec request left) (result, after) := by
  cases h with
  | ok holds pending found again_le =>
    rw [found]
    exact ⟨rfl, holds, pending⟩
  | again => exact absurd rfl hstops
  | err errcode_eq failed =>
    rw [failed]
    exact ⟨rfl, errcode_eq⟩

/-- The induction is on the would-block results that may still come. -/
theorem readCalls_spec {call : FcgiCli → FcgiResult × FcgiCli}
    (hcall : ∀ {fcgi after request left result}, Holds fcgi request → Pending fcgi left →
      call fcgi = (result, after) →
        Called spec (againCount fcgi.io.events) request left result after)
    (n : ℕ) : ∀ {fcgi : FcgiCli} {request : Request} {left : List Record}, Holds fcgi request →
      Pending fcgi left → againCount fcgi.io.events ≤ n →
      Reports (spec request left) (readCalls call n fcgi) := by
  induction n with
  | zero =>
    intro fcgi request left holds pending hcalls
    obtain ⟨result, after, hrun⟩ : ∃ result after, call fcgi = (result, after) := ⟨_, _, rfl⟩
    have hcalled := hcall holds pending hrun
    rw [readCalls, hrun]
    apply hcalled.reports
    rintro rfl
    cases hcalled with
    | again holds pending same done again_lt => omega
  | succ n ih =>
    intro fcgi request left holds pending hcalls
    obtain ⟨result, after, hrun⟩ : ∃ result after, call fcgi = (result, after) := ⟨_, _, rfl⟩
    have hcalled := hcall holds pending hrun
    rw [readCalls, hrun]
    cases result with
    | again =>
      cases hcalled with
      | again holds pending same done again_lt =>
        rw [same]
        exact ih holds pending (by omega)
    | ok | err | aborted => exact hcalled.reports (by simp)

/-- Whatever the records, and whatever the cuts and would-block results: the calls
find the request that the records make up, or the error they contain. -/
theorem request_read (records : List Record) (events : List ReadEvent)
    (hdelivers : ∀ event ∈ events, event.Delivers)
    (hstream : streamBytes events = encodings records) {n : ℕ} (hcalls : againCount events ≤ n) :
    Reports (paramsOf ⟨0, .expectBeginRequest, [], []⟩ records)
        (readCalls fcgiCliReadparams n (fcgiCliInit ⟨events, []⟩)) ∧
      Reports (requestOf ⟨0, .expectBeginRequest, [], []⟩ records)
        (readCalls fcgiCliReadreq n (fcgiCliInit ⟨events, []⟩)) := by
  have holds : Holds (fcgiCliInit ⟨events, []⟩) ⟨0, .expectBeginRequest, [], []⟩ :=
    ⟨rfl, Buf.contents_init _, Buf.contents_init _⟩
  have pending : Pending (fcgiCliInit ⟨events, []⟩) records :=
    pending_incomplete ⟨⟨[], Buf.contents_init _, hstream⟩, hdelivers⟩ rfl
  constructor
  · exact readCalls_spec readparams_spec n holds pending hcalls
  · exact readCalls_spec readreq_spec n holds pending hcalls

theorem request_read_sample :
    Reports (.ok (⟨256, .done, [], []⟩, []))
        (readCalls fcgiCliReadparams 2 (fcgiCliInit ⟨sampleEvents, []⟩)) ∧
      Reports (.error .closed) (readCalls fcgiCliReadreq 2 (fcgiCliInit ⟨sampleEvents, []⟩)) :=
  request_read [sampleBegin, sampleForeign, sampleParams] sampleEvents (by decide) (by decide)
    (by decide)

end Yans.Net.Fcgi
