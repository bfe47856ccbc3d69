import Yans.Apps.KnegdSlots

/-! The signals that the daemon sends to its jobs. A run carries what happened
so far, with the signals that were sent at each event; a job is the same one
until its process is reaped. -/
namespace Yans.Apps.Knegd

open Library.Memory Library.Strings Library.Runs Util

variable {World : Type} {out : Outside World} {opts : KngOpts}

/-! What an event does to the jobs -/

def Fresh (job : KngJob) : Prop := job.stopped = false ∧ job.sentSigterm = false

def Grows (s after : State World) : Prop :=
  after.signals = s.signals ∧ ∃ new, after.jobs = new ++ s.jobs ∧ ∀ job ∈ new, Fresh job

variable {after s : State World}

theorem Grows.of_eq (hjobs : after.jobs = s.jobs)
    (hsignals : after.signals = s.signals) : Grows s after :=
  ⟨hsignals, [], hjobs, List.forall_mem_nil _⟩

theorem Grows.trans {a b c : State World} (hab : Grows a b) (hbc : Grows b c) : Grows a c := by
  obtain ⟨hsignals, new, hjobs, hfresh⟩ := hab
  obtain ⟨hsignals', new', hjobs', hfresh'⟩ := hbc
  refine ⟨hsignals'.trans hsignals, new' ++ new, ?_, ?_⟩
  · rw [hjobs', hjobs, List.append_assoc]
  · intro job hjob
    exact (List.mem_append.mp hjob).elim (hfresh' job) (hfresh job)

variable {job : KngJob}

theorem fresh_jobNewEntered {type : Option Bytes} {okmsg : Bytes} {timeoutSec : ℤ}
    {world after : World}
    (h : jobNewEntered out opts type okmsg timeoutSec world = (.ok job, after)) : Fresh job := by
  unfold jobNewEntered at h
  split at h
  · cases h
  · dsimp only at h
    split at h
    · cases h
    · split at h
      · cases h
      · cases h
        exact ⟨rfl, rfl⟩

theorem fresh_jobNew {type id name : Option Bytes} {timeoutSec : ℤ} {world after : World}
    (h : jobNew out opts type id name timeoutSec world = (.ok job, after)) :
    Fresh job := by
  unfold jobNew at h
  split at h
  · cases h
  · split at h
    · cases h
    · split at h
      · cases h
      · split at h
        · cases h
        · exact fresh_jobNewEntered h

theorem grows_startKnegdJob (req : KnegdReq) (s : State World) :
    Grows s (startKnegdJob out opts req s).2 := by
  unfold startKnegdJob
  dsimp only
  split
  · exact .of_eq rfl rfl
  · rename_i job world hnew
    refine ⟨rfl, [job], rfl, ?_⟩
    rw [List.forall_mem_cons]
    exact ⟨fresh_jobNew hnew, List.forall_mem_nil _⟩

/-- The induction follows the rounds. -/
theorem grows_dispatchNJobs (rounds : ℕ) : ∀ {n : ℤ} {s after : State World},
    dispatchNJobs out opts rounds n s = some after → Grows s after := by
  induction rounds with
  | zero =>
    intro n s after h
    unfold dispatchNJobs at h
    split at h
    · cases h
    · cases h
      exact .of_eq rfl rfl
  | succ rounds ih =>
    intro n s after h
    unfold dispatchNJobs at h
    split at h
    · dsimp only at h
      split at h
      · cases h
      · cases h
        exact .of_eq rfl rfl
      · cases h
        exact .of_eq rfl rfl
      · rename_i req ctime world hnext
        have hsame : Grows s { s with world := world } := .of_eq rfl rfl
        split at h
        · exact hsame.trans (ih h)
        · have hstart := @grows_startKnegdJob _ out opts req { s with world := world }
          split at h <;> rename_i hcall <;> rw [hcall] at hstart
          · exact (hsame.trans hstart).trans (ih h)
          · have hrest := ih h
            exact (hsame.trans hstart).trans (Grows.trans (.of_eq rfl rfl) hrest)
    · cases h
      exact .of_eq rfl rfl

theorem grows_dispatchAvailable {rounds : ℕ}
    (h : dispatchAvailable out opts rounds s = some after) : Grows s after := by
  unfold dispatchAvailable at h
  dsimp only at h
  split at h
  · exact grows_dispatchNJobs _ h
  · cases h
    exact .of_eq rfl rfl

def IsStop (req : KnegdReq) : Prop := strEq req.action "stop"

inductive JobsEffect (s after : State World) : Event World → Prop where
  | grows {event : Event World} (hnotReaped : ∀ pid, event ≠ .reapedChild pid)
      (h : Grows s after) : JobsEffect s after event
  | stop {fd : ℤ} {req : KnegdReq} (hstop : IsStop req)
      (hjobs : after.jobs = (jobsStop s.jobs (req.id.getD [])).1)
      (hsignals : after.signals = s.signals ++ (jobsStop s.jobs (req.id.getD [])).2) :
      JobsEffect s after (.request fd (.request req))
  | tick {now : ℤ} (hjobs : after.jobs = s.jobs.map fun job => (checkTime now job).1)
      (hsignals : after.signals = s.signals ++ s.jobs.flatMap fun job => (checkTime now job).2) :
      JobsEffect s after .tick
  | reaped {pid : ℤ} {mid : State World} (hsignals : mid.signals = s.signals)
      (hjobs : mid.jobs = (jobsRemove s.jobs pid).getD s.jobs) (h : Grows mid after) :
      JobsEffect s after (.reapedChild pid)

variable {req : KnegdReq} {response : Option Response}

theorem onQueue_grows (h : onQueue out opts req s = some (response, after)) : Grows s after := by
  have hstart := @grows_startKnegdJob _ out opts req s
  unfold onQueue at h
  split at h
  · cases h
    exact .of_eq rfl rfl
  · split at h
    · cases h
      exact .of_eq rfl rfl
    · split at h
      · cases h
        exact .of_eq rfl rfl
      · split at h
        · split at h <;> rename_i hcall <;> rw [hcall] at hstart
          · cases h
            exact hstart
          · cases h
            exact hstart.trans (.of_eq rfl rfl)
        · obtain ⟨⟨errmsg, world⟩, -, hrest⟩ := Option.bind_eq_some_iff.mp h
          dsimp only at hrest
          split at hrest <;> cases hrest <;> exact .of_eq rfl rfl

variable {respbuf : Buf}

theorem onStart_grows {fd : ℤ} (h : onStart out opts fd respbuf req s = (response, after)) :
    Grows s after := by
  have hstart := @grows_startKnegdJob _ out opts req s
  unfold onStart at h
  split at h <;> rename_i hcall <;> rw [hcall] at hstart
  · cases h
    exact hstart
  · cases h
    exact hstart.trans (.of_eq rfl rfl)

theorem onIdAction_jobs {fd : ℤ}
    (h : onIdAction out opts fd respbuf req s = some (response, after)) :
    Grows s after ∨ IsStop req ∧ after.jobs = (jobsStop s.jobs (req.id.getD [])).1 ∧
      after.signals = s.signals ++ (jobsStop s.jobs (req.id.getD [])).2 := by
  unfold onIdAction at h
  split at h
  · exact .inl (onQueue_grows h)
  · split at h
    · cases h
      exact .inl (.of_eq rfl rfl)
    · split at h
      · obtain ⟨⟨buf, world⟩, -, hrest⟩ := Option.bind_eq_some_iff.mp h
        cases hrest
        exact .inl (.of_eq rfl rfl)
      · split at h
        · rename_i hstop
          cases h
          exact .inr ⟨hstop, rfl, rfl⟩
        · cases h
          exact .inl (.of_eq rfl rfl)

theorem onRequest_jobs {fd : ℤ}
    (h : onRequest out opts fd respbuf req s = some (response, after)) :
    Grows s after ∨ IsStop req ∧ after.jobs = (jobsStop s.jobs (req.id.getD [])).1 ∧
      after.signals = s.signals ++ (jobsStop s.jobs (req.id.getD [])).2 := by
  unfold onRequest at h
  split at h
  · cases h
    exact .inl (.of_eq rfl rfl)
  · split at h
    · cases h
      exact .inl (.of_eq rfl rfl)
    · split at h
      · exact .inl (onStart_grows (Option.some.inj h))
      · split at h
        · cases h
          exact .inl (.of_eq rfl rfl)
        · split at h
          · cases h
            exact .inl (.of_eq rfl rfl)
          · split at h
            · cases h
              exact .inl (.of_eq rfl rfl)
            · exact onIdAction_jobs h

variable {event : Event World}

theorem step_jobsEffect (h : Step out opts s event after) : JobsEffect s after event := by
  obtain ⟨rounds, response, hstep⟩ := h
  cases event with
  | readable fd =>
    cases hstep
    refine .grows (fun pid h => by cases h) ?_
    unfold kngOnReadable
    split <;> exact .of_eq rfl rfl
  | request fd received =>
    obtain ⟨respbuf, -, hread⟩ := Option.bind_eq_some_iff.mp hstep
    cases received with
    | again =>
      cases hread
      exact .grows (fun pid h => by cases h) (.of_eq rfl rfl)
    | failure =>
      cases hread
      exact .grows (fun pid h => by cases h) (.of_eq rfl rfl)
    | malformed =>
      cases hread
      exact .grows (fun pid h => by cases h) (.of_eq rfl rfl)
    | request req =>
      obtain hgrows | ⟨hstop, hjobs, hsignals⟩ := onRequest_jobs hread
      · exact .grows (fun pid h => by cases h) hgrows
      · exact .stop hstop hjobs hsignals
  | finalize fd =>
    cases hstep
    exact .grows (fun pid h => by cases h) (.of_eq rfl rfl)
  | reapedChild pid =>
    obtain ⟨mid, hmid, hrest⟩ := Option.bind_eq_some_iff.mp hstep
    cases hrest
    rw [kngOnSvcReapedChild_eq] at hmid
    refine .reaped ?_ ?_ (grows_dispatchAvailable hmid)
    · unfold freed
      dsimp only
      split <;> rfl
    · unfold freed
      dsimp only
      split <;> rename_i hremove <;> rw [hremove] <;> rfl
  | tick =>
    cases hstep
    unfold kngOnTick jobsCheckTimes
    cases hnow : out.clock s.world with
    | mk now world =>
      cases now with
      | none => exact .grows (fun pid h => by cases h) (.of_eq rfl (List.append_nil _))
      | some now => exact .tick rfl rfl
  | elapse world =>
    simp only [step] at hstep
    split at hstep
    · cases hstep
      exact .grows (fun pid h => by cases h) (.of_eq rfl rfl)
    · cases hstep

/-! The jobs after a stop, a tick and a removal -/

variable {jobs : List KngJob}

theorem mem_jobsStop {id : Bytes}
    (h : job ∈ (jobsStop jobs id).1) :
    job ∈ jobs ∨ ∃ old ∈ jobs, job = { old with stopped := true } ∧
      (old.pid, .sigterm) ∈ (jobsStop jobs id).2 := by
  induction jobs with
  | nil => cases h
  | cons first jobs ih =>
    unfold jobsStop at h ⊢
    split
    · rename_i heq
      rw [if_pos heq] at h
      cases List.mem_cons.mp h with
      | inl hfirst => exact .inr ⟨first, List.mem_cons_self, hfirst, List.mem_singleton_self _⟩
      | inr hrest => exact .inl (List.mem_cons_of_mem first hrest)
    · rename_i hne
      rw [if_neg hne] at h
      cases List.mem_cons.mp h with
      | inl hfirst => exact .inl (hfirst ▸ List.mem_cons_self)
      | inr hrest =>
        obtain hold | ⟨old, hold, hjob, hsent⟩ := ih hrest
        · exact .inl (List.mem_cons_of_mem first hold)
        · exact .inr ⟨old, List.mem_cons_of_mem first hold, hjob, hsent⟩

variable {pid : ℤ}

theorem signal_jobsStop {id : Bytes} {signal : Signal}
    (h : (pid, signal) ∈ (jobsStop jobs id).2) :
    signal = .sigterm ∧ ∃ job ∈ jobs, job.pid = pid := by
  induction jobs with
  | nil => cases h
  | cons first jobs ih =>
    unfold jobsStop at h
    split at h
    · cases List.mem_singleton.mp h
      exact ⟨rfl, first, List.mem_cons_self, rfl⟩
    · obtain ⟨hsignal, job, hjob, hpid⟩ := ih h
      exact ⟨hsignal, job, List.mem_cons_of_mem first hjob, hpid⟩

theorem checkTime_cases (now : ℤ) (job : KngJob) :
    (checkTime now job).1.stopped = job.stopped ∧
      ((checkTime now job).1.sentSigterm = true → job.sentSigterm = true ∨ job.stopped = true ∨
        (job.pid, .sigterm) ∈ (checkTime now job).2) ∧
      ∀ pid signal, (pid, signal) ∈ (checkTime now job).2 →
        pid = job.pid ∧ (signal = .sigkill → job.sentSigterm = true) := by
  unfold checkTime
  split
  · rename_i hsent
    refine ⟨rfl, fun _ => .inl hsent, fun pid signal h => ?_⟩
    cases List.mem_singleton.mp h
    exact ⟨rfl, fun _ => hsent⟩
  · split
    · rename_i hstopped
      exact ⟨rfl, fun _ => .inr (.inl hstopped), nofun⟩
    · split
      · refine ⟨rfl, fun _ => .inr (.inr (List.mem_singleton_self _)), fun pid signal h => ?_⟩
        cases List.mem_singleton.mp h
        exact ⟨rfl, nofun⟩
      · exact ⟨rfl, fun h => .inl h, nofun⟩

theorem mem_jobsRemove
    (hnodup : (jobs.map KngJob.pid).Nodup) (h : job ∈ (jobsRemove jobs pid).getD jobs) :
    job ∈ jobs ∧ job.pid ≠ pid := by
  induction jobs with
  | nil => cases h
  | cons first jobs ih =>
    rw [List.map_cons, List.nodup_cons] at hnodup
    obtain ⟨hfirst, hnodup⟩ := hnodup
    unfold jobsRemove at h
    split at h
    · rename_i hpid
      refine ⟨List.mem_cons_of_mem first h, fun heq => hfirst ?_⟩
      rw [hpid, ← heq]
      exact List.mem_map_of_mem h
    · rename_i hpid
      have hrest : job = first ∨ job ∈ (jobsRemove jobs pid).getD jobs := by
        cases hremove : jobsRemove jobs pid with
        | none =>
          rw [hremove] at h
          exact List.mem_cons.mp h
        | some left =>
          rw [hremove] at h
          exact List.mem_cons.mp h
      cases hrest with
      | inl heq => exact ⟨heq ▸ List.mem_cons_self, heq ▸ hpid⟩
      | inr hmem =>
        obtain ⟨hjob, hne⟩ := ih hnodup hmem
        exact ⟨List.mem_cons_of_mem first hjob, hne⟩

/-- An event of a run, with the signals that were sent at it. -/
structure Occurrence (World : Type) where
  event : Event World
  sent : List (ℤ × Signal)

inductive Run (out : Outside World) (opts : KngOpts) :
    List (Occurrence World) → State World → Prop where
  | initial {s : State World} (h : Initial out opts s) : Run out opts [] s
  | step {past : List (Occurrence World)} {s after : State World} {event : Event World}
      {sent : List (ℤ × Signal)} (hrun : Run out opts past s) (hstep : Step out opts s event after)
      (hsent : after.signals = s.signals ++ sent) : Run out opts (past ++ [⟨event, sent⟩]) after

def SentSigterm (pid : ℤ) (past : List (Occurrence World))
    (how : Occurrence World → List (Occurrence World) → Prop) : Prop :=
  ∃ before sending later, past = before ++ sending :: later ∧
    (pid, .sigterm) ∈ sending.sent ∧ (∀ x ∈ later, x.event ≠ .reapedChild pid) ∧
    how sending later

def ByStop (sending : Occurrence World) (_later : List (Occurrence World)) : Prop :=
  ∃ fd req, sending.event = .request fd (.request req) ∧ IsStop req

def TickApart (sending : Occurrence World) (later : List (Occurrence World)) : Prop :=
  sending.event = .tick ∨ ByStop sending later ∧ ∃ x ∈ later, x.event = .tick

variable {past : List (Occurrence World)}

theorem SentSigterm.extend
    {how how' : Occurrence World → List (Occurrence World) → Prop} (h : SentSigterm pid past how)
    {next : Occurrence World} (hnext : next.event ≠ .reapedChild pid)
    (hhow : ∀ sending later, how sending later → how' sending (later ++ [next])) :
    SentSigterm pid (past ++ [next]) how' := by
  obtain ⟨before, sending, later, rfl, hsent, hkept, hold⟩ := h
  refine ⟨before, sending, later ++ [next], ?_, hsent, ?_, hhow _ _ hold⟩
  · rw [List.append_assoc, List.cons_append]
  · intro x hx
    cases List.mem_append.mp hx with
    | inl hlater => exact hkept x hlater
    | inr hlast =>
      rw [List.mem_singleton.mp hlast]
      exact hnext

theorem ByStop.append {sending : Occurrence World} {later : List (Occurrence World)}
    (h : ByStop sending later) (next : Occurrence World) : ByStop sending (later ++ [next]) := h

theorem TickApart.append {sending : Occurrence World} {later : List (Occurrence World)}
    (h : TickApart sending later) (next : Occurrence World) :
    TickApart sending (later ++ [next]) := by
  cases h with
  | inl htick => exact .inl htick
  | inr hstop =>
    obtain ⟨hby, x, hx, htick⟩ := hstop
    exact .inr ⟨hby, x, List.mem_append_left _ hx, htick⟩

structure Flagged (past : List (Occurrence World)) (job : KngJob) : Prop where
  stopped : job.stopped = true → SentSigterm job.pid past ByStop
  sentSigterm : job.sentSigterm = true → SentSigterm job.pid past TickApart

theorem Flagged.of_fresh (h : Fresh job) (past : List (Occurrence World)) :
    Flagged past job where
  stopped := fun hstopped => by rw [h.1] at hstopped; cases hstopped
  sentSigterm := fun hsent => by rw [h.2] at hsent; cases hsent

theorem Flagged.append (h : Flagged past job)
    (next : Occurrence World) (hnext : next.event ≠ .reapedChild job.pid) :
    Flagged (past ++ [next]) job where
  stopped := fun hstopped => (h.stopped hstopped).extend hnext fun _ _ hby => hby.append next
  sentSigterm := fun hsent => (h.sentSigterm hsent).extend hnext fun _ _ hold => hold.append next

theorem sentSigterm_now {next : Occurrence World}
    {how : Occurrence World → List (Occurrence World) → Prop} (hsent : (pid, .sigterm) ∈ next.sent)
    (hhow : how next []) : SentSigterm pid (past ++ [next]) how :=
  ⟨past, next, [], rfl, hsent, List.forall_mem_nil _, hhow⟩

theorem Grows.flagged (h : Grows s after)
    (hs : ∀ job ∈ s.jobs, Flagged past job) : ∀ job ∈ after.jobs, Flagged past job := by
  obtain ⟨-, new, hjobs, hfresh⟩ := h
  intro job hjob
  rw [hjobs, List.mem_append] at hjob
  exact hjob.elim (fun hnew => .of_fresh (hfresh job hnew) past) (hs job)

variable {sent : List (ℤ × Signal)}

theorem flagged_step (hs : ∀ job ∈ s.jobs, Flagged past job)
    (hnodup : (s.jobs.map KngJob.pid).Nodup) (heffect : JobsEffect s after event)
    (hsent : after.signals = s.signals ++ sent) :
    ∀ job ∈ after.jobs, Flagged (past ++ [⟨event, sent⟩]) job := by
  cases heffect with
  | grows hnotReaped hgrows =>
    exact hgrows.flagged fun job hjob => (hs job hjob).append _ (hnotReaped job.pid)
  | @stop fd req hstop hjobs hsignals =>
    obtain rfl := List.append_cancel_left (hsignals.symm.trans hsent)
    intro job hjob
    rw [hjobs] at hjob
    obtain hold | ⟨old, hold, rfl, hterm⟩ := mem_jobsStop hjob
    · exact (hs job hold).append _ nofun
    · have hkept := (hs old hold).append ⟨.request fd (.request req),
        (jobsStop s.jobs (req.id.getD [])).2⟩ nofun
      exact ⟨fun _ => sentSigterm_now hterm ⟨fd, req, rfl, hstop⟩, hkept.sentSigterm⟩
  | @tick now hjobs hsignals =>
    obtain rfl := List.append_cancel_left (hsignals.symm.trans hsent)
    intro job hjob
    rw [hjobs] at hjob
    obtain ⟨old, hold, rfl⟩ := List.mem_map.mp hjob
    obtain ⟨hstopped, hmarked, -⟩ := checkTime_cases now old
    have hkept := (hs old hold).append ⟨.tick, s.jobs.flatMap fun job => (checkTime now job).2⟩
      nofun
    refine ⟨?_, ?_⟩
    · rw [hstopped, pid_checkTime]
      exact hkept.stopped
    · rw [pid_checkTime]
      intro hflag
      obtain hbefore | hbefore | hterm := hmarked hflag
      · exact hkept.sentSigterm hbefore
      · apply ((hs old hold).stopped hbefore).extend (fun h => by cases h)
        intro sending later hby
        exact .inr ⟨hby, _, List.mem_append_right later (List.mem_singleton_self _), rfl⟩
      · exact sentSigterm_now (List.mem_flatMap.mpr ⟨old, hold, hterm⟩) (.inl rfl)
  | @reaped pid mid hsignals hjobs hgrows =>
    apply hgrows.flagged
    intro job hjob
    rw [hjobs] at hjob
    obtain ⟨hold, hne⟩ := mem_jobsRemove hnodup hjob
    apply (hs job hold).append
    intro h
    cases h
    exact hne rfl

theorem sent_cases (heffect : JobsEffect s after event) (hsent : after.signals = s.signals ++ sent)
    {signal : Signal} (h : (pid, signal) ∈ sent) :
    ∃ job ∈ s.jobs, job.pid = pid ∧
      (signal = .sigkill → event = .tick ∧ job.sentSigterm = true) := by
  have hquiet : ∀ {mid : State World}, mid.signals = s.signals → Grows mid after → False := by
    intro mid hmid hgrows
    rw [hgrows.1, hmid] at hsent
    rw [List.self_eq_append_right.mp hsent] at h
    cases h
  cases heffect with
  | grows _ hgrows => exact (hquiet rfl hgrows).elim
  | stop _ _ hsignals =>
    obtain rfl := List.append_cancel_left (hsignals.symm.trans hsent)
    obtain ⟨rfl, job, hjob, hpid⟩ := signal_jobsStop h
    exact ⟨job, hjob, hpid, nofun⟩
  | @tick now _ hsignals =>
    obtain rfl := List.append_cancel_left (hsignals.symm.trans hsent)
    obtain ⟨job, hjob, hmem⟩ := List.mem_flatMap.mp h
    obtain ⟨hpid, hkill⟩ := (checkTime_cases now job).2.2 pid signal hmem
    exact ⟨job, hjob, hpid.symm, fun hsignal => ⟨rfl, hkill hsignal⟩⟩
  | reaped hsignals _ hgrows => exact (hquiet hsignals hgrows).elim

theorem initial_flagged (h : Initial out opts s) :
    ∀ job ∈ s.jobs, Flagged ([] : List (Occurrence World)) job := by
  obtain ⟨rounds, world, hinit⟩ := h
  unfold kngModInit at hinit
  split at hinit
  · cases hinit
  · exact (grows_dispatchAvailable hinit).flagged (List.forall_mem_nil _)

theorem Run.accounted (hlaws : out.Laws)
    (h : Run out opts past s) : (slots out s).Accounted := by
  induction h with
  | initial h => exact (bounded_initial hlaws h).accounted
  | step _ hstep _ ih => exact accounted_step hlaws ih hstep

theorem Run.flagged (hlaws : out.Laws)
    (h : Run out opts past s) : ∀ job ∈ s.jobs, Flagged past job := by
  induction h with
  | initial h => exact initial_flagged h
  | step hrun hstep hsent ih =>
    exact flagged_step ih (hrun.accounted hlaws).nodup (step_jobsEffect hstep) hsent

theorem JobsEffect.signals
    (h : JobsEffect s after event) : ∃ sent, after.signals = s.signals ++ sent := by
  cases h with
  | grows _ hgrows => exact ⟨[], hgrows.1.trans (List.append_nil _).symm⟩
  | stop _ _ hsignals => exact ⟨_, hsignals⟩
  | tick _ hsignals => exact ⟨_, hsignals⟩
  | reaped hsignals _ hgrows =>
    exact ⟨[], hgrows.1.trans (hsignals.trans (List.append_nil _).symm)⟩

/-- What is computed event by event is a run. The induction follows the events. -/
theorem run_foldlM {rounds : ℕ} {events : List (Event World)} :
    ∀ {past : List (Occurrence World)} {s after : State World}, Run out opts past s →
      events.foldlM (fun s event => (step out opts rounds s event).map Prod.snd) s = some after →
      ∃ past, Run out opts past after := by
  induction events with
  | nil =>
    intro past s after hrun h
    cases h
    exact ⟨past, hrun⟩
  | cons event events ih =>
    intro past s after hrun h
    rw [List.foldlM_cons] at h
    obtain ⟨mid, hmid, hrest⟩ := Option.bind_eq_some_iff.mp h
    obtain ⟨answer, hanswer, rfl⟩ := Option.map_eq_some_iff.mp hmid
    have hstep : Step out opts s event answer.2 := ⟨rounds, answer.1, hanswer⟩
    obtain ⟨sent, hsent⟩ := (step_jobsEffect hstep).signals
    exact ih (hrun.step hstep hsent) hrest

/-- In every run the daemon sends signals only to jobs that are forked and not
reaped, and the one that cannot be caught only at a tick that comes apart from
the event at which it sent the other one. -/
theorem sigkill_after_sigterm (hlaws : out.Laws) {past : List (Occurrence World)}
    {s after : State World} {event : Event World} {sent : List (ℤ × Signal)}
    (hrun : Run out opts past s) (hstep : Step out opts s event after)
    (hsent : after.signals = s.signals ++ sent) :
    ∀ pid signal, (pid, signal) ∈ sent →
      (∃ job ∈ s.jobs, job.pid = pid) ∧ pid ∈ out.children s.world ∧
      (signal = .sigkill → event = .tick ∧ SentSigterm pid past TickApart) := by
  intro pid signal hmem
  obtain ⟨job, hjob, rfl, hkill⟩ := sent_cases (step_jobsEffect hstep) hsent hmem
  have hforked := (hrun.accounted hlaws).forked job.pid (List.mem_map_of_mem hjob)
  refine ⟨⟨job, hjob, rfl⟩, hforked, fun hsignal => ?_⟩
  obtain ⟨htick, hflag⟩ := hkill hsignal
  exact ⟨htick, (hrun.flagged hlaws job hjob).sentSigterm hflag⟩

/-- A job that is started and stopped, and a tick. -/
def stoppingEvents : List (Event (Finset ℤ × List KnegdReq)) :=
  let req (action : String) : KnegdReq :=
    ⟨0, some (ascii action), some (ascii "b48a"), none, some (ascii "scan")⟩
  [.readable 5, .request 5 (.request (req "start")), .readable 6,
    .request 6 (.request (req "stop")), .tick]

theorem sigkill_after_sigterm_stopped :
    ∃ past s after, Run sampleOutside sampleOpts past s ∧
      Step sampleOutside sampleOpts s .tick after ∧
      after.signals = s.signals ++ [(1, .sigkill)] ∧ SentSigterm 1 past TickApart := by
  have hsignals : ((stoppingEvents.foldlM (fun s event =>
      (step sampleOutside sampleOpts 2 s event).map Prod.snd) sampleInitial).bind fun s =>
        (step sampleOutside sampleOpts 2 s .tick).map fun answer =>
          (s.signals, answer.2.signals)) =
        some ([(1, .sigterm)], [(1, .sigterm), (1, .sigkill)]) := by
    decide
  obtain ⟨s, hs, hlast⟩ := Option.bind_eq_some_iff.mp hsignals
  obtain ⟨answer, hanswer, hpair⟩ := Option.map_eq_some_iff.mp hlast
  obtain ⟨hbefore, hafter⟩ := Prod.mk.inj hpair
  have hinitial : Initial sampleOutside sampleOpts sampleInitial := ⟨2, (∅, []), rfl⟩
  obtain ⟨past, hrun⟩ := run_foldlM (.initial hinitial) hs
  have hstep : Step sampleOutside sampleOpts s .tick answer.2 := ⟨2, answer.1, hanswer⟩
  have hsent : answer.2.signals = s.signals ++ [(1, .sigkill)] := by
    rw [hbefore, hafter]
    rfl
  have hall := sigkill_after_sigterm sampleOutside_laws hrun hstep hsent
  exact ⟨past, s, answer.2, hrun, hstep, hsent,
    ((hall 1 .sigkill (List.mem_singleton_self _)).2.2 rfl).2⟩

end Yans.Apps.Knegd
