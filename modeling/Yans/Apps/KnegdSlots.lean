import Mathlib
import Yans.Apps.KnegdWorld
import Yans.Library.Runs

/-! The slots of the daemon. Abstractly they are the processes of the jobs, a
counter, and the children that the kernel knows; a job enters with a process
that was not there before and leaves when it is reaped. -/
namespace Yans.Apps.Knegd

open Library.Memory Library.Strings Library.Runs Util

structure Slots where
  pids : List ℤ
  nrunning : ℤ
  nslots : ℤ
  children : Finset ℤ

namespace Slots

structure Accounted (slots : Slots) : Prop where
  nrunning_eq : slots.nrunning = slots.pids.length
  nodup : slots.pids.Nodup
  forked : ∀ pid ∈ slots.pids, pid ∈ slots.children

def start (pid : ℤ) (slots : Slots) : Slots :=
  { slots with
    pids := pid :: slots.pids
    nrunning := slots.nrunning + 1
    children := insert pid slots.children }

def reap (pid : ℤ) (slots : Slots) : Slots :=
  { slots with
    pids := slots.pids.erase pid
    nrunning := if pid ∈ slots.pids then slots.nrunning - 1 else slots.nrunning
    children := slots.children.erase pid }

/-- At most `n` jobs enter. -/
inductive Fills : ℕ → Slots → Slots → Prop where
  | done {n : ℕ} {slots : Slots} : Fills n slots slots
  | start {n : ℕ} {before after : Slots} {pid : ℤ} (hfresh : pid ∉ before.children)
      (hrest : Fills n (before.start pid) after) : Fills (n + 1) before after

variable {slots before after : Slots} {pid : ℤ} {n : ℕ}

theorem Accounted.start (h : slots.Accounted) (hfresh : pid ∉ slots.children) :
    (slots.start pid).Accounted where
  nrunning_eq := by
    have hcount := h.nrunning_eq
    simp only [Slots.start, List.length_cons]
    omega
  nodup := List.nodup_cons.mpr ⟨fun hpid => hfresh (h.forked pid hpid), h.nodup⟩
  forked := by
    intro other hother
    cases List.mem_cons.mp hother with
    | inl hpid => exact hpid ▸ Finset.mem_insert_self other slots.children
    | inr hrest => exact Finset.mem_insert_of_mem (h.forked other hrest)

theorem Accounted.reap (h : slots.Accounted) (pid : ℤ) : (slots.reap pid).Accounted where
  nrunning_eq := by
    have hcount := h.nrunning_eq
    simp only [Slots.reap]
    by_cases hpid : pid ∈ slots.pids
    · have hpos := List.length_pos_of_mem hpid
      rw [if_pos hpid, List.length_erase_of_mem hpid]
      omega
    · rw [if_neg hpid, List.erase_of_not_mem hpid, hcount]
  nodup := h.nodup.erase pid
  forked := by
    intro other hother
    have hmem := (h.nodup.mem_erase_iff).mp hother
    exact Finset.mem_erase.mpr ⟨hmem.1, h.forked other hmem.2⟩

theorem Fills.mono {m : ℕ} (h : Fills n before after) (hle : n ≤ m) : Fills m before after := by
  induction h generalizing m with
  | done => exact .done
  | start hfresh _ ih =>
    obtain ⟨m, rfl⟩ : ∃ k, m = k + 1 := ⟨m - 1, by omega⟩
    exact .start hfresh (ih (Nat.le_of_succ_le_succ hle))

theorem Fills.accounted (h : Fills n before after) (hbefore : before.Accounted) :
    after.Accounted := by
  induction h with
  | done => exact hbefore
  | start hfresh _ ih => exact ih (hbefore.start hfresh)

theorem Fills.nslots_eq (h : Fills n before after) : after.nslots = before.nslots := by
  induction h with
  | done => rfl
  | start _ _ ih => exact ih

theorem Fills.nrunning_le (h : Fills n before after) : after.nrunning ≤ before.nrunning + n := by
  induction h with
  | done => omega
  | start _ _ ih =>
    simp only [Slots.start] at ih
    omega

structure Bounded (slots : Slots) : Prop where
  accounted : slots.Accounted
  nslots_nonneg : 0 ≤ slots.nslots
  nrunning_le : slots.nrunning ≤ slots.nslots

def navailable (slots : Slots) : ℤ := clamp (slots.nslots - slots.nrunning) 0 slots.nslots

theorem nrunning_add_navailable (slots : Slots) (h : slots.navailable > 0) :
    slots.nrunning + slots.navailable ≤ slots.nslots := by
  unfold navailable clamp at *
  split at h
  · omega
  · split at h <;> split <;> omega

theorem Bounded.fills (h : before.Bounded) (havail : before.navailable > 0)
    (hfills : Fills before.navailable.toNat before after) : after.Bounded where
  accounted := hfills.accounted h.accounted
  nslots_nonneg := hfills.nslots_eq ▸ h.nslots_nonneg
  nrunning_le := by
    have hroom := before.nrunning_add_navailable havail
    have hle := hfills.nrunning_le
    rw [hfills.nslots_eq]
    omega

theorem Bounded.reap (h : slots.Bounded) (pid : ℤ) : (slots.reap pid).Bounded where
  accounted := h.accounted.reap pid
  nslots_nonneg := h.nslots_nonneg
  nrunning_le := by
    have hle := h.nrunning_le
    simp only [Slots.reap]
    split <;> omega

end Slots

/-! What the world outside does with the children -/

variable {World : Type} {out : Outside World} {opts : KngOpts}

def Outside.Forks (out : Outside World) (before after : World) : Option ℤ → Prop
  | none => out.children after = out.children before
  | some pid =>
    pid ∉ out.children before ∧ out.children after = insert pid (out.children before)

/-- A process is a child from `fork` until it is reaped, and until then its pid
is not given to another one. -/
structure Outside.Laws (out : Outside World) : Prop where
  forks_fork : ∀ exec world, out.Forks world (out.fork exec world).2 (out.fork exec world).1
  children_reap : ∀ pid world, out.children (out.reap pid world) = (out.children world).erase pid
  children_enter : ∀ id name world,
    out.children (out.enter id name world).2 = out.children world
  children_clock : ∀ world, out.children (out.clock world).2 = out.children world
  children_openLog : ∀ world, out.children (out.openLog world).2 = out.children world
  children_time : ∀ world, out.children (out.time world).2 = out.children world
  children_manifest : ∀ world, out.children (out.manifest world).2 = out.children world
  children_queueInit : ∀ world, out.children (out.queueInit world).2 = out.children world
  children_queuePut : ∀ req world err after, out.queuePut req world = some (err, after) →
    out.children after = out.children world
  children_queueNext : ∀ world next after, out.queueNext world = some (next, after) →
    out.children after = out.children world
  children_queueContains : ∀ id world contains after,
    out.queueContains id world = some (contains, after) →
      out.children after = out.children world

theorem Outside.Forks.of_children_eq {before mid after : World} {pid : Option ℤ}
    (h : out.Forks mid after pid) (hmid : out.children mid = out.children before) :
    out.Forks before after pid := by
  cases pid with
  | none => exact h.trans hmid
  | some pid =>
    unfold Forks at h ⊢
    rwa [hmid] at h

/-! The functions of the daemon on the slots -/

def slots (out : Outside World) (s : State World) : Slots where
  pids := s.jobs.map KngJob.pid
  nrunning := s.kngq.nrunning
  nslots := s.kngq.nslots
  children := out.children s.world

theorem forks_jobNewEntered (hlaws : out.Laws) (type : Option Bytes) (okmsg : Bytes)
    (timeoutSec : ℤ) (world : World) :
    out.Forks world (jobNewEntered out opts type okmsg timeoutSec world).2
      ((jobNewEntered out opts type okmsg timeoutSec world).1.toOption.map KngJob.pid) := by
  have hclock := hlaws.children_clock world
  unfold jobNewEntered
  cases hstarted : out.clock world with
  | mk started mid =>
    rw [hstarted] at hclock
    cases started with
    | none => exact hclock
    | some started =>
      have hlog := (hlaws.children_openLog mid).trans hclock
      dsimp only
      cases hopen : out.openLog mid with
      | mk err opened =>
        rw [hopen] at hlog
        cases err with
        | some err => exact hlog
        | none =>
          have hfork := hlaws.forks_fork ⟨cstring (type.getD []), (cstring okmsg).take (idSize - 1),
            if timeoutSec > 0 then timeoutSec else opts.timeout⟩ opened
          dsimp only
          split
          · rename_i hpid
            rw [hpid] at hfork
            exact hfork.of_children_eq hlog
          · rename_i hpid
            rw [hpid] at hfork
            exact hfork.of_children_eq hlog

theorem forks_jobNew (hlaws : out.Laws) (type id name : Option Bytes) (timeoutSec : ℤ)
    (world : World) :
    out.Forks world (jobNew out opts type id name timeoutSec world).2
      ((jobNew out opts type id name timeoutSec world).1.toOption.map KngJob.pid) := by
  have henter := hlaws.children_enter id name world
  unfold jobNew
  split
  · rfl
  · cases hresp : out.enter id name world with
    | mk resp entered =>
      rw [hresp] at henter
      cases resp with
      | error err => exact henter
      | ok resp =>
        dsimp only
        split
        · exact henter
        · split
          · exact henter
          · exact (forks_jobNewEntered hlaws _ _ _ _).of_children_eq henter

theorem startKnegdJob_cases (hlaws : out.Laws) (req : KnegdReq) (s : State World) :
    (∃ err, (startKnegdJob out opts req s).1 = .error err ∧
      slots out (startKnegdJob out opts req s).2 = slots out s) ∨
    (∃ job, (startKnegdJob out opts req s).1 = .ok job ∧
      job.pid ∉ (slots out s).children ∧
      slots out (startKnegdJob out opts req s).2 = (slots out s).start job.pid) := by
  have hforks := @forks_jobNew _ out opts hlaws req.type req.id req.name
    (if req.timeout > 0 then req.timeout else 0) s.world
  unfold startKnegdJob
  dsimp only
  split
  · rename_i err world hnew
    rw [hnew] at hforks
    left
    refine ⟨err, rfl, ?_⟩
    unfold slots
    rw [show out.children world = out.children s.world from hforks]
  · rename_i job world hnew
    rw [hnew] at hforks
    right
    refine ⟨job, rfl, hforks.1, ?_⟩
    unfold slots Slots.start
    rw [show out.children world = insert job.pid (out.children s.world) from hforks.2]
    rfl

theorem map_pid_jobsStop (jobs : List KngJob) (id : Bytes) :
    (jobsStop jobs id).1.map KngJob.pid = jobs.map KngJob.pid := by
  induction jobs with
  | nil => rfl
  | cons job jobs ih =>
    unfold jobsStop
    split
    · rfl
    · rw [List.map_cons, List.map_cons, ih]

theorem pid_checkTime (now : ℤ) (job : KngJob) : (checkTime now job).1.pid = job.pid := by
  unfold checkTime
  split
  · rfl
  · split
    · rfl
    · split <;> rfl

theorem jobsRemove_eq (jobs : List KngJob) (pid : ℤ) :
    (jobsRemove jobs pid).map (List.map KngJob.pid) =
      if pid ∈ jobs.map KngJob.pid then some ((jobs.map KngJob.pid).erase pid) else none := by
  induction jobs with
  | nil => rfl
  | cons job jobs ih =>
    unfold jobsRemove
    by_cases hpid : job.pid = pid
    · simp [hpid]
    · rw [if_neg hpid, List.map_cons, List.erase_cons_tail (by simpa using hpid), Option.map_map]
      have hmem : pid ∈ job.pid :: jobs.map KngJob.pid ↔ pid ∈ jobs.map KngJob.pid := by
        rw [List.mem_cons]
        exact or_iff_right fun h => hpid h.symm
      simp only [hmem]
      by_cases hrest : pid ∈ jobs.map KngJob.pid
      · rw [if_pos hrest] at ih ⊢
        obtain ⟨rest, hremove, hmap⟩ := Option.map_eq_some_iff.mp ih
        rw [hremove, ← hmap]
        rfl
      · rw [if_neg hrest] at ih ⊢
        rw [Option.map_eq_none_iff.mp ih]
        rfl

/-- A `start` request that gets a job. -/
def StartsDirectly (out : Outside World) (opts : KngOpts) (s : State World) : Event World → Prop
  | .request _ (.request req) =>
    strEq req.action "start" ∧ ∃ job, (startKnegdJob out opts req s).1 = .ok job
  | _ => False

/-- What a request does to the slots: nothing, or a job starts, with a free slot
or directly. -/
structure RequestEffect (out : Outside World) (opts : KngOpts) (req : KnegdReq)
    (s after : State World) : Prop where
  slots_eq : slots out after = slots out s ∨
    ∃ pid, pid ∉ (slots out s).children ∧ slots out after = (slots out s).start pid ∧
      ((slots out s).navailable > 0 ∨ ∀ fd, StartsDirectly out opts s (.request fd (.request req)))

variable {req : KnegdReq} {s : State World}

theorem RequestEffect.unchanged {after : State World}
    (h : slots out after = slots out s) : RequestEffect out opts req s after := ⟨.inl h⟩

theorem slots_setWorld {world : World}
    (h : out.children world = out.children s.world) :
    slots out { s with world := world } = slots out s := by
  unfold slots
  rw [h]

theorem children_loadManifest (hlaws : out.Laws) (buf : Buf) (world : World) :
    out.children (loadManifest out buf world).2 = out.children world := by
  have hmanifest := hlaws.children_manifest world
  unfold loadManifest
  split <;> rename_i hfile <;> rw [hfile] at hmanifest <;> exact hmanifest

theorem onStart_effect (hlaws : out.Laws) {fd : ℤ} {respbuf : Buf} {req : KnegdReq}
    {s : State World} (haction : strEq req.action "start") :
    RequestEffect out opts req s (onStart out opts fd respbuf req s).2 := by
  unfold onStart
  obtain ⟨err, herr, hsame⟩ | ⟨job, hjob, hfresh, hstart⟩ :=
    @startKnegdJob_cases _ out opts hlaws req s
  · split
    · rename_i hcall
      rw [hcall] at hsame
      exact .unchanged hsame
    · rename_i hcall
      rw [hcall] at herr
      cases herr
  · have hdirect : ∀ fd, StartsDirectly out opts s (.request fd (.request req)) :=
      fun _ => ⟨haction, job, hjob⟩
    split
    · rename_i hcall
      rw [hcall] at hjob
      cases hjob
    · rename_i hcall
      rw [hcall] at hstart
      exact ⟨.inr ⟨job.pid, hfresh, hstart, .inr hdirect⟩⟩

variable {response : Option Response}

theorem onQueue_effect (hlaws : out.Laws) {after : State World}
    (h : onQueue out opts req s = some (response, after)) :
    RequestEffect out opts req s after := by
  unfold onQueue at h
  split at h
  · cases h
    exact .unchanged rfl
  · split at h
    · cases h
      exact .unchanged rfl
    · split at h
      · cases h
        exact .unchanged rfl
      · split at h
        · rename_i havail
          obtain ⟨err, herr, hsame⟩ | ⟨job, hjob, hfresh, hstart⟩ :=
            @startKnegdJob_cases _ out opts hlaws req s
          · split at h <;> rename_i hcall <;> rw [hcall] at herr hsame
            · cases h
              exact .unchanged hsame
            · cases herr
          · split at h <;> rename_i hcall <;> rw [hcall] at hjob hstart
            · cases hjob
            · cases h
              exact ⟨.inr ⟨job.pid, hfresh, hstart, .inl havail⟩⟩
        · obtain ⟨⟨errmsg, world⟩, hput, hrest⟩ := Option.bind_eq_some_iff.mp h
          have hchildren := hlaws.children_queuePut _ _ _ _ hput
          cases errmsg <;> cases hrest <;> exact .unchanged (slots_setWorld hchildren)

theorem onIdAction_effect (hlaws : out.Laws) {fd : ℤ} {respbuf : Buf}
    {after : State World}
    (h : onIdAction out opts fd respbuf req s = some (response, after)) :
    RequestEffect out opts req s after := by
  unfold onIdAction at h
  split at h
  · exact onQueue_effect hlaws h
  · split at h
    · cases h
      exact .unchanged rfl
    · split at h
      · obtain ⟨⟨buf, world⟩, hstatus, hrest⟩ := Option.bind_eq_some_iff.mp h
        cases hrest
        exact .unchanged (slots_setWorld (view_appendJobStatuses hlaws.children_queueContains hstatus))
      · split at h
        · cases h
          apply RequestEffect.unchanged
          unfold slots
          rw [map_pid_jobsStop]
        · cases h
          exact .unchanged rfl

theorem onRequest_effect (hlaws : out.Laws) {fd : ℤ} {respbuf : Buf}
    {after : State World}
    (h : onRequest out opts fd respbuf req s = some (response, after)) :
    RequestEffect out opts req s after := by
  unfold onRequest at h
  split at h
  · cases h
    exact .unchanged rfl
  · split at h
    · cases h
      exact .unchanged rfl
    · split at h
      · rename_i haction
        have heffect := @onStart_effect _ out opts hlaws fd respbuf req s haction
        rw [Option.some.inj h] at heffect
        exact heffect
      · split at h
        · have hchildren := children_loadManifest hlaws respbuf s.world
          cases h
          exact .unchanged (slots_setWorld hchildren)
        · split at h
          · cases h
            exact .unchanged rfl
          · split at h
            · cases h
              exact .unchanged rfl
            · exact onIdAction_effect hlaws h

/-- The induction follows the rounds; a round that starts a job leaves one slot
less to fill. -/
theorem fills_dispatchNJobs (hlaws : out.Laws) (rounds : ℕ) :
    ∀ {n : ℤ} {s after : State World}, dispatchNJobs out opts rounds n s = some after →
      Slots.Fills n.toNat (slots out s) (slots out after) := by
  induction rounds with
  | zero =>
    intro n s after h
    unfold dispatchNJobs at h
    split at h
    · cases h
    · cases h
      exact .done
  | succ rounds ih =>
    intro n s after h
    unfold dispatchNJobs at h
    split at h
    · rename_i hn
      dsimp only at h
      split at h
      · cases h
      · rename_i world hnext
        cases h
        rw [slots_setWorld (hlaws.children_queueNext _ _ _ hnext)]
        exact .done
      · rename_i world hnext
        cases h
        rw [slots_setWorld (hlaws.children_queueNext _ _ _ hnext)]
        exact .done
      · rename_i req ctime world hnext
        rw [← slots_setWorld (hlaws.children_queueNext _ _ _ hnext)]
        split at h
        · exact ih h
        · obtain ⟨err, herr, hsame⟩ | ⟨job, hjob, hfresh, hstart⟩ :=
            @startKnegdJob_cases _ out opts hlaws req { s with world := world }
          · split at h <;> rename_i hcall <;> rw [hcall] at herr hsame
            · rw [← hsame]
              exact ih h
            · cases herr
          · split at h <;> rename_i hcall <;> rw [hcall] at hjob hstart
            · cases hjob
            · rename_i started
              have hrest := ih h
              have htime := hlaws.children_time started.world
              have hmid : slots out
                  { started with
                    kngq := kngqUpdateLastQueuedFor started.kngq
                      ((out.time started.world).1 - ctime)
                    world := (out.time started.world).2 } =
                  (slots out { s with world := world }).start job.pid := by
                rw [← hstart]
                unfold slots
                rw [htime]
                rfl
              rw [hmid] at hrest
              rw [show n.toNat = (n - 1).toNat + 1 by omega]
              exact .start hfresh hrest
    · cases h
      exact .done

variable {rounds : ℕ}

theorem dispatchAvailable_cases (hlaws : out.Laws) {after : State World}
    (h : dispatchAvailable out opts rounds s = some after) :
    after = s ∨ (slots out s).navailable > 0 ∧
      Slots.Fills (slots out s).navailable.toNat (slots out s) (slots out after) := by
  unfold dispatchAvailable at h
  dsimp only at h
  split at h
  · rename_i havail
    exact .inr ⟨havail, fills_dispatchNJobs hlaws _ h⟩
  · cases h
    exact .inl rfl

/-- The daemon before it starts jobs in the slot of a child that was reaped. -/
def freed (out : Outside World) (pid : ℤ) (s : State World) : State World :=
  let s := { s with world := out.reap pid s.world }
  match jobsRemove s.jobs pid with
  | some jobs => { s with jobs := jobs, kngq := kngqUpdateRunning s.kngq (-1) }
  | none => s

theorem kngOnSvcReapedChild_eq (rounds : ℕ) (pid : ℤ) (s : State World) :
    kngOnSvcReapedChild out opts rounds pid { s with world := out.reap pid s.world } =
      dispatchAvailable out opts rounds (freed out pid s) := rfl

theorem slots_freed (hlaws : out.Laws) (pid : ℤ) (s : State World) :
    slots out (freed out pid s) = (slots out s).reap pid := by
  have hremove := jobsRemove_eq s.jobs pid
  have hreap := hlaws.children_reap pid s.world
  unfold freed
  dsimp only
  by_cases hpid : pid ∈ s.jobs.map KngJob.pid
  · rw [if_pos hpid] at hremove
    obtain ⟨rest, hrest, hmap⟩ := Option.map_eq_some_iff.mp hremove
    rw [hrest]
    unfold slots Slots.reap kngqUpdateRunning
    simp only [hmap, hreap, if_pos hpid]
    rfl
  · rw [if_neg hpid] at hremove
    rw [Option.map_eq_none_iff.mp hremove]
    unfold slots Slots.reap
    simp only [hreap, if_neg hpid, List.erase_of_not_mem hpid]

theorem slots_kngOnTick (hlaws : out.Laws) (s : State World) :
    slots out (kngOnTick out s) = slots out s := by
  have hclock := hlaws.children_clock s.world
  unfold kngOnTick jobsCheckTimes
  cases hnow : out.clock s.world with
  | mk now world =>
    rw [hnow] at hclock
    cases now with
    | none => exact slots_setWorld hclock
    | some now =>
      unfold slots
      rw [List.map_map, hclock]
      congr 1
      exact List.map_congr_left fun job _ => pid_checkTime now job

theorem slots_kngOnReadable (fd : ℤ) (s : State World) :
    slots out (kngOnReadable fd s) = slots out s := by
  unfold kngOnReadable
  split <;> rfl

def Initial (out : Outside World) (opts : KngOpts) (s : State World) : Prop :=
  ∃ rounds world, kngModInit out opts rounds world = some s

def Step (out : Outside World) (opts : KngOpts) (s : State World) (event : Event World)
    (after : State World) : Prop :=
  ∃ rounds response, step out opts rounds s event = some (response, after)

variable {event : Event World}

section

variable (hlaws : out.Laws)

include hlaws

theorem step_cases {after : State World}
    (h : Step out opts s event after) :
    slots out after = slots out s ∨
    (∃ pid, pid ∉ (slots out s).children ∧ slots out after = (slots out s).start pid ∧
      ((slots out s).navailable > 0 ∨ StartsDirectly out opts s event)) ∨
    (∃ rounds pid mid, slots out mid = (slots out s).reap pid ∧
      dispatchAvailable out opts rounds mid = some after) := by
  obtain ⟨rounds, response, hstep⟩ := h
  cases event with
  | readable fd =>
    cases hstep
    exact .inl (slots_kngOnReadable fd s)
  | request fd received =>
    obtain ⟨respbuf, _, hread⟩ := Option.bind_eq_some_iff.mp hstep
    cases received with
    | again =>
      cases hread
      exact .inl rfl
    | failure =>
      cases hread
      exact .inl rfl
    | malformed =>
      cases hread
      exact .inl rfl
    | request req =>
      obtain hsame | ⟨pid, hfresh, hstart, hroom⟩ := (onRequest_effect hlaws hread).slots_eq
      · exact .inl hsame
      · exact .inr (.inl ⟨pid, hfresh, hstart, hroom.imp_right fun hdirect => hdirect fd⟩)
  | finalize fd =>
    cases hstep
    exact .inl rfl
  | reapedChild pid =>
    obtain ⟨mid, hmid, hrest⟩ := Option.bind_eq_some_iff.mp hstep
    cases hrest
    exact .inr (.inr ⟨rounds, pid, freed out pid s, slots_freed hlaws pid s, hmid⟩)
  | tick =>
    cases hstep
    exact .inl (slots_kngOnTick hlaws s)
  | elapse world =>
    simp only [step] at hstep
    split at hstep
    · rename_i hchildren
      cases hstep
      exact .inl (slots_setWorld hchildren)
    · cases hstep

theorem accounted_dispatchAvailable {after : State World}
    (hs : (slots out s).Accounted) (h : dispatchAvailable out opts rounds s = some after) :
    (slots out after).Accounted := by
  cases dispatchAvailable_cases hlaws h with
  | inl hsame => exact hsame ▸ hs
  | inr hfills => exact hfills.2.accounted hs

theorem bounded_dispatchAvailable {after : State World}
    (hs : (slots out s).Bounded) (h : dispatchAvailable out opts rounds s = some after) :
    (slots out after).Bounded := by
  cases dispatchAvailable_cases hlaws h with
  | inl hsame => exact hsame ▸ hs
  | inr hfills => exact hs.fills hfills.1 hfills.2

theorem bounded_initial (h : Initial out opts s) :
    (slots out s).Bounded := by
  obtain ⟨rounds, world, hinit⟩ := h
  unfold kngModInit at hinit
  split at hinit
  · cases hinit
  · refine bounded_dispatchAvailable hlaws ?_ hinit
    have hslots := opts.nqueueslots_pos
    exact
      { accounted := ⟨rfl, List.nodup_nil, by simp [slots]⟩
        nslots_nonneg := Int.le_of_lt hslots
        nrunning_le := Int.le_of_lt hslots }

theorem accounted_step {after : State World}
    (hs : (slots out s).Accounted) (h : Step out opts s event after) :
    (slots out after).Accounted := by
  obtain hsame | ⟨pid, hfresh, hstart, _⟩ | ⟨rounds, pid, mid, hmid, hdispatch⟩ :=
    step_cases hlaws h
  · exact hsame ▸ hs
  · exact hstart ▸ hs.start hfresh
  · exact accounted_dispatchAvailable hlaws (hmid ▸ hs.reap pid) hdispatch

theorem bounded_step {after : State World}
    (hs : (slots out s).Bounded) (hindirect : ¬ StartsDirectly out opts s event)
    (h : Step out opts s event after) : (slots out after).Bounded := by
  obtain hsame | ⟨pid, hfresh, hstart, hroom⟩ | ⟨rounds, pid, mid, hmid, hdispatch⟩ :=
    step_cases hlaws h
  · exact hsame ▸ hs
  · have havail := hroom.resolve_right hindirect
    refine hs.fills havail (@Slots.Fills.mono _ _ 1 _ ?_ (by omega))
    exact .start hfresh (hstart ▸ .done)
  · exact bounded_dispatchAvailable hlaws (hmid ▸ hs.reap pid) hdispatch

end

/-- In every run the counter is the number of the jobs and each job is a child
that is not reaped yet; without a direct start the jobs fit into the slots. -/
theorem slots_accounted (hlaws : out.Laws) :
    (∀ s, Reachable (Initial out opts) (fun _ _ => True) (Step out opts) s →
      s.kngq.nrunning = s.jobs.length ∧ (s.jobs.map KngJob.pid).Nodup ∧
        ∀ job ∈ s.jobs, job.pid ∈ out.children s.world) ∧
    (∀ s, Reachable (Initial out opts) (fun s event => ¬ StartsDirectly out opts s event)
        (Step out opts) s →
      s.kngq.nrunning ≤ s.kngq.nslots) := by
  constructor
  · intro s hreach
    have haccounted : (slots out s).Accounted :=
      hreach.invariant (fun _ hinitial => (bounded_initial hlaws hinitial).accounted)
        fun _ _ _ hs _ hstep => accounted_step hlaws hs hstep
    refine ⟨?_, haccounted.nodup, ?_⟩
    · have hlength : (s.jobs.map KngJob.pid).length = s.jobs.length := List.length_map _
      exact haccounted.nrunning_eq.trans (congrArg Nat.cast hlength)
    · exact fun job hjob => haccounted.forked job.pid (List.mem_map_of_mem hjob)
  · intro s hreach
    have hbounded : (slots out s).Bounded :=
      hreach.invariant (fun _ hinitial => bounded_initial hlaws hinitial)
        fun _ _ _ hs hallowed hstep => bounded_step hlaws hs hallowed hstep
    exact hbounded.nrunning_le

def sampleOutside : Outside (Finset ℤ × List KnegdReq) where
  children := Prod.fst
  enter := fun _ _ world => (.ok ⟨none, some (ascii "b48a")⟩, world)
  clock := fun world => (some 0, world)
  openLog := fun world => (none, world)
  fork := fun _ world =>
    let pid : ℤ := world.1.sup Int.natAbs + 1
    (some pid, insert pid world.1, world.2)
  time := fun world => (0, world)
  manifest := fun world => (none, world)
  queueInit := fun world => (true, world)
  queuePut := fun req world => some (none, world.1, world.2 ++ [req])
  queueNext := fun world =>
    match world.2 with
    | [] => some (.empty, world)
    | req :: queue => some (.entry req 0, world.1, queue)
  queueContains := fun _ world => some (false, world)
  reap := fun pid world => (world.1.erase pid, world.2)

theorem sampleOutside_laws : sampleOutside.Laws where
  forks_fork := by
    intro exec world
    refine ⟨fun hmem => ?_, rfl⟩
    have hle : Int.natAbs (world.1.sup Int.natAbs + 1) ≤ world.1.sup Int.natAbs :=
      Finset.le_sup (f := Int.natAbs) hmem
    omega
  children_reap := fun _ _ => rfl
  children_enter := fun _ _ _ => rfl
  children_clock := fun _ => rfl
  children_openLog := fun _ => rfl
  children_time := fun _ => rfl
  children_manifest := fun _ => rfl
  children_queueInit := fun _ => rfl
  children_queuePut := by
    intro req world err after h
    cases h
    rfl
  children_queueNext := by
    intro world next after h
    simp only [sampleOutside] at h
    split at h <;> cases h <;> rfl
  children_queueContains := by
    intro id world contains after h
    cases h
    rfl

def sampleOpts : KngOpts := ⟨1, 60, by decide, by decide⟩

def sampleEvents : List (Event (Finset ℤ × List KnegdReq)) :=
  let req : KnegdReq := ⟨0, some (ascii "queue"), some (ascii "b48a"), none, some (ascii "scan")⟩
  [.readable 5, .request 5 (.request req), .readable 6, .request 6 (.request req),
    .reapedChild 1, .tick]

def sampleInitial : State (Finset ℤ × List KnegdReq) where
  jobs := []
  kngq := ⟨1, 0, 0⟩
  respbufs := fun _ => none
  signals := []
  world := (∅, [])

theorem slots_accounted_sample :
    ∃ s, Reachable (Initial sampleOutside sampleOpts)
        (fun s event => ¬ StartsDirectly sampleOutside sampleOpts s event)
        (Step sampleOutside sampleOpts) s ∧
      s.kngq = ⟨1, 1, 0⟩ ∧ s.kngq.nrunning = s.jobs.length ∧
      (∀ job ∈ s.jobs, job.pid ∈ s.world.1) ∧ s.kngq.nrunning ≤ s.kngq.nslots := by
  have hrun : ((sampleEvents.foldlM (fun s event =>
      (step sampleOutside sampleOpts 2 s event).map Prod.snd) sampleInitial).map State.kngq) =
        some ⟨1, 1, 0⟩ := by
    decide +kernel
  obtain ⟨s, hs, hkngq⟩ := Option.map_eq_some_iff.mp hrun
  have hinitial : Initial sampleOutside sampleOpts sampleInitial := ⟨2, (∅, []), rfl⟩
  have hindirect : ∀ event ∈ sampleEvents, ∀ s : State (Finset ℤ × List KnegdReq),
      ¬ StartsDirectly sampleOutside sampleOpts s event := by
    have haction : ¬ strEq (some (ascii "queue")) "start" := by decide
    simp only [sampleEvents, List.forall_mem_cons]
    exact ⟨fun _ h => h, fun _ h => haction h.1, fun _ h => h, fun _ h => haction h.1,
      fun _ h => h, fun _ h => h, by simp⟩
  have hreach : Reachable (Initial sampleOutside sampleOpts)
      (fun s event => ¬ StartsDirectly sampleOutside sampleOpts s event)
      (Step sampleOutside sampleOpts) s := by
    refine Reachable.foldlM ?_ hindirect (.initial hinitial) hs
    intro s event after h
    obtain ⟨answer, hanswer, rfl⟩ := Option.map_eq_some_iff.mp h
    exact ⟨2, answer.1, hanswer⟩
  have hall := @slots_accounted _ sampleOutside sampleOpts sampleOutside_laws
  have hcount := hall.1 s (hreach.relax fun _ _ _ => trivial)
  exact ⟨s, hreach, hkngq, hcount.1, hcount.2.2, hall.2 s hreach⟩

end Yans.Apps.Knegd
