import Yans.Apps.KnegdBusy
import Yans.Apps.KnegdEntries

/-! What becomes of the jobs whose request to be queued is answered OK. A run keeps a
record of the answers, of the entries that are taken from the queue and of the
children that are reaped. -/
namespace Yans.Apps.Knegd

open Library.Memory Library.Runs Library.Strings Util

/-! The directory in a run -/

structure Stand where
  basepath : Bytes
  seq : ℕ
  disk : Disk

structure Tidy (base : Bytes) (disk : Disk) : Prop where
  ids : ∀ file req, disk.files file = some (some req) → 47 ∉ idOf req
  links : ∀ at_, disk.links at_ ≠ none → ¬ IsEntryPlace base at_

def Numbered (base : Bytes) (seq : ℕ) (file : Place) : Prop :=
  ∃ t, ∃ number < seq, file = entryPlace base t number

structure Stocked (base : Bytes) (left : Disk) (stand : Stand) : Prop where
  basepath_eq : stand.basepath = base
  seq_lt : stand.seq < 2 ^ 64
  tidy : Tidy base stand.disk
  files : ∀ file, stand.disk.files file ≠ none →
    left.files file ≠ none ∨ Numbered base stand.seq file

variable {file : Place}

theorem Numbered.mono {base : Bytes} {seq later : ℕ} (h : Numbered base seq file)
    (hle : seq ≤ later) : Numbered base later file := by
  obtain ⟨t, number, hlt, hfile⟩ := h
  exact ⟨t, number, by omega, hfile⟩

theorem not_numbered (base : Bytes) (t : ℤ) (seq : ℕ) :
    ¬ Numbered base seq (entryPlace base t seq) := by
  rintro ⟨u, number, hlt, hplace⟩
  have hsame := (entryPlace_inj hplace).2
  omega

theorem Numbered.isEntryPlace {base : Bytes} {seq : ℕ}
    (h : Numbered base seq file) : IsEntryPlace base file := by
  obtain ⟨t, number, -, rfl⟩ := h
  exact isEntryPlace_entryPlace base t number

theorem Tidy.remove {base : Bytes} {disk : Disk} (h : Tidy base disk) (at_ : Place) :
    Tidy base (disk.remove at_) where
  ids := by
    intro file req hfile
    unfold Disk.remove at hfile
    dsimp only at hfile
    rw [Function.update_apply] at hfile
    split at hfile
    · cases hfile
    · exact h.ids file req hfile
  links := by
    intro link hlink
    unfold Disk.remove at hlink
    dsimp only at hlink
    rw [Function.update_apply] at hlink
    split at hlink
    · exact absurd rfl hlink
    · exact h.links link hlink

theorem Stocked.remove {base : Bytes} {left : Disk} {stand : Stand} (h : Stocked base left stand)
    (at_ : Place) : Stocked base left { stand with disk := stand.disk.remove at_ } where
  basepath_eq := h.basepath_eq
  seq_lt := h.seq_lt
  tidy := h.tidy.remove at_
  files := by
    intro file hfile
    unfold Disk.remove at hfile
    dsimp only at hfile
    rw [Function.update_apply] at hfile
    split at hfile
    · exact absurd rfl hfile
    · exact h.files file hfile

variable {req : KnegdReq}

theorem Stocked.add {base : Bytes} {left : Disk} {stand after : Stand} (h : Stocked base left stand) (hid : 47 ∉ idOf req)
    (hbase : after.basepath = stand.basepath) (hseq : stand.seq ≤ after.seq)
    (hlt : after.seq < 2 ^ 64)
    (hlinks : ∀ at_, after.disk.links at_ ≠ none →
      stand.disk.links at_ ≠ none ∨ ¬ IsEntryPlace base at_)
    (hothers : ∀ other, other ≠ file → after.disk.files other = stand.disk.files other)
    (hfile : ∀ content, after.disk.files file = some content →
      (content = none ∨ content = some req) ∧ Numbered base after.seq file) :
    Stocked base left after where
  basepath_eq := hbase.trans h.basepath_eq
  seq_lt := hlt
  tidy := {
    ids := by
      intro other found hfound
      by_cases hother : other = file
      · rw [hother] at hfound
        cases (hfile _ hfound).1 with
        | inl hnone => cases hnone
        | inr hreq =>
          cases hreq
          exact hid
      · rw [hothers other hother] at hfound
        exact h.tidy.ids other found hfound
    links := fun at_ hlink => (hlinks at_ hlink).elim (h.tidy.links at_) fun hplace => hplace }
  files := by
    intro other hthere
    by_cases hother : other = file
    · rw [hother] at hthere ⊢
      obtain ⟨content, hcontent⟩ := Option.ne_none_iff_exists'.mp hthere
      exact .inr (hfile content hcontent).2
    · rw [hothers other hother] at hthere
      exact (h.files other hthere).imp_right fun hnumbered => hnumbered.mono hseq

section

variable {World : Type} {fs : Fs World} {rest : Outside World} {disk : World → Disk}

def stand (disk : World → Disk) (q : Queue World) : Stand :=
  ⟨q.kngq.basepath, q.kngq.seq, disk q.world⟩

theorem Host.keepsStand (host : Host fs rest disk) : (rest.withQueue fs).Keeps (stand disk) where
  enter := fun id name q => congrArg (Stand.mk _ _) (host.apart.enter id name q.world)
  clock := fun q => congrArg (Stand.mk _ _) (host.apart.clock q.world)
  openLog := fun q => congrArg (Stand.mk _ _) (host.apart.openLog q.world)
  fork := fun exec q => congrArg (Stand.mk _ _) (host.apart.fork exec q.world)
  time := fun q => congrArg (Stand.mk _ _) (host.apart.time q.world)
  manifest := fun q => congrArg (Stand.mk _ _) (host.apart.manifest q.world)

theorem Host.keepsStandContains (host : Host fs rest disk) :
    (rest.withQueue fs).KeepsContains (stand disk) := by
  intro id q contains after h
  obtain ⟨dirpath, -, h⟩ := Option.bind_eq_some_iff.mp h
  dsimp only at h
  split at h
  · cases h
    rfl
  · cases h
    exact congrArg (Stand.mk _ _) (host.files.stat _ _)

theorem Stocked.takes (hlaws : fs.Laws disk) {base : Bytes} {left : Disk} {q after : Queue World}
    {path : Bytes} {next : Next} (h : Stocked base left (stand disk q))
    (htakes : Takes fs q path next after) :
    Stocked base left (stand disk after) ∧
      (∀ file, IsEntryPlace base file → file ≠ place path →
        (disk after.world).files file = (disk q.world).files file) ∧
      ∀ req ctime, next = .entry req ctime →
        (disk q.world).files (place path) = some (some req) := by
  obtain ⟨hsame, htaken⟩ := htakes.taken hlaws fun req => h.tidy.ids (place path) req
  have hstand : ∀ d, disk after.world = d →
      stand disk after = { stand disk q with disk := d } := by
    rintro d rfl
    unfold stand
    rw [hsame.basepath, hsame.seq]
  have hremove : ∀ (d : Disk) (file at_ : Place), file ≠ at_ →
      (d.remove at_).files file = d.files file := fun d file at_ hne =>
    Function.update_of_ne hne _ _
  cases htaken with
  | failure hafter =>
    refine ⟨?_, ?_, (by simp)⟩
    · cases hafter with
      | inl hkept => exact hstand _ hkept ▸ h
      | inr hgone => exact hstand _ hgone ▸ h.remove (place path)
    · intro file _ hne
      cases hafter with
      | inl hkept => rw [hkept]
      | inr hgone => rw [hgone, hremove _ _ _ hne]
  | @entry req ctime mid hfile hmid _ hafter _ =>
    have hmiddle : Stocked base left { stand disk q with disk := mid } ∧
        ∀ file, IsEntryPlace base file → mid.files file = (disk q.world).files file := by
      obtain rfl | ⟨hlong, rfl⟩ := hmid
      · exact ⟨h, fun _ _ => rfl⟩
      · refine ⟨h.remove _, fun file hentry => hremove _ _ _ ?_⟩
        rintro rfl
        have hbase : q.kngq.basepath = base := h.basepath_eq
        rw [hbase] at hentry
        exact not_isEntryPlace_linkPlace hlong (h.tidy.ids _ _ hfile) hentry
    refine ⟨?_, ?_, ?_⟩
    · cases hafter with
      | inl hkept => exact hstand _ hkept ▸ hmiddle.1
      | inr hgone => exact hstand _ hgone ▸ hmiddle.1.remove (place path)
    · intro file hentry hne
      rw [← hmiddle.2 file hentry]
      cases hafter with
      | inl hkept => rw [hkept]
      | inr hgone => rw [hgone, hremove _ _ _ hne]
    · rintro _ _ ⟨⟩
      exact hfile

theorem Stocked.put (hlaws : fs.Laws disk) {base : Bytes} {left : Disk} {q after : Queue World} {put : Bool} (h : Stocked base left (stand disk q))
    (hbase : base.length ≤ 251) (hseq : q.kngq.seq + 1 < 2 ^ 64)
    (hleft : left.files (entryPlace base (fs.time q.world).1 q.kngq.seq) = none)
    (hid : 47 ∉ idOf req) (hput : kngqPut fs req q = some (put, after)) :
    Stocked base left (stand disk after) ∧ q.kngq.seq ≤ after.kngq.seq ∧
      (∀ file, file ≠ entryPlace base (fs.time q.world).1 q.kngq.seq →
        (disk after.world).files file = (disk q.world).files file) ∧
      (put = true → q.kngq.seq < after.kngq.seq ∧
        (disk after.world).files (entryPlace base (fs.time q.world).1 q.kngq.seq) =
          some (some req.filed)) := by
  have hbasepath : q.kngq.basepath = base := h.basepath_eq
  have hplace : place (entryPath q.kngq (timestrOf (fs.time q.world).1)) =
      entryPlace base (fs.time q.world).1 q.kngq.seq := by
    rw [place_entryPath (by rw [hbasepath]; omega) h.seq_lt, hbasepath]
  have hentry := isEntryPlace_entryPlace base (fs.time q.world).1 q.kngq.seq
  have hnew := not_numbered base (fs.time q.world).1 q.kngq.seq
  generalize hfile : entryPlace base (fs.time q.world).1 q.kngq.seq = file at *
  have hfree : (disk q.world).files file = none := by
    by_contra hthere
    cases h.files file hthere with
    | inl hkept => exact hkept hleft
    | inr hnumbered => exact hnew hnumbered
  have hnolink : (disk q.world).links file = none := by
    by_contra hthere
    exact h.tidy.links file hthere hentry
  obtain ⟨hsamebase, hnumber, hcase⟩ :=
    kngqPut_cases hlaws (hplace ▸ hfree) (hplace ▸ hnolink) hid hput
  rw [← idOf_filed] at hid
  rw [hplace, hbasepath] at hcase
  have hseqs : after.kngq.seq = q.kngq.seq + 1 ∨
      put = false ∧ after.kngq.seq = q.kngq.seq ∧ disk after.world = disk q.world := by
    cases hnumber with
    | inl hnext => exact .inl (hnext.trans (Nat.mod_eq_of_lt hseq))
    | inr hsame => exact .inr hsame
  have hnumbered : q.kngq.seq < after.kngq.seq → Numbered base after.kngq.seq file :=
    fun hlt => ⟨_, _, hlt, hfile.symm⟩
  cases hcase with
  | linked hlong _ _ hafter =>
    have hnext : after.kngq.seq = q.kngq.seq + 1 := hseqs.resolve_right fun hsame => by
      cases hsame.1
    have hfiles : (disk after.world).files =
        Function.update (disk q.world).files file (some (some req.filed)) := by rw [hafter]; rfl
    have hothers : ∀ other, other ≠ file →
        (disk after.world).files other = (disk q.world).files other := by
      intro other hother
      rw [hfiles, Function.update_of_ne hother]
    have hput : (disk after.world).files file = some (some req.filed) := by
      rw [hfiles, Function.update_self]
    refine ⟨h.add hid hsamebase (by unfold stand; dsimp only; omega)
      (by unfold stand; dsimp only; omega) ?_ hothers ?_, by omega, hothers,
      fun _ => ⟨by omega, hput⟩⟩
    · intro link hlink
      change (disk after.world).links link ≠ none at hlink
      by_cases hnew : link = linkPlace base (idOf req.filed)
      · exact .inr (hnew ▸ not_isEntryPlace_linkPlace hlong hid)
      · rw [hafter] at hlink
        unfold Disk.setLink Disk.setFile at hlink
        dsimp only at hlink
        rw [Function.update_of_ne hnew] at hlink
        exact .inl hlink
    · intro content hcontent
      rw [show (stand disk after).disk.files file = some (some req.filed) from hput] at hcontent
      exact ⟨.inr (Option.some.inj hcontent).symm, hnumbered (by omega)⟩
  | failed hlinks hothers hcontent _ =>
    obtain hnext | ⟨-, hsame, hdisk⟩ := hseqs
    · refine ⟨h.add hid hsamebase (by unfold stand; dsimp only; omega)
        (by unfold stand; dsimp only; omega) ?_ hothers ?_, by omega, hothers, (by simp)⟩
      · intro link hlink
        change (disk after.world).links link ≠ none at hlink
        rw [hlinks] at hlink
        exact .inl hlink
      · exact fun content hfound => ⟨hcontent content hfound, hnumbered (by omega)⟩
    · refine ⟨?_, by omega, hothers, (by simp)⟩
      unfold stand at h ⊢
      rwa [hsamebase, hsame, hdisk]

end

/-- An accepted job has a child that runs it or an entry that waits for one. -/
inductive Kept where
  | child (pid : ℤ)
  | entry (file : Place)

inductive Record where
  | accepted (req : KnegdReq) (kept : Kept)
  | taken (file : Place) (outcome : Outcome)
  | reaped (pid : ℤ)

structure Accepted (req : KnegdReq) (response : Option Response) : Prop where
  action : strEq req.action "queue"
  response_eq : response = writeOkResponse (ascii "OK")

section

variable {World : Type} (fs : Fs World) (rest : Outside World) (opts : KngOpts)
  (disk : World → Disk)

/-- The place of the entry that `kngq_put` makes next. -/
def nextEntry (q : Queue World) : Place :=
  place (entryPath q.kngq (timestrOf (fs.time q.world).1))

inductive KeptBy (s after : State (Queue World)) : Kept → Prop where
  | child {job : KngJob} (hfree : kngqNavailable s.kngq > 0) (hjobs : after.jobs = job :: s.jobs) :
    KeptBy s after (.child job.pid)
  | entry (hfull : ¬ kngqNavailable s.kngq > 0) : KeptBy s after (.entry (nextEntry fs s.world))

def recordOf (taken : Bytes × Outcome) : Record := .taken (place taken.1) taken.2

inductive Records (s : State (Queue World)) :
    Event (Queue World) → Option Response → State (Queue World) → List Record → Prop where
  | accepted {fd : ℤ} {req : KnegdReq} {response : Option Response} {after : State (Queue World)}
    {kept : Kept} (haccepted : Accepted req response) (hkept : KeptBy fs s after kept) :
    Records s (.request fd (.request req)) response after [.accepted req kept]
  | reaped {pid : ℤ} {response : Option Response} {after : State (Queue World)}
    {taken : List (Bytes × Outcome)}
    (hdispatch : Dispatch fs rest opts (kngqNavailable (freed (rest.withQueue fs) pid s).kngq)
      (freed (rest.withQueue fs) pid s) taken after) :
    Records s (.reapedChild pid) response after (.reaped pid :: taken.map recordOf)
  | nothing {event : Event (Queue World)} {response : Option Response}
    {after : State (Queue World)}
    (hrequest : ∀ fd req, event = .request fd (.request req) → ¬ Accepted req response)
    (hreaped : ∀ pid, event ≠ .reapedChild pid) : Records s event response after []

abbrev Recorded (World : Type) := State (Queue World) × List Record

def StepRecorded (before : Recorded World) (event : Event (Queue World))
    (after : Recorded World) : Prop :=
  ∃ rounds response records,
    step (rest.withQueue fs) opts rounds before.1 event = some (response, after.1) ∧
      Records fs rest opts before.1 event response after.1 records ∧
        after.2 = before.2 ++ records

/-- The numbers do not run out, and no new entry gets the place of one that was there
when the daemon was started. -/
def NewEntry (left : Disk) (s : State (Queue World)) (event : Event (Queue World)) : Prop :=
  ∀ fd req, event = .request fd (.request req) → Queues s.kngq req →
    s.world.kngq.seq + 1 < 2 ^ 64 ∧ left.files (nextEntry fs s.world) = none

def Ran (s : State (Queue World)) (later : List Record) (pid : ℤ) : Prop :=
  pid ∈ s.jobs.map KngJob.pid ∨ .reaped pid ∈ later

def Survives (s : State (Queue World)) (req : KnegdReq) (later : List Record) : Kept → Prop
  | .child pid => Ran s later pid
  | .entry file => (disk s.world.world).files file = some (some req) ∨
      ∃ between pid rest, later = between ++ .taken file (.started pid) :: rest ∧ Ran s rest pid

def Dropped (later : List Record) : Kept → Prop
  | .child _ => False
  | .entry file => .taken file .unreadable ∈ later ∨ ∃ err, .taken file (.failed err) ∈ later

end

variable {response : Option Response}

section

variable {World : Type} {fs : Fs World} {rest : Outside World} {opts : KngOpts}
  {disk : World → Disk}

theorem Ran.append {s after : State (Queue World)} {later records : List Record} {pid : ℤ}
    (hran : ∀ pid ∈ s.jobs.map KngJob.pid, Ran after records pid) (h : Ran s later pid) :
    Ran after (later ++ records) pid := by
  cases h with
  | inl hruns => exact (hran pid hruns).imp_right fun hmem => List.mem_append_right _ hmem
  | inr hreaped => exact .inr (List.mem_append_left _ hreaped)

/-! Entries that are taken -/

theorem startKnegdJob_jobs {out : Outside (Queue World)} (req : KnegdReq)
    (s : State (Queue World)) :
    (∀ err started, startKnegdJob out opts req s = (.error err, started) →
      started.jobs = s.jobs) ∧
    ∀ job started, startKnegdJob out opts req s = (.ok job, started) →
      started.jobs = job :: s.jobs := by
  unfold startKnegdJob
  dsimp only
  split
  · constructor
    · rintro err started ⟨⟩
      rfl
    · rintro job started ⟨⟩
  · constructor
    · rintro err started ⟨⟩
    · rintro job started ⟨⟩
      rfl

def Fate (disk : World → Disk) (after : State (Queue World)) (req : KnegdReq)
    (records : List Record) (file : Place) : Prop :=
  Survives disk after req records (.entry file) ∨ Dropped records (.entry file)

theorem Fate.cons {after : State (Queue World)} {records : List Record} (h : Fate disk after req records file) (record : Record) :
    Fate disk after req (record :: records) file := by
  obtain (hwaits | ⟨between, pid, rest, rfl, hran⟩) | (hmem | ⟨err, hmem⟩) := h
  · exact .inl (.inl hwaits)
  · exact .inl (.inr ⟨record :: between, pid, rest, rfl, hran⟩)
  · exact .inr (.inl (List.mem_cons_of_mem _ hmem))
  · exact .inr (.inr ⟨err, List.mem_cons_of_mem _ hmem⟩)

structure Moves (base : Bytes) (left : Disk) (disk : World → Disk)
    (s after : State (Queue World)) (records : List Record) : Prop where
  stocked : Stocked base left (stand disk after.world)
  seq_eq : after.world.kngq.seq = s.world.kngq.seq
  runs : ∀ pid ∈ s.jobs.map KngJob.pid, pid ∈ after.jobs.map KngJob.pid
  waits : ∀ file req, IsEntryPlace base file → lenOf req.type ≠ 0 → lenOf req.id ≠ 0 →
    (disk s.world.world).files file = some (some req) → Fate disk after req records file

theorem Moves.cons (hlaws : fs.Laws disk) {base : Bytes} {left : Disk}
    {s mid after : State (Queue World)} {path : Bytes} {next : Next} {q : Queue World}
    {outcome : Outcome} {records : List Record} (hs : Stocked base left (stand disk s.world))
    (htakes : Takes fs s.world path next q) (hstand : stand disk mid.world = stand disk q)
    (hjobs : ∀ pid ∈ s.jobs.map KngJob.pid, pid ∈ mid.jobs.map KngJob.pid)
    (hrest : Stocked base left (stand disk mid.world) → Moves base left disk mid after records)
    (hfate : ∀ req, lenOf req.type ≠ 0 → lenOf req.id ≠ 0 →
      (disk s.world.world).files (place path) = some (some req) →
        (∀ pid ∈ mid.jobs.map KngJob.pid, pid ∈ after.jobs.map KngJob.pid) →
          Fate disk after req (.taken (place path) outcome :: records) (place path)) :
    Moves base left disk s after (.taken (place path) outcome :: records) := by
  obtain ⟨hq, hothers, -⟩ := hs.takes hlaws htakes
  have hmoves := hrest (hstand ▸ hq)
  have hfiles : disk mid.world.world = disk q.world := congrArg Stand.disk hstand
  have hseq : mid.world.kngq.seq = s.world.kngq.seq :=
    (congrArg Stand.seq hstand).trans
      (htakes.taken hlaws fun req => hs.tidy.ids (place path) req).1.seq
  refine ⟨hmoves.stocked, hmoves.seq_eq.trans hseq,
    fun pid hpid => hmoves.runs pid (hjobs pid hpid), ?_⟩
  intro file req hentry htype hid hfile
  by_cases hsame : file = place path
  · rw [hsame] at hfile ⊢
    exact hfate req htype hid hfile hmoves.runs
  · refine (hmoves.waits file req hentry htype hid ?_).cons _
    rw [hfiles, hothers file hentry hsame]
    exact hfile

theorem Dispatch.moves (host : Host fs rest disk) {base : Bytes} {left : Disk} {n : ℤ}
    {s after : State (Queue World)} {taken : List (Bytes × Outcome)}
    (h : Dispatch fs rest opts n s taken after) (hs : Stocked base left (stand disk s.world)) :
    Moves base left disk s after (taken.map recordOf) := by
  have hstill : ∀ {s : State (Queue World)}, Stocked base left (stand disk s.world) →
      Moves base left disk s s [] := fun hs =>
    ⟨hs, rfl, fun _ hpid => hpid, fun _ _ _ _ _ hfile => .inl (.inl hfile)⟩
  have hread := fun {s : State (Queue World)} {path : Bytes} {req : KnegdReq} {ctime : ℤ}
      {q : Queue World} (hs : Stocked base left (stand disk s.world))
      (htakes : Takes fs s.world path (.entry req ctime) q) =>
    (hs.takes host.files htakes).2.2 req ctime rfl
  induction h with
  | full => exact hstill hs
  | @empty n s q hpos hnone hnext =>
    cases nextFile_of_kngqNext hnext with
    | none _ =>
      have hdisk := host.files.nextFile s.world.world
      refine ⟨?_, rfl, fun _ hpid => hpid, fun _ _ _ _ _ hfile => .inl (.inl ?_)⟩
      · unfold stand at hs ⊢
        rwa [← hdisk] at hs
      · rwa [← hdisk] at hfile
    | opened hfile _ _ =>
      rw [hfile] at hnone
      cases hnone
  | @unreadable n s path q hpos htakes =>
    refine @Moves.cons _ _ _ host.files _ _ _ { s with world := q } _ _ _ _ _ _ hs htakes rfl
      (fun _ hpid => hpid) hstill ?_
    exact fun req _ _ _ _ => .inr (.inl List.mem_cons_self)
  | @incomplete n s after path q req ctime taken hpos htakes hmissing hrest ih =>
    refine @Moves.cons _ _ _ host.files _ _ _ { s with world := q } _ _ _ _ _ _ hs htakes rfl
      (fun _ hpid => hpid) ih ?_
    intro found htype hid hfile _
    rw [hread hs htakes] at hfile
    cases hfile
    exact absurd hmissing (not_or.mpr ⟨htype, hid⟩)
  | @failed n s started after path q req ctime err taken hpos htakes hcomplete hstart hrest ih =>
    have hstand := @Outside.Keeps.startKnegdJob _ _ _ opts _ host.keepsStand req
      { s with world := q }
    rw [hstart] at hstand
    have hjobs := (startKnegdJob_jobs _ _).1 _ _ hstart
    refine Moves.cons host.files hs htakes hstand ?_ ih ?_
    · intro pid hpid
      rwa [hjobs]
    · exact fun _ _ _ _ _ => .inr (.inr ⟨err, List.mem_cons_self⟩)
  | @started n s started after path q req ctime job taken hpos htakes hcomplete hstart hrest ih =>
    have hstand := @Outside.Keeps.startKnegdJob _ _ _ opts _ host.keepsStand req
      { s with world := q }
    rw [hstart] at hstand
    have hjobs := (startKnegdJob_jobs _ _).2 _ _ hstart
    have htime : stand disk (dispatched fs rest ctime started).world = stand disk q :=
      (host.keepsStand.time _).trans hstand
    refine Moves.cons host.files hs htakes htime ?_ ih ?_
    · intro pid hpid
      change pid ∈ started.jobs.map KngJob.pid
      rw [hjobs]
      exact List.mem_cons_of_mem _ hpid
    · intro found _ _ _ hruns
      refine .inl (.inr ⟨[], job.pid, _, rfl, .inl (hruns job.pid ?_)⟩)
      change job.pid ∈ started.jobs.map KngJob.pid
      rw [hjobs]
      exact List.mem_cons_self

theorem onRequest_accepted {out : Outside (Queue World)} {fd : ℤ} {respbuf : Buf} {s after : State (Queue World)}
    (h : onRequest out opts fd respbuf req s = some (response, after))
    (haccepted : Accepted req response) :
    lenOf req.type ≠ 0 ∧ lenOf req.id ≠ 0 ∧
      ((kngqNavailable s.kngq > 0 ∧ ∃ job, after.jobs = job :: s.jobs) ∨
        (Queues s.kngq req ∧ ∃ world, out.queuePut req s.world = some (none, world) ∧
          after.world = world)) := by
  obtain ⟨haction, rfl⟩ := haccepted
  unfold onRequest onIdAction onQueue at h
  rw [if_neg (not_isEmpty_of_strEq haction (by decide))] at h
  by_cases hmanifest : lenOf req.type > 0 ∧ strEq req.type "MANIFEST"
  · rw [if_pos hmanifest] at h
    cases h
  rw [if_neg hmanifest, if_neg (not_strEq haction (by decide)),
    if_neg (not_strEq haction (by decide)), if_neg (not_strEq haction (by decide))] at h
  by_cases hid : IsEmpty req.id
  · rw [if_pos hid] at h
    cases h
  rw [if_neg hid] at h
  rw [if_pos haction] at h
  by_cases htype : IsValidType req.type
  swap
  · rw [if_pos htype] at h
    cases h
  refine ⟨lenOf_ne_zero htype.1, lenOf_ne_zero hid, ?_⟩
  rw [if_neg (not_not.mpr htype), if_neg (lenOf_ne_zero hid)] at h
  by_cases hcomponent : 47 ∈ cstring (req.id.getD [])
  · rw [if_pos hcomponent] at h
    cases h
  rw [if_neg hcomponent] at h
  by_cases hfree : kngqNavailable s.kngq > 0
  · rw [if_pos hfree] at h
    split at h
    · cases h
    · rename_i job started hstart
      have hjobs := (startKnegdJob_jobs _ _).2 _ _ hstart
      cases h
      exact .inl ⟨hfree, job, hjobs⟩
  · rw [if_neg hfree] at h
    obtain ⟨⟨errmsg, world⟩, hput, h⟩ := Option.bind_eq_some_iff.mp h
    cases errmsg with
    | some errmsg => cases h
    | none =>
      cases h
      exact .inr ⟨⟨⟨hmanifest, hid⟩, haction, htype, hcomponent, hfree⟩, _, hput, rfl⟩

theorem lenOf_filter (data : Option Bytes) : lenOf (data.filter (· ≠ [])) = lenOf data :=
  congrArg List.length (getD_filter data)

structure Carries (base : Bytes) (left : Disk) (disk : World → Disk)
    (s after : State (Queue World)) (records : List Record) : Prop where
  stocked : Stocked base left (stand disk after.world)
  seq_le : s.world.kngq.seq ≤ after.world.kngq.seq
  runs : ∀ pid ∈ s.jobs.map KngJob.pid, Ran after records pid
  waits : ∀ file req, Numbered base s.world.kngq.seq file → lenOf req.type ≠ 0 → lenOf req.id ≠ 0 →
    (disk s.world.world).files file = some (some req) → Fate disk after req records file

structure Holds (base : Bytes) (disk : World → Disk) (s : State (Queue World)) (req : KnegdReq)
    (kept : Kept) : Prop where
  entry : ∀ file, kept = .entry file →
    Numbered base s.world.kngq.seq file ∧ lenOf req.filed.type ≠ 0 ∧ lenOf req.filed.id ≠ 0
  survives : Survives disk s req.filed [] kept

section

variable {base : Bytes} {left : Disk} {s after : State (Queue World)} {records : List Record}

theorem Carries.still (hs : Stocked base left (stand disk s.world))
    (hstand : stand disk after.world = stand disk s.world)
    (hruns : ∀ pid ∈ s.jobs.map KngJob.pid, pid ∈ after.jobs.map KngJob.pid) :
    Carries base left disk s after records where
  stocked := hstand ▸ hs
  seq_le := (congrArg Stand.seq hstand).ge
  runs := fun pid hpid => .inl (hruns pid hpid)
  waits := fun file req _ _ _ hfile => .inl (.inl (by
    rw [show disk after.world.world = disk s.world.world from congrArg Stand.disk hstand]
    exact hfile))

variable (host : Host fs rest disk) (hlaws : (rest.withQueue fs).Laws) (hbase : base.length ≤ 251)

include host hlaws hbase

theorem carries_onRequest {fd : ℤ} {respbuf : Buf}
    (hs : Stocked base left (stand disk s.world))
    (hnew : NewEntry fs left s (.request fd (.request req)))
    (h : onRequest (rest.withQueue fs) opts fd respbuf req s = some (response, after)) :
    Carries base left disk s after records ∧
      ∀ kept, Accepted req response → KeptBy fs s after kept →
        Holds base disk after req kept := by
  by_cases hqueues : Queues s.kngq req
  · have hanswer := h
    rw [onRequest_queue hqueues] at h
    obtain ⟨⟨errmsg, q⟩, hcall, h⟩ := Option.map_eq_some_iff.mp h
    obtain ⟨⟨put, q'⟩, hput, hq⟩ := Option.map_eq_some_iff.mp hcall
    obtain ⟨herrmsg, rfl⟩ := Prod.mk.inj hq
    obtain ⟨hresponse, rfl⟩ := Prod.mk.inj h
    obtain ⟨hseq, hleft⟩ := hnew fd req rfl hqueues
    have hplace : nextEntry fs s.world =
        entryPlace base (fs.time s.world.world).1 s.world.kngq.seq := by
      have hbasepath : s.world.kngq.basepath = base := hs.basepath_eq
      unfold nextEntry
      rw [place_entryPath (by rw [hbasepath]; omega) hs.seq_lt, hbasepath]
    obtain ⟨hstocked, hle, hothers, hmade⟩ :=
      hs.put host.files hbase hseq (hplace ▸ hleft) hqueues.component hput
    refine ⟨⟨hstocked, hle, fun pid hpid => .inl hpid, ?_⟩, fun kept haccepted hkept => ?_⟩
    · intro file found hnumbered _ _ hfile
      refine .inl (.inl ((hothers file ?_).trans hfile))
      rintro rfl
      exact not_numbered _ _ _ hnumbered
    · cases hkept with
      | child hfree _ => exact absurd hfree hqueues.full
      | entry _ =>
        obtain ⟨htype, hid, -⟩ := onRequest_accepted hanswer haccepted
        cases put with
        | false =>
          have hrefused := haccepted.response_eq
          rw [← hresponse, ← herrmsg] at hrefused
          cases hrefused
        | true =>
          obtain ⟨hlt, hfile⟩ := hmade rfl
          refine ⟨?_, .inl ?_⟩
          · rintro file ⟨⟩
            rw [← lenOf_filter] at htype hid
            exact ⟨⟨_, _, hlt, hplace⟩, htype, hid⟩
          · rw [hplace]
            exact hfile
  · have hstand := (host.keepsStand.onRequest_cases host.keepsStandContains h).resolve_right
      fun hput => hqueues hput.1
    refine ⟨.still hs hstand ?_, fun kept haccepted hkept => ?_⟩
    · intro pid hpid
      obtain hsame | ⟨started, -, hstart, -⟩ := (onRequest_effect hlaws h).slots_eq
      · have hpids : after.jobs.map KngJob.pid = s.jobs.map KngJob.pid :=
          congrArg Slots.pids hsame
        rwa [hpids]
      · have hpids : after.jobs.map KngJob.pid = started :: s.jobs.map KngJob.pid :=
          congrArg Slots.pids hstart
        rw [hpids]
        exact List.mem_cons_of_mem _ hpid
    · obtain ⟨-, -, ⟨hfree, -⟩ | ⟨hput, -⟩⟩ := onRequest_accepted h haccepted
      · cases hkept with
        | child _ hjobs =>
          refine ⟨(by simp), .inl ?_⟩
          rw [hjobs]
          exact List.mem_cons_self
        | entry hfull => exact absurd hfree hfull
      · exact absurd hput hqueues

omit hbase in
theorem carries_reapedChild {pid : ℤ} {taken : List (Bytes × Outcome)}
    (hs : Stocked base left (stand disk s.world))
    (h : Dispatch fs rest opts (kngqNavailable (freed (rest.withQueue fs) pid s).kngq)
      (freed (rest.withQueue fs) pid s) taken after) :
    Carries base left disk s after (.reaped pid :: taken.map recordOf) := by
  have hworld : (freed (rest.withQueue fs) pid s).world =
      { s.world with world := rest.reap pid s.world.world } := by
    unfold freed
    dsimp only
    split <;> rfl
  have hstand : stand disk (freed (rest.withQueue fs) pid s).world = stand disk s.world := by
    rw [hworld]
    exact congrArg (Stand.mk _ _) (host.reap pid s.world.world)
  have hdisk : disk (freed (rest.withQueue fs) pid s).world.world = disk s.world.world :=
    congrArg Stand.disk hstand
  have hpids : (freed (rest.withQueue fs) pid s).jobs.map KngJob.pid =
      (s.jobs.map KngJob.pid).erase pid := congrArg Slots.pids (slots_freed hlaws pid s)
  have hmoves := h.moves host (hstand ▸ hs)
  refine ⟨hmoves.stocked, ?_, ?_, ?_⟩
  · rw [hmoves.seq_eq, hworld]
  · intro other hother
    by_cases hreaped : other = pid
    · exact .inr (hreaped ▸ List.mem_cons_self)
    · refine .inl (hmoves.runs other ?_)
      rw [hpids, List.mem_erase_of_ne hreaped]
      exact hother
  · intro file req hnumbered htype hid hfile
    refine (hmoves.waits file req hnumbered.isEntryPlace htype hid ?_).cons _
    rw [hdisk]
    exact hfile

theorem carries_step {rounds : ℕ} {event : Event (Queue World)}
    (hs : Stocked base left (stand disk s.world)) (hundisturbed : Undisturbed disk s event)
    (hnew : NewEntry fs left s event)
    (hstep : step (rest.withQueue fs) opts rounds s event = some (response, after))
    (hrecords : Records fs rest opts s event response after records) :
    Carries base left disk s after records ∧
      ∀ req kept, .accepted req kept ∈ records →
        records = [.accepted req kept] ∧ Holds base disk after req kept := by
  cases hrecords with
  | accepted haccepted hkept =>
    obtain ⟨respbuf, -, hread⟩ := Option.bind_eq_some_iff.mp hstep
    obtain ⟨hcarries, hholds⟩ := carries_onRequest host hlaws hbase hs hnew hread
    refine ⟨hcarries, ?_⟩
    intro req kept hmem
    cases List.mem_singleton.mp hmem
    exact ⟨rfl, hholds _ haccepted hkept⟩
  | reaped hdispatch =>
    refine ⟨carries_reapedChild host hlaws hs hdispatch, ?_⟩
    intro req kept hmem
    cases List.mem_cons.mp hmem with
    | inl hreaped => cases hreaped
    | inr htaken =>
      obtain ⟨taken, -, hrecord⟩ := List.mem_map.mp htaken
      cases hrecord
  | nothing hrequest hreaped =>
    refine ⟨?_, (by simp)⟩
    cases event with
    | readable fd =>
      cases hstep
      have hsame : (kngOnReadable fd s).jobs = s.jobs ∧ (kngOnReadable fd s).world = s.world := by
        unfold kngOnReadable
        split <;> exact ⟨rfl, rfl⟩
      refine .still hs (by rw [hsame.2]) fun pid hpid => ?_
      rwa [hsame.1]
    | request fd received =>
      obtain ⟨respbuf, -, hread⟩ := Option.bind_eq_some_iff.mp hstep
      cases received with
      | again =>
        cases hread
        exact .still hs rfl fun _ hpid => hpid
      | failure =>
        cases hread
        exact .still hs rfl fun _ hpid => hpid
      | malformed =>
        cases hread
        exact .still hs rfl fun _ hpid => hpid
      | request req => exact (carries_onRequest host hlaws hbase hs hnew hread).1
    | finalize fd =>
      cases hstep
      exact .still hs rfl fun _ hpid => hpid
    | reapedChild pid => exact absurd rfl (hreaped pid)
    | tick =>
      cases hstep
      have hpids : (kngOnTick (rest.withQueue fs) s).jobs.map KngJob.pid =
          s.jobs.map KngJob.pid := congrArg Slots.pids (slots_kngOnTick hlaws s)
      refine .still hs (host.keepsStand.kngOnTick s) fun pid hpid => ?_
      rwa [hpids]
    | elapse q =>
      obtain ⟨hkngq, hdisk⟩ := hundisturbed q rfl
      simp only [Knegd.step] at hstep
      split at hstep
      · cases hstep
        refine .still hs ?_ fun _ hpid => hpid
        unfold stand
        rw [hkngq, hdisk]
      · cases hstep

end

theorem seq_of_kngqInit {before q : Queue World} {made : Bool}
    (h : kngqInit fs before = (made, q)) : q.kngq.seq = 0 := by
  unfold kngqInit mkdir at h
  dsimp only at h
  split at h
  · cases h
    rfl
  · cases h
    rfl

theorem exists_records (s : State (Queue World)) (history : List Record)
    {event : Event (Queue World)} {after : State (Queue World)}
    (h : Step (rest.withQueue fs) opts s event after) :
    ∃ records, StepRecorded fs rest opts (s, history) event (after, history ++ records) := by
  obtain ⟨rounds, response, hstep⟩ := h
  have hnothing : (∀ fd req, event = .request fd (.request req) → ¬ Accepted req response) →
      (∀ pid, event ≠ .reapedChild pid) →
      ∃ records, StepRecorded fs rest opts (s, history) event (after, history ++ records) :=
    fun hrequest hreaped => ⟨[], rounds, response, [], hstep, .nothing hrequest hreaped, rfl⟩
  cases event with
  | readable fd => exact hnothing (by simp) (by simp)
  | request fd received =>
    by_cases haccepted : ∃ req, received = .request req ∧ Accepted req response
    · obtain ⟨req, rfl, haccepted⟩ := haccepted
      have hkept : ∃ kept, KeptBy fs s after kept := by
        obtain ⟨respbuf, -, hread⟩ := Option.bind_eq_some_iff.mp hstep
        obtain ⟨-, -, ⟨hfree, job, hjobs⟩ | ⟨hqueues, -⟩⟩ := onRequest_accepted hread haccepted
        · exact ⟨_, .child hfree hjobs⟩
        · exact ⟨_, .entry hqueues.full⟩
      obtain ⟨kept, hkept⟩ := hkept
      exact ⟨_, rounds, response, _, hstep, .accepted haccepted hkept, rfl⟩
    · refine hnothing ?_ (by simp)
      rintro _ req ⟨⟩ hresponse
      exact haccepted ⟨req, rfl, hresponse⟩
  | finalize fd => exact hnothing (by simp) (by simp)
  | reapedChild pid =>
    obtain ⟨mid, hmid, hrest⟩ := Option.bind_eq_some_iff.mp hstep
    cases hrest
    rw [kngOnSvcReapedChild_eq] at hmid
    obtain ⟨taken, hdispatch⟩ := dispatchAvailable_iff.mp ⟨rounds, hmid⟩
    exact ⟨_, rounds, _, _, hstep, .reaped hdispatch, rfl⟩
  | tick => exact hnothing (by simp) (by simp)
  | elapse q => exact hnothing (by simp) (by simp)

theorem split_append {α : Type} {left right before after : List α} {a : α}
    (h : left ++ right = before ++ a :: after) :
    (∃ mid, left = before ++ a :: mid ∧ after = mid ++ right) ∨
      ∃ mid, before = left ++ mid ∧ right = mid ++ a :: after := by
  obtain ⟨mid, rfl, hright⟩ | ⟨mid, rfl, hafter⟩ := List.append_eq_append_iff.mp h
  · exact .inr ⟨mid, rfl, hright⟩
  · obtain ⟨rfl, rfl⟩ | ⟨rest, rfl, rfl⟩ := List.cons_eq_append_iff.mp hafter
    · exact .inr ⟨[], by simp, rfl⟩
    · exact .inl ⟨rest, rfl, rfl⟩

structure Kept.Invariant (base : Bytes) (left : Disk) (disk : World → Disk)
    (st : Recorded World) : Prop where
  stocked : Stocked base left (stand disk st.1.world)
  entries : ∀ req file, .accepted req (.entry file) ∈ st.2 →
    Numbered base st.1.world.kngq.seq file ∧ lenOf req.filed.type ≠ 0 ∧ lenOf req.filed.id ≠ 0
  fates : ∀ before req kept later, st.2 = before ++ .accepted req kept :: later →
    Survives disk st.1 req.filed later kept ∨ Dropped later kept

section

variable {base : Bytes} {left : Disk} {s after : State (Queue World)} {records : List Record}

theorem Fate.append {later : List Record}
    (h : Fate disk after req records file) : Fate disk after req (later ++ records) file := by
  induction later with
  | nil => exact h
  | cons record later ih => exact ih.cons record

theorem Carries.fate (hcarries : Carries base left disk s after records)
    {kept : Kept} {later : List Record}
    (hentry : ∀ file, kept = .entry file →
      Numbered base s.world.kngq.seq file ∧ lenOf req.type ≠ 0 ∧ lenOf req.id ≠ 0)
    (h : Survives disk s req later kept ∨ Dropped later kept) :
    Survives disk after req (later ++ records) kept ∨ Dropped (later ++ records) kept := by
  cases kept with
  | child pid =>
    cases h with
    | inl hran => exact .inl (Ran.append hcarries.runs hran)
    | inr hdropped => exact absurd hdropped id
  | entry file =>
    obtain (hwaits | ⟨between, pid, rest, rfl, hran⟩) | (hmem | ⟨err, hmem⟩) := h
    · obtain ⟨hnumbered, htype, hid⟩ := hentry file rfl
      exact (hcarries.waits file req hnumbered htype hid hwaits).append
    · refine .inl (.inr ⟨between, pid, rest ++ records, ?_, hran.append hcarries.runs⟩)
      rw [List.append_assoc, List.cons_append]
    · exact .inr (.inl (List.mem_append_left _ hmem))
    · exact .inr (.inr ⟨err, List.mem_append_left _ hmem⟩)

theorem Kept.Invariant.step (host : Host fs rest disk) (hlaws : (rest.withQueue fs).Laws)
    (hbase : base.length ≤ 251) {before after : Recorded World} {event : Event (Queue World)}
    (h : Kept.Invariant base left disk before) (hundisturbed : Undisturbed disk before.1 event)
    (hnew : NewEntry fs left before.1 event)
    (hstep : StepRecorded fs rest opts before event after) :
    Kept.Invariant base left disk after := by
  obtain ⟨rounds, response, records, hcall, hrecords, hhistory⟩ := hstep
  obtain ⟨hcarries, hholds⟩ :=
    carries_step host hlaws hbase h.stocked hundisturbed hnew hcall hrecords
  refine ⟨hcarries.stocked, ?_, ?_⟩
  · intro req file hmem
    rw [hhistory] at hmem
    cases List.mem_append.mp hmem with
    | inl hold =>
      obtain ⟨hnumbered, hlens⟩ := h.entries req file hold
      exact ⟨hnumbered.mono hcarries.seq_le, hlens⟩
    | inr hrecord => exact (hholds req _ hrecord).2.entry file rfl
  · intro first req kept later hsplit
    rw [hhistory] at hsplit
    obtain ⟨mid, hold, rfl⟩ | ⟨mid, rfl, hrecord⟩ := split_append hsplit
    · refine hcarries.fate ?_ (h.fates first req kept mid hold)
      rintro file rfl
      exact h.entries req file (by rw [hold]; exact List.mem_append_right _ List.mem_cons_self)
    · obtain ⟨hone, hkept⟩ := hholds req kept (by
        rw [hrecord]
        exact List.mem_append_right _ List.mem_cons_self)
      have hlater : later = [] := by
        rw [hone] at hrecord
        have hlength := congrArg List.length hrecord
        rw [List.length_append, List.length_cons, List.length_nil, List.length_cons] at hlength
        exact List.length_eq_zero_iff.mp (by omega)
      rw [hlater]
      exact .inl hkept.survives

end

/-- At every moment of a run each job whose request to be queued was answered OK runs,
has run or waits in the queue, unless a dispatch took its entry and could not read it
or could not start it. The directory the daemon is started in is one of its own. -/
theorem accepted_jobs_kept (host : Host fs rest disk) (hlaws : (rest.withQueue fs).Laws)
    {q : Queue World} (hbase : q.kngq.basepath.length ≤ 251)
    (htidy : Tidy q.kngq.basepath (disk q.world)) :
    ∀ st, Reachable (fun st => StartedWith fs rest opts q st.1 ∧ st.2 = [])
        (fun st event => Undisturbed disk st.1 event ∧ NewEntry fs (disk q.world) st.1 event)
        (StepRecorded fs rest opts) st →
      ∀ before req kept later, st.2 = before ++ .accepted req kept :: later →
        Survives disk st.1 req.filed later kept ∨ Dropped later kept := by
  intro st hreach
  have hinvariant : Kept.Invariant q.kngq.basepath (disk q.world) disk st := by
    refine hreach.invariant ?_ ?_
    · rintro ⟨s, history⟩ ⟨⟨⟨first, hinit⟩, rounds, hdispatch⟩, hnone⟩
      have hstart : Stocked q.kngq.basepath (disk q.world) (stand disk (ready opts q).world) := by
        refine ⟨rfl, ?_, htidy, fun file hfile => .inl hfile⟩
        change q.kngq.seq < 2 ^ 64
        rw [seq_of_kngqInit hinit]
        exact Nat.two_pow_pos 64
      obtain ⟨taken, htaken⟩ := dispatchAvailable_iff.mp ⟨rounds, hdispatch⟩
      subst hnone
      exact ⟨(htaken.moves host hstart).stocked, (by simp), by simp⟩
    · rintro before event after hbefore ⟨hundisturbed, hnew⟩ hstep
      exact hbefore.step host hlaws hbase hundisturbed hnew hstep
  exact hinvariant.fates

end

/-! A job whose start fails -/

def storeDown (q : Queue Desk) : Queue Desk := { q with world := { q.world with storeUp := false } }

/-- What is seen of a run in which one job takes the slot, a second one is queued, and
the store is down when the first one is reaped. -/
structure Sight where
  before : KngQueue
  seqs : ℕ × ℕ
  response : Option Response
  files : List (Bytes × Option KnegdReq)
  jobs : List KngJob
deriving DecidableEq

def failedStart : Option Sight := do
  let opened ← step deskDaemon sampleOpts 2 (ready sampleOpts (deskQueue [])) (.readable 5)
  let first ← step deskDaemon sampleOpts 2 opened.2 (.request 5 (.request (scanRequest "b48a")))
  let second ← step deskDaemon sampleOpts 2 first.2 (.request 5 (.request (scanRequest "c59b")))
  let down ← step deskDaemon sampleOpts 2 second.2 (.elapse (storeDown second.2.world))
  let reaped ← step deskDaemon sampleOpts 2 down.2 (.reapedChild 1)
  return ⟨first.2.kngq, (opened.2.world.kngq.seq, first.2.world.kngq.seq), second.1,
    reaped.2.world.world.files, reaped.2.jobs⟩

theorem failedStart_eq : failedStart =
    some ⟨⟨1, 1, 0⟩, (0, 0), some (.ok (ascii "OK")), [], []⟩ := by
  decide +kernel

def DeskRun (st : Recorded Desk) : Prop :=
  Reachable (fun st => StartedWith deskFs deskOutside sampleOpts (deskQueue []) st.1 ∧ st.2 = [])
    (fun st event => Undisturbed deskDisk st.1 event ∧
      NewEntry deskFs (deskDisk (deskQueue []).world) st.1 event)
    (StepRecorded deskFs deskOutside sampleOpts) st

theorem deskRun_failedStart : ∃ st before req kept later, DeskRun st ∧
    st.2 = before ++ .accepted req kept :: later ∧ ¬ Survives deskDisk st.1 req.filed later kept := by
  have hsight := failedStart_eq
  unfold failedStart at hsight
  obtain ⟨opened, hopened, hsight⟩ := Option.bind_eq_some_iff.mp hsight
  obtain ⟨first, hfirst, hsight⟩ := Option.bind_eq_some_iff.mp hsight
  obtain ⟨second, hsecond, hsight⟩ := Option.bind_eq_some_iff.mp hsight
  obtain ⟨down, hdown, hsight⟩ := Option.bind_eq_some_iff.mp hsight
  obtain ⟨reaped, hreaped, hsight⟩ := Option.bind_eq_some_iff.mp hsight
  obtain ⟨hkngq, hseqs, hresponse, hfiles, hjobs⟩ := Sight.mk.inj (Option.some.inj hsight)
  obtain ⟨hseqOpened, hseqFirst⟩ := Prod.mk.inj hseqs
  have hnew : ∀ s : State (Queue Desk), s.world.kngq.seq = 0 → ∀ event,
      NewEntry deskFs (deskDisk (deskQueue []).world) s event := by
    intro s hseq event fd req _ _
    exact ⟨by rw [hseq]; decide, rfl⟩
  have hnext : ∀ before after event, DeskRun before → Undisturbed deskDisk before.1 event →
      NewEntry deskFs (deskDisk (deskQueue []).world) before.1 event →
      StepRecorded deskFs deskOutside sampleOpts before event after → DeskRun after :=
    fun _ _ _ hbefore hundisturbed hentry hstep => .step hbefore ⟨hundisturbed, hentry⟩ hstep
  have hready : DeskRun (ready sampleOpts (deskQueue []), []) :=
    .initial ⟨⟨⟨deskQueue [], rfl⟩, 1, rfl⟩, rfl⟩
  obtain ⟨_, hrecorded⟩ := @exists_records _ deskFs _ _ _ [] _ _ ⟨2, opened.1, hopened⟩
  have hrun := hnext _ _ (.readable 5) hready (by rintro _ ⟨⟩) (hnew _ rfl _) hrecorded
  obtain ⟨_, hrecorded⟩ := @exists_records _ deskFs _ _ _ ([] ++ _) _ _ ⟨2, first.1, hfirst⟩
  have hrun := hnext _ _ (.request 5 (.request (scanRequest "b48a"))) hrun (by rintro _ ⟨⟩)
    (hnew _ hseqOpened _) hrecorded
  generalize [] ++ _ ++ _ = history at hrun
  -- the second request is put into the queue
  have hfull : ¬ kngqNavailable first.2.kngq > 0 := by
    rw [hkngq]
    decide
  have hrun := hnext _ (second.2, _) (.request 5 (.request (scanRequest "c59b"))) hrun (by rintro _ ⟨⟩)
    (hnew _ hseqFirst _)
    ⟨2, second.1, _, hsecond, .accepted ⟨by decide, hresponse⟩ (.entry hfull), rfl⟩
  have hrun := hnext _ (down.2, _) (.elapse (storeDown second.2.world)) hrun
    (by rintro q ⟨⟩; exact ⟨rfl, rfl⟩) (by rintro _ _ ⟨⟩)
    ⟨2, down.1, [], hdown, .nothing (by simp) (by simp), (List.append_nil _).symm⟩
  obtain ⟨mid, hmid, hrest⟩ := Option.bind_eq_some_iff.mp hreaped
  cases hrest
  rw [kngOnSvcReapedChild_eq] at hmid
  obtain ⟨taken, hdispatch⟩ := dispatchAvailable_iff.mp ⟨2, hmid⟩
  have hrun := hnext _ (mid, _) (.reapedChild 1) hrun (by rintro _ ⟨⟩) (by rintro _ _ ⟨⟩)
    ⟨2, none, _, hreaped, .reaped hdispatch, rfl⟩
  refine ⟨_, history, _, _, _, hrun, List.append_assoc _ _ _, ?_⟩
  rintro (hwaits | ⟨between, pid, rest, hlater, hruns | hmem⟩)
  · dsimp only [deskDisk] at hwaits
    rw [hfiles] at hwaits
    cases hwaits
  · rw [hjobs] at hruns
    cases hruns
  · cases between with
    | nil => cases hlater
    | cons record between =>
      have htaken : taken.map recordOf = between ++ _ :: rest := (List.cons.inj hlater).2
      have hmem : .reaped pid ∈ taken.map recordOf := by
        rw [htaken]
        exact List.mem_append_right _ (List.mem_cons_of_mem _ hmem)
      obtain ⟨entry, -, hentry⟩ := List.mem_map.mp hmem
      cases hentry

theorem accepted_jobs_kept_desk : ∃ st before req kept later, DeskRun st ∧
    st.2 = before ++ .accepted req kept :: later ∧ Dropped later kept := by
  obtain ⟨st, before, req, kept, later, hrun, hsplit, hlost⟩ := deskRun_failedStart
  have htidy : Tidy (ascii "queue") (deskDisk (deskQueue []).world) :=
    ⟨(by rintro _ _ ⟨⟩), fun _ hlink => absurd rfl hlink⟩
  have hkept := accepted_jobs_kept desk_host deskDaemon_laws
    (show (deskQueue []).kngq.basepath.length ≤ 251 by decide) htidy st hrun before req kept later
    hsplit
  exact ⟨st, before, req, kept, later, hrun, hsplit, hkept.resolve_left hlost⟩

/-- The start fails, and the job neither runs nor waits. -/
theorem accepted_job_lost : ¬ ∀ st : Recorded Desk, DeskRun st →
    ∀ before req kept later, st.2 = before ++ .accepted req kept :: later →
      Survives deskDisk st.1 req.filed later kept := by
  intro h
  obtain ⟨st, before, req, kept, later, hrun, hsplit, hlost⟩ := deskRun_failedStart
  exact hlost (h st hrun before req kept later hsplit)

end Yans.Apps.Knegd
