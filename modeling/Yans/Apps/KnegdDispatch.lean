import Yans.Apps.KnegdFiles
import Yans.Apps.KnegdSlots

/-! How the queue is emptied into free slots. An entry that cannot be read ends
the loop, other entries that cannot be started do not: what is behind it waits
until the next child is reaped, although there is a slot for it. -/
namespace Yans.Apps.Knegd

open Library.Memory Library.Strings Library.Runs Util

/-- What becomes of an entry that is taken from the queue. -/
inductive Outcome where
  | started (pid : ℤ)
  | failed (err : StartError)
  | incomplete
  | unreadable
deriving DecidableEq

section

variable {World : Type} (fs : Fs World) (rest : Outside World) (opts : KngOpts)

/-- The call of `kngq_next` comes to the entry at the path. -/
structure Takes (q : Queue World) (path : Bytes) (next : Next) (after : Queue World) : Prop where
  found : ∃ ctime, (fs.nextFile q.world).1 = some (path, ctime)
  next_eq : kngqNext fs q = some (next, after)

/-- The daemon after the start of a job from the queue. -/
def dispatched (ctime : ℤ) (s : State (Queue World)) : State (Queue World) :=
  let now := (rest.withQueue fs).time s.world
  { s with kngq := kngqUpdateLastQueuedFor s.kngq (now.1 - ctime), world := now.2 }

/-- The rounds of `dispatch_n_jobs`, with the entries that they take. -/
inductive Dispatch :
    ℤ → State (Queue World) → List (Bytes × Outcome) → State (Queue World) → Prop where
  | full {n : ℤ} {s : State (Queue World)} (hn : ¬ n > 0) : Dispatch n s [] s
  | empty {n : ℤ} {s : State (Queue World)} {q : Queue World} (hn : n > 0)
    (hnone : (fs.nextFile s.world.world).1 = none)
    (hnext : kngqNext fs s.world = some (.empty, q)) : Dispatch n s [] { s with world := q }
  | unreadable {n : ℤ} {s : State (Queue World)} {path : Bytes} {q : Queue World} (hn : n > 0)
    (htakes : Takes fs s.world path .failure q) :
    Dispatch n s [(path, .unreadable)] { s with world := q }
  | incomplete {n : ℤ} {s after : State (Queue World)} {path : Bytes} {q : Queue World}
    {req : KnegdReq} {ctime : ℤ} {taken : List (Bytes × Outcome)} (hn : n > 0)
    (htakes : Takes fs s.world path (.entry req ctime) q)
    (hmissing : lenOf req.type = 0 ∨ lenOf req.id = 0)
    (hrest : Dispatch n { s with world := q } taken after) :
    Dispatch n s ((path, .incomplete) :: taken) after
  | failed {n : ℤ} {s started after : State (Queue World)} {path : Bytes} {q : Queue World}
    {req : KnegdReq} {ctime : ℤ} {err : StartError} {taken : List (Bytes × Outcome)} (hn : n > 0)
    (htakes : Takes fs s.world path (.entry req ctime) q)
    (hcomplete : ¬ (lenOf req.type = 0 ∨ lenOf req.id = 0))
    (hstart : startKnegdJob (rest.withQueue fs) opts req { s with world := q } =
      (.error err, started))
    (hrest : Dispatch n started taken after) : Dispatch n s ((path, .failed err) :: taken) after
  | started {n : ℤ} {s started after : State (Queue World)} {path : Bytes} {q : Queue World}
    {req : KnegdReq} {ctime : ℤ} {job : KngJob} {taken : List (Bytes × Outcome)} (hn : n > 0)
    (htakes : Takes fs s.world path (.entry req ctime) q)
    (hcomplete : ¬ (lenOf req.type = 0 ∨ lenOf req.id = 0))
    (hstart : startKnegdJob (rest.withQueue fs) opts req { s with world := q } =
      (.ok job, started))
    (hrest : Dispatch (n - 1) (dispatched fs rest ctime started) taken after) :
    Dispatch n s ((path, .started job.pid) :: taken) after

end

variable {World : Type} {fs : Fs World} {rest : Outside World} {opts : KngOpts}
  {disk : World → Disk}

theorem kngqNext_cases {q after : Queue World} {next : Next}
    (h : kngqNext fs q = some (next, after)) :
    (next = .empty ∧ (fs.nextFile q.world).1 = none ∧ after.world = (fs.nextFile q.world).2) ∨
      (next ≠ .empty ∧ ∃ path, Takes fs q path next after) := by
  cases nextFile_of_kngqNext h with
  | none hnone => exact .inl ⟨rfl, hnone, rfl⟩
  | @closed path ctime world hfile hclosed =>
    exact .inr ⟨nofun, path, ⟨ctime, by rw [hfile]⟩, h⟩
  | @opened path ctime world _ _ hfile hopen hopened =>
    refine .inr ⟨?_, path, ⟨ctime, by rw [hfile]⟩, h⟩
    obtain ⟨-, hnext, -⟩ | ⟨req, q', -, hnext, -⟩ := kngqNextOpened_cases hopened
    · rw [hnext]
      exact nofun
    · rw [hnext]
      exact nofun

theorem exists_dispatch (rounds : ℕ) : ∀ {n : ℤ} {s after : State (Queue World)},
    dispatchNJobs (rest.withQueue fs) opts rounds n s = some after →
      ∃ taken, Dispatch fs rest opts n s taken after := by
  induction rounds with
  | zero =>
    intro n s after h
    unfold dispatchNJobs at h
    split at h
    · cases h
    · rename_i hn
      cases h
      exact ⟨[], .full hn⟩
  | succ rounds ih =>
    intro n s after h
    unfold dispatchNJobs at h
    split at h
    · rename_i hn
      dsimp only at h
      split at h
      · cases h
      · rename_i q hnext
        cases h
        obtain ⟨hempty, -⟩ | ⟨-, path, htakes⟩ := kngqNext_cases hnext
        · cases hempty
        · exact ⟨_, .unreadable hn htakes⟩
      · rename_i q hnext
        cases h
        obtain ⟨-, hnone, -⟩ | ⟨hne, -⟩ := kngqNext_cases hnext
        · exact ⟨_, .empty hn hnone hnext⟩
        · exact absurd rfl hne
      · rename_i req ctime q hnext
        obtain ⟨hempty, -⟩ | ⟨-, path, htakes⟩ := kngqNext_cases hnext
        · cases hempty
        split at h
        · rename_i hmissing
          obtain ⟨taken, hrest⟩ := ih h
          exact ⟨_, .incomplete hn htakes hmissing hrest⟩
        · rename_i hcomplete
          split at h
          · rename_i err started hstart
            obtain ⟨taken, hrest⟩ := ih h
            exact ⟨_, .failed hn htakes hcomplete hstart hrest⟩
          · rename_i job started hstart
            obtain ⟨taken, hrest⟩ := ih h
            exact ⟨_, .started hn htakes hcomplete hstart hrest⟩
    · rename_i hn
      cases h
      exact ⟨[], .full hn⟩

theorem Dispatch.exists_rounds {n : ℤ} {s after : State (Queue World)}
    {taken : List (Bytes × Outcome)} (h : Dispatch fs rest opts n s taken after) :
    ∃ rounds, dispatchNJobs (rest.withQueue fs) opts rounds n s = some after := by
  induction h with
  | full hn => exact ⟨0, by rw [dispatchNJobs, if_neg hn]⟩
  | @empty n s q hn _ hnext =>
    have hcall : (rest.withQueue fs).queueNext s.world = some (.empty, q) := hnext
    refine ⟨1, ?_⟩
    rw [dispatchNJobs, if_pos hn]
    rw [hcall]
  | @unreadable n s path q hn htakes =>
    have hcall : (rest.withQueue fs).queueNext s.world = some (.failure, q) := htakes.next_eq
    refine ⟨1, ?_⟩
    rw [dispatchNJobs, if_pos hn]
    rw [hcall]
  | @incomplete n s after path q req ctime taken hn htakes hmissing _ ih =>
    obtain ⟨rounds, hrest⟩ := ih
    have hcall : (rest.withQueue fs).queueNext s.world = some (.entry req ctime, q) :=
      htakes.next_eq
    refine ⟨rounds + 1, ?_⟩
    rw [dispatchNJobs, if_pos hn]
    rw [hcall]
    dsimp only
    rw [if_pos hmissing, hrest]
  | @failed n s started after path q req ctime err taken hn htakes hcomplete hstart _ ih =>
    obtain ⟨rounds, hrest⟩ := ih
    have hcall : (rest.withQueue fs).queueNext s.world = some (.entry req ctime, q) :=
      htakes.next_eq
    refine ⟨rounds + 1, ?_⟩
    rw [dispatchNJobs, if_pos hn]
    rw [hcall]
    dsimp only
    rw [if_neg hcomplete, hstart]
    exact hrest
  | @started n s started after path q req ctime job taken hn htakes hcomplete hstart _ ih =>
    obtain ⟨rounds, hrest⟩ := ih
    have hcall : (rest.withQueue fs).queueNext s.world = some (.entry req ctime, q) :=
      htakes.next_eq
    refine ⟨rounds + 1, ?_⟩
    rw [dispatchNJobs, if_pos hn]
    rw [hcall]
    dsimp only
    rw [if_neg hcomplete, hstart]
    exact hrest

def Busy (disk : World → Disk) (s : State (Queue World)) : Prop :=
  (disk s.world.world).Queued → s.kngq.nrunning ≥ s.kngq.nslots

structure Counted (opts : KngOpts) (kngq : KngQueue) : Prop where
  nrunning_nonneg : 0 ≤ kngq.nrunning
  nslots_eq : kngq.nslots = opts.nqueueslots

theorem Counted.navailable {kngq : KngQueue} (h : Counted opts kngq) :
    (¬ kngqNavailable kngq > 0 ∧ kngq.nrunning ≥ kngq.nslots) ∨
      (kngqNavailable kngq > 0 ∧ kngqNavailable kngq = kngq.nslots - kngq.nrunning) := by
  have hrunning := h.nrunning_nonneg
  have hslots := h.nslots_eq
  unfold kngqNavailable clamp
  split
  · left
    omega
  · split
    · omega
    · by_cases hfull : kngq.nrunning ≥ kngq.nslots
      · left
        omega
      · right
        omega

theorem startKnegdJob_kngq {out : Outside (Queue World)} (req : KnegdReq)
    (s : State (Queue World)) :
    (∀ err started, startKnegdJob out opts req s = (.error err, started) →
      started.kngq = s.kngq) ∧
    ∀ job started, startKnegdJob out opts req s = (.ok job, started) →
      started.kngq = kngqUpdateRunning s.kngq 1 := by
  unfold startKnegdJob
  dsimp only
  split
  · constructor
    · rintro err started ⟨⟩
      rfl
    · rintro job started ⟨⟩
  · constructor
    · rintro err started ⟨⟩
    · rintro job started ⟨⟩
      rfl

theorem Dispatch.busy_iff (host : Host fs rest disk) {n : ℤ} {s after : State (Queue World)}
    {taken : List (Bytes × Outcome)} (h : Dispatch fs rest opts n s taken after)
    (hn : n = s.kngq.nslots - s.kngq.nrunning) :
    Busy disk after ↔
      ¬ ((∃ path, (path, .unreadable) ∈ taken) ∧ (disk after.world.world).Queued) := by
  induction h with
  | full hfull =>
    refine iff_of_true (fun _ => ?_) ?_
    · omega
    · rintro ⟨⟨path, hpath⟩, -⟩
      cases hpath
  | @empty n s q hpos hnone hnext =>
    have hempty : ¬ (disk q.world).Queued := by
      cases nextFile_of_kngqNext hnext with
      | none _ =>
        rw [host.files.nextFile]
        exact host.files.nextFile_none _ hnone
      | opened hfile _ _ =>
        rw [hfile] at hnone
        cases hnone
    exact iff_of_true (fun hqueued => absurd hqueued hempty) fun hbroken => hempty hbroken.2
  | @unreadable n s path q hpos htakes =>
    constructor
    · rintro hbusy ⟨-, hqueued⟩
      have hfull := hbusy hqueued
      dsimp only at hfull
      omega
    · exact fun hbroken hqueued => absurd ⟨⟨path, List.mem_singleton_self _⟩, hqueued⟩ hbroken
  | incomplete hpos htakes hmissing _ ih =>
    simpa using ih hn
  | failed hpos htakes hcomplete hstart _ ih =>
    have hsame := (startKnegdJob_kngq _ _).1 _ _ hstart
    simpa using ih (by rw [hsame]; exact hn)
  | @started n s started after path q req ctime job taken hpos htakes hcomplete hstart _ ih =>
    have hmore := (startKnegdJob_kngq _ _).2 _ _ hstart
    have hrest := ih (by
      unfold dispatched kngqUpdateLastQueuedFor
      rw [hmore]
      simp only [kngqUpdateRunning]
      omega)
    simpa using hrest

end Yans.Apps.Knegd
