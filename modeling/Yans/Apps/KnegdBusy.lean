import Yans.Apps.KnegdDesk
import Yans.Apps.KnegdDispatch

/-! Runs of the daemon with its queue: whether a slot stays free while an entry
waits. Entries that were left by an earlier process are there from the start. -/
namespace Yans.Apps.Knegd

open Library.Memory Library.Runs Library.Strings Util

section

variable {World : Type} (fs : Fs World) (rest : Outside World) (opts : KngOpts)
  (disk : World → Disk)

/-- The daemon before it starts jobs that were queued from before. -/
def ready (q : Queue World) : State (Queue World) where
  jobs := []
  kngq := ⟨opts.nqueueslots, 0, 0⟩
  respbufs := fun _ => none
  signals := []
  world := q

def BreaksOff (s : State (Queue World)) : Prop :=
  ∃ taken after, Dispatch fs rest opts (kngqNavailable s.kngq) s taken after ∧
    (∃ path, (path, .unreadable) ∈ taken) ∧ (disk after.world.world).Queued

/-- A start of the daemon comes to the queue `q`. -/
def Starts (q : Queue World) : Prop := ∃ before, kngqInit fs before = (true, q)

/-- The daemon is started with the queue `q`. -/
def StartedWith (q : Queue World) (s : State (Queue World)) : Prop :=
  Starts fs q ∧ ∃ rounds, dispatchAvailable (rest.withQueue fs) opts rounds (ready opts q) = some s

def Undisturbed (s : State (Queue World)) (event : Event (Queue World)) : Prop :=
  ∀ q, event = .elapse q → q.kngq = s.world.kngq ∧ disk q.world = disk s.world.world

def Emptied (s : State (Queue World)) (event : Event (Queue World)) : Prop :=
  ∀ pid, event = .reapedChild pid → ¬ BreaksOff fs rest opts disk (freed (rest.withQueue fs) pid s)

end

variable {World : Type} {fs : Fs World} {rest : Outside World} {opts : KngOpts}
  {disk : World → Disk}

variable {s : State (Queue World)}

structure Tallied (rest : Outside World) (opts : KngOpts) (fs : Fs World)
    (s : State (Queue World)) : Prop where
  accounted : (slots (rest.withQueue fs) s).Accounted
  nslots_eq : s.kngq.nslots = opts.nqueueslots

theorem Tallied.counted (h : Tallied rest opts fs s) :
    Counted opts s.kngq where
  nrunning_nonneg := by
    rw [show s.kngq.nrunning = _ from h.accounted.nrunning_eq]
    exact Int.natCast_nonneg _
  nslots_eq := h.nslots_eq

theorem tallied_ready (q : Queue World) : Tallied rest opts fs (ready opts q) where
  accounted := ⟨rfl, List.nodup_nil, nofun⟩
  nslots_eq := rfl

theorem counted_ready (q : Queue World) : Counted opts (ready opts q).kngq := ⟨le_rfl, rfl⟩

variable {after : State (Queue World)}

section

variable (hlaws : (rest.withQueue fs).Laws)

include hlaws

variable {s : State (Queue World)}

theorem Tallied.dispatchAvailable {rounds : ℕ}
    (hs : Tallied rest opts fs s)
    (h : dispatchAvailable (rest.withQueue fs) opts rounds s = some after) :
    Tallied rest opts fs after where
  accounted := accounted_dispatchAvailable hlaws hs.accounted h
  nslots_eq := by
    cases dispatchAvailable_cases hlaws h with
    | inl hsame => exact hsame ▸ hs.nslots_eq
    | inr hfills => exact hfills.2.nslots_eq.trans hs.nslots_eq

theorem tallied_freed (hs : Tallied rest opts fs s) (pid : ℤ) :
    Tallied rest opts fs (freed (rest.withQueue fs) pid s) := by
  have hslots := slots_freed hlaws pid s
  exact ⟨hslots ▸ hs.accounted.reap pid, (congrArg Slots.nslots hslots).trans hs.nslots_eq⟩

theorem Tallied.step {event : Event (Queue World)}
    (hs : Tallied rest opts fs s) (h : Step (rest.withQueue fs) opts s event after) :
    Tallied rest opts fs after where
  accounted := accounted_step hlaws hs.accounted h
  nslots_eq := by
    obtain hsame | ⟨pid, -, hstart, -⟩ | ⟨rounds, pid, mid, hmid, hdispatch⟩ := step_cases hlaws h
    · exact (congrArg Slots.nslots hsame).trans hs.nslots_eq
    · exact (congrArg Slots.nslots hstart).trans hs.nslots_eq
    · have hslots : mid.kngq.nslots = s.kngq.nslots := congrArg Slots.nslots hmid
      cases dispatchAvailable_cases hlaws hdispatch with
      | inl hsame => exact hsame ▸ hslots.trans hs.nslots_eq
      | inr hfills => exact hfills.2.nslots_eq.trans (hslots.trans hs.nslots_eq)

end

theorem dispatchAvailable_iff :
    (∃ rounds, dispatchAvailable (rest.withQueue fs) opts rounds s = some after) ↔
      ∃ taken, Dispatch fs rest opts (kngqNavailable s.kngq) s taken after := by
  unfold dispatchAvailable
  by_cases hnavail : kngqNavailable s.kngq > 0
  · simp only [if_pos hnavail]
    exact ⟨fun ⟨rounds, h⟩ => exists_dispatch rounds h, fun ⟨taken, h⟩ => h.exists_rounds⟩
  · simp only [if_neg hnavail, exists_const]
    constructor
    · intro h
      rw [← Option.some.inj h]
      exact ⟨[], .full hnavail⟩
    · rintro ⟨taken, h⟩
      cases h with
      | full => rfl
      | empty hn => exact absurd hn hnavail
      | unreadable hn => exact absurd hn hnavail
      | incomplete hn => exact absurd hn hnavail
      | failed hn => exact absurd hn hnavail
      | started hn => exact absurd hn hnavail

section

variable (host : Host fs rest disk)

include host

variable {s : State (Queue World)}

theorem Counted.busy_iff {taken : List (Bytes × Outcome)}
    (hs : Counted opts s.kngq)
    (h : Dispatch fs rest opts (kngqNavailable s.kngq) s taken after) :
    Busy disk after ↔
      ¬ ((∃ path, (path, .unreadable) ∈ taken) ∧ (disk after.world.world).Queued) := by
  obtain ⟨hnone, hfull⟩ | ⟨-, hfree⟩ := hs.navailable
  · cases h with
    | full =>
      refine iff_of_true (fun _ => hfull) ?_
      rintro ⟨⟨path, hpath⟩, -⟩
      cases hpath
    | empty hn => exact absurd hn hnone
    | unreadable hn => exact absurd hn hnone
    | incomplete hn => exact absurd hn hnone
    | failed hn => exact absurd hn hnone
    | started hn => exact absurd hn hnone
  · exact h.busy_iff host hfree

theorem busy_of_dispatch (hs : Counted opts s.kngq)
    (hwhole : ¬ BreaksOff fs rest opts disk s)
    (h : ∃ rounds, dispatchAvailable (rest.withQueue fs) opts rounds s = some after) :
    Busy disk after := by
  obtain ⟨taken, hdispatch⟩ := dispatchAvailable_iff.mp h
  exact (hs.busy_iff host hdispatch).mpr fun hbroken => hwhole ⟨taken, after, hdispatch, hbroken⟩

theorem not_busy_of_breaksOff (hs : Counted opts s.kngq)
    (hbreaks : BreaksOff fs rest opts disk s) :
    ∃ rounds after, dispatchAvailable (rest.withQueue fs) opts rounds s = some after ∧
      ¬ Busy disk after := by
  obtain ⟨taken, after, hdispatch, hbroken⟩ := hbreaks
  obtain ⟨rounds, hafter⟩ := dispatchAvailable_iff.mpr ⟨taken, hdispatch⟩
  exact ⟨rounds, after, hafter, fun hbusy => (hs.busy_iff host hdispatch).mp hbusy hbroken⟩

theorem busy_onRequest (hlaws : (rest.withQueue fs).Laws) {fd : ℤ} {respbuf : Buf}
    {req : KnegdReq} {response : Option Response}
    (hs : Counted opts s.kngq) (hbusy : Busy disk s)
    (h : onRequest (rest.withQueue fs) opts fd respbuf req s = some (response, after)) :
    Busy disk after := by
  have hslots : after.kngq.nslots = s.kngq.nslots ∧ s.kngq.nrunning ≤ after.kngq.nrunning := by
    obtain hsame | ⟨pid, -, hstart, -⟩ := (onRequest_effect hlaws h).slots_eq
    · exact ⟨congrArg Slots.nslots hsame, (congrArg Slots.nrunning hsame).ge⟩
    · have hmore : after.kngq.nrunning = s.kngq.nrunning + 1 := congrArg Slots.nrunning hstart
      exact ⟨congrArg Slots.nslots hstart, by omega⟩
  have hfull : (disk after.world.world).Queued → s.kngq.nrunning ≥ s.kngq.nslots := by
    intro hqueued
    obtain hview | ⟨hqueues, -⟩ := host.keeps.onRequest_cases host.keepsContains h
    · exact hbusy (show (disk s.world.world).Queued from hview ▸ hqueued)
    · obtain ⟨-, hfull⟩ | ⟨hfree, -⟩ := hs.navailable
      · exact hfull
      · exact absurd hfree hqueues.full
  intro hqueued
  have hfull := hfull hqueued
  omega

theorem Busy.step (hlaws : (rest.withQueue fs).Laws)
    {event : Event (Queue World)} (hs : Tallied rest opts fs s) (hbusy : Busy disk s)
    (hundisturbed : Undisturbed disk s event) (hemptied : Emptied fs rest opts disk s event)
    (h : Step (rest.withQueue fs) opts s event after) : Busy disk after := by
  obtain ⟨rounds, response, hstep⟩ := h
  cases event with
  | readable fd =>
    cases hstep
    have hsame : (kngOnReadable fd s).kngq = s.kngq ∧ (kngOnReadable fd s).world = s.world := by
      unfold kngOnReadable
      split <;> exact ⟨rfl, rfl⟩
    unfold Busy
    rw [hsame.1, hsame.2]
    exact hbusy
  | request fd received =>
    obtain ⟨respbuf, -, hread⟩ := Option.bind_eq_some_iff.mp hstep
    cases received with
    | again =>
      cases hread
      exact hbusy
    | failure =>
      cases hread
      exact hbusy
    | malformed =>
      cases hread
      exact hbusy
    | request req => exact busy_onRequest host hlaws hs.counted hbusy hread
  | finalize fd =>
    cases hstep
    exact hbusy
  | reapedChild pid =>
    obtain ⟨mid, hmid, hrest⟩ := Option.bind_eq_some_iff.mp hstep
    cases hrest
    rw [kngOnSvcReapedChild_eq] at hmid
    exact busy_of_dispatch host (tallied_freed hlaws hs pid).counted (hemptied pid rfl)
      ⟨rounds, hmid⟩
  | tick =>
    cases hstep
    have hkngq : (kngOnTick (rest.withQueue fs) s).kngq = s.kngq := rfl
    have hdisk : disk (kngOnTick (rest.withQueue fs) s).world.world = disk s.world.world :=
      host.keeps.kngOnTick s
    unfold Busy
    rw [hkngq, hdisk]
    exact hbusy
  | elapse q =>
    have hsame := (hundisturbed q rfl).2
    simp only [Knegd.step] at hstep
    split at hstep
    · cases hstep
      unfold Busy
      rw [hsame]
      exact hbusy
    · cases hstep

end

/-- In every run no slot is free while an entry waits, unless the loop that empties the
queue comes to an entry that it cannot read; and after that one is. -/
theorem slots_kept_busy (host : Host fs rest disk) (hlaws : (rest.withQueue fs).Laws) :
    (∀ s, Reachable
        (fun s => ∃ q, StartedWith fs rest opts q s ∧ ¬ BreaksOff fs rest opts disk (ready opts q))
        (fun s event => Undisturbed disk s event ∧ Emptied fs rest opts disk s event)
        (Step (rest.withQueue fs) opts) s → Busy disk s) ∧
    (∀ q, Starts fs q → BreaksOff fs rest opts disk (ready opts q) →
      ∃ s, StartedWith fs rest opts q s ∧ ¬ Busy disk s) ∧
    (∀ s pid, Reachable (fun s => ∃ q, StartedWith fs rest opts q s) (Undisturbed disk)
        (Step (rest.withQueue fs) opts) s →
      BreaksOff fs rest opts disk (freed (rest.withQueue fs) pid s) →
        ∃ after, Step (rest.withQueue fs) opts s (.reapedChild pid) after ∧ ¬ Busy disk after) := by
  have hstarted : ∀ {q s}, StartedWith fs rest opts q s → Tallied rest opts fs s := by
    rintro q s ⟨-, rounds, hdispatch⟩
    exact (tallied_ready q).dispatchAvailable hlaws hdispatch
  refine ⟨?_, ?_, ?_⟩
  · intro s hreach
    have hinv : Tallied rest opts fs s ∧ Busy disk s := by
      refine @Reachable.invariant _ _ _ _ _ (fun s => Tallied rest opts fs s ∧ Busy disk s)
        ?_ ?_ s hreach
      · rintro s ⟨q, hq, hwhole⟩
        exact ⟨hstarted hq, busy_of_dispatch host (counted_ready q) hwhole hq.2⟩
      · rintro before event after ⟨htallied, hbusy⟩ ⟨hundisturbed, hemptied⟩ hstep
        exact ⟨htallied.step hlaws hstep,
          hbusy.step host hlaws htallied hundisturbed hemptied hstep⟩
    exact hinv.2
  · intro q hq hbreaks
    obtain ⟨rounds, s, hs, hfree⟩ :=
      not_busy_of_breaksOff host (counted_ready q) hbreaks
    exact ⟨s, ⟨hq, rounds, hs⟩, hfree⟩
  · intro s pid hreach hbreaks
    have htallied : Tallied rest opts fs s := by
      refine Reachable.invariant ?_ ?_ hreach
      · rintro s ⟨q, hq⟩
        exact hstarted hq
      · exact fun before event after hbefore _ hstep => hbefore.step hlaws hstep
    obtain ⟨rounds, after, hafter, hfree⟩ :=
      not_busy_of_breaksOff host (tallied_freed hlaws htallied pid).counted hbreaks
    refine ⟨after, ⟨rounds, none, ?_⟩, hfree⟩
    rw [← kngOnSvcReapedChild_eq] at hafter
    unfold step
    dsimp only
    rw [hafter]
    rfl

def scanRequest (id : String) : KnegdReq :=
  ⟨0, some (ascii "queue"), some (ascii id), none, some (ascii "scan")⟩

def deskQueue (files : List (Bytes × Option KnegdReq)) : Queue Desk :=
  ⟨⟨ascii "queue", 0, 0⟩, [], ⟨files, [], 0, true, ∅⟩⟩

example : entryPath (deskQueue []).kngq (ascii "00000000") = ascii "queue/00/00000000-0" := by
  decide +kernel

/-- Two jobs are queued one after the other; the first one takes the slot. -/
def queueEvents : List (Event (Queue Desk)) :=
  [.readable 5, .request 5 (.request (scanRequest "b48a")),
    .request 5 (.request (scanRequest "c59b"))]

theorem slots_kept_busy_one :
    ∃ s, Reachable
        (fun s => ∃ q, StartedWith deskFs deskOutside sampleOpts q s ∧
          ¬ BreaksOff deskFs deskOutside sampleOpts deskDisk (ready sampleOpts q))
        (fun s event => Undisturbed deskDisk s event ∧
          Emptied deskFs deskOutside sampleOpts deskDisk s event)
        (Step deskDaemon sampleOpts) s ∧
      s.world.world.files = [(ascii "queue/00/00000000-0", some (scanRequest "c59b"))] ∧
      Busy deskDisk s := by
  have hrun : ((queueEvents.foldlM (fun s event =>
      (step deskDaemon sampleOpts 2 s event).map Prod.snd)
        (ready sampleOpts (deskQueue []))).map fun s => s.world.world.files) =
      some [(ascii "queue/00/00000000-0", some (scanRequest "c59b"))] := by
    decide +kernel
  obtain ⟨s, hs, hfiles⟩ := Option.map_eq_some_iff.mp hrun
  have hwhole : ¬ BreaksOff deskFs deskOutside sampleOpts deskDisk
      (ready sampleOpts (deskQueue [])) := by
    rintro ⟨taken, after, hdispatch, ⟨path, hpath⟩, -⟩
    have hfound : ∀ {path : Bytes} {next : Next} {q : Queue Desk},
        ¬ Takes deskFs (deskQueue []) path next q := by
      rintro path next q ⟨⟨ctime, hfound⟩, -⟩
      cases hfound
    cases hdispatch with
    | full => cases hpath
    | empty => cases hpath
    | unreadable _ htakes => exact hfound htakes
    | incomplete _ htakes => exact hfound htakes
    | failed _ htakes => exact hfound htakes
    | started _ htakes => exact hfound htakes
  have hallowed : ∀ event ∈ queueEvents, ∀ s,
      Undisturbed deskDisk s event ∧ Emptied deskFs deskOutside sampleOpts deskDisk s event := by
    simp only [queueEvents, List.forall_mem_cons]
    exact ⟨fun _ => ⟨nofun, nofun⟩, fun _ => ⟨nofun, nofun⟩, fun _ => ⟨nofun, nofun⟩, by simp⟩
  have hstarted : StartedWith deskFs deskOutside sampleOpts (deskQueue [])
      (ready sampleOpts (deskQueue [])) := ⟨⟨deskQueue [], rfl⟩, 1, rfl⟩
  have hreach : Reachable
      (fun s => ∃ q, StartedWith deskFs deskOutside sampleOpts q s ∧
        ¬ BreaksOff deskFs deskOutside sampleOpts deskDisk (ready sampleOpts q))
      (fun s event => Undisturbed deskDisk s event ∧
        Emptied deskFs deskOutside sampleOpts deskDisk s event)
      (Step deskDaemon sampleOpts) s := by
    refine Reachable.foldlM ?_ hallowed (.initial ⟨deskQueue [], hstarted, hwhole⟩) hs
    intro s event after h
    obtain ⟨answer, hanswer, rfl⟩ := Option.map_eq_some_iff.mp h
    exact ⟨2, answer.1, hanswer⟩
  exact ⟨s, hreach, hfiles, (slots_kept_busy desk_host deskDaemon_laws).1 s hreach⟩

/-- An earlier process left an entry that cannot be read and one that can. -/
def leftEntries : List (Bytes × Option KnegdReq) :=
  [(ascii "queue/00/00000000-0", none), (ascii "queue/00/00000000-1", some (scanRequest "c59b"))]

/-- The entry behind the one that cannot be read waits for the first child, and the
slot is free. -/
theorem slot_free_behind_unreadable :
    ∃ s, Reachable (fun s => ∃ q, StartedWith deskFs deskOutside sampleOpts q s)
        (Undisturbed deskDisk) (Step deskDaemon sampleOpts) s ∧ ¬ Busy deskDisk s := by
  have hrun : ((dispatchAvailable deskDaemon sampleOpts 2
      (ready sampleOpts (deskQueue leftEntries))).map
        fun s => (s.kngq, s.world.world.files)) =
      some (⟨1, 0, 0⟩, [(ascii "queue/00/00000000-1", some (scanRequest "c59b"))]) := by
    decide +kernel
  obtain ⟨s, hs, hleft⟩ := Option.map_eq_some_iff.mp hrun
  obtain ⟨hkngq, hfiles⟩ := Prod.mk.inj hleft
  refine ⟨s, .initial ⟨deskQueue leftEntries, ⟨deskQueue leftEntries, rfl⟩, 2, hs⟩, ?_⟩
  intro hbusy
  have hqueued : (deskDisk s.world.world).Queued := by
    refine ⟨place (ascii "queue/00/00000000-1"), ?_⟩
    unfold deskDisk
    dsimp only
    rw [hfiles, lookup, Function.update_self]
    exact Option.some_ne_none _
  have hfull := hbusy hqueued
  rw [hkngq] at hfull
  exact absurd hfull (by decide)

end Yans.Apps.Knegd
