import Yans.Apps.Sc2Slots

/-! Where the kills go. The test of a slot and its kill are two steps, and the
handler may run in between. -/
namespace Yans.Apps.Sc2

open Library.Runs

variable {opts : Sc2Opts}

/-- The handler does not reap the child in the slot that is about to be killed,
and finds no flagged slot for a child that it reaps. -/
def Careful (opts : Sc2Opts) (s : State) (event : Event) : Prop :=
  ∀ now, event = .sigchld now →
    (∀ i nleft start, s.point = .kill i nleft start →
      ∀ child ∈ s.exited, child.1 ≠ (s.children i).pid) ∧
    ∀ child ∈ s.exited, ∀ i, slotOf opts child.1 s = some i → (s.children i).waited = false

/-- The slots that `sc2_check_procs` looks at. -/
structure Taken (opts : Sc2Opts) (s : State) (i : ℕ) : Prop where
  lt : i < opts.maxreqs
  taken : 0 < (s.children i).pid
  unflagged : (s.children i).waited = false

def KillsAt (opts : Sc2Opts) (s : State) : Point → Prop
  | .kill i _ _ => Taken opts s i
  | .resetFlags i => (s.children i).pid = 0
  | .register pid _ => pid ∈ s.unwaited ∧ ∀ i, Taken opts s i → (s.children i).pid ≠ pid
  | _ => True

structure LiveSlots (opts : Sc2Opts) (s : State) : Prop where
  live : ∀ i, Taken opts s i → (s.children i).pid ∈ s.unwaited
  distinct : ∀ i j, Taken opts s i → Taken opts s j → (s.children i).pid = (s.children j).pid →
    i = j

structure Kills (opts : Sc2Opts) (s : State) : Prop where
  slots : LiveSlots opts s
  positive : ∀ pid ∈ s.unwaited, 0 < pid
  exited : ∀ child ∈ s.exited, 0 < child.1
  exited_nodup : (s.exited.map (·.1)).Nodup
  blocked : Blocks s.point → s.blocked = true
  here : KillsAt opts s s.point
  kills : ∀ kill ∈ s.kills, kill.2 = true

structure Shrinks (opts : Sc2Opts) (s s' : State) : Prop where
  taken : ∀ i, Taken opts s' i → Taken opts s i
  pid : ∀ i, Taken opts s' i → (s'.children i).pid = (s.children i).pid
  unwaited : ∀ pid ∈ s.unwaited, pid ∈ s'.unwaited

variable {s s' : State}

theorem LiveSlots.shrinks (h : LiveSlots opts s) (hshrinks : Shrinks opts s s') :
    LiveSlots opts s' := by
  constructor
  · intro i hi
    rw [hshrinks.pid i hi]
    exact hshrinks.unwaited _ (h.live i (hshrinks.taken i hi))
  · intro i j hi hj heq
    rw [hshrinks.pid i hi, hshrinks.pid j hj] at heq
    exact h.distinct i j (hshrinks.taken i hi) (hshrinks.taken j hj) heq

theorem Shrinks.children (hchildren : s'.children = s.children)
    (hunwaited : ∀ pid ∈ s.unwaited, pid ∈ s'.unwaited) : Shrinks opts s s' := by
  refine ⟨fun i hi => ?_, fun i _ => ?_, hunwaited⟩
  · obtain ⟨hlt, htaken, hunflagged⟩ := hi
    rw [hchildren] at htaken hunflagged
    exact ⟨hlt, htaken, hunflagged⟩
  · rw [hchildren]

theorem Moves.shrinks (h : Moves s s') : Shrinks opts s s' := by
  refine .children h.children fun pid hpid => ?_
  rw [h.unwaited]
  exact hpid

theorem Shrinks.setChild {i : ℕ} {child : Sc2Child}
    (hchildren : s'.children = Function.update s.children i child)
    (hunwaited : s'.unwaited = s.unwaited) (hfree : child.pid = 0) : Shrinks opts s s' := by
  have hne : ∀ j, Taken opts s' j → j ≠ i := by
    rintro j hj rfl
    have htaken := hj.taken
    rw [hchildren, Function.update_self, hfree] at htaken
    exact lt_irrefl 0 htaken
  have hsame : ∀ j, Taken opts s' j → s'.children j = s.children j := by
    intro j hj
    rw [hchildren, Function.update_of_ne (hne j hj)]
  refine ⟨fun j hj => ⟨hj.lt, ?_, ?_⟩, fun j hj => ?_, fun pid hpid => ?_⟩
  · rw [← hsame j hj]
    exact hj.taken
  · rw [← hsame j hj]
    exact hj.unflagged
  · rw [hsame j hj]
  · rw [hunwaited]
    exact hpid

theorem KillsAt.children {point : Point} (h : KillsAt opts s point)
    (hchildren : s'.children = s.children) (hunwaited : s'.unwaited = s.unwaited) :
    KillsAt opts s' point := by
  have hbefore : Shrinks opts s s' := .children hchildren fun _ hpid => hunwaited.symm.subset hpid
  have hafter : Shrinks opts s' s := .children hchildren.symm fun _ hpid => hunwaited.subset hpid
  cases point with
  | kill i => exact hafter.taken i h
  | resetFlags i =>
    change (s'.children i).pid = 0
    rw [hchildren]
    exact h
  | register pid =>
    refine ⟨hunwaited.symm.subset h.1, fun i hi => ?_⟩
    rw [hchildren]
    exact h.2 i (hbefore.taken i hi)
  | _ => trivial

/-- What the handler may still do when the children `exited` are left. -/
structure Reaping (opts : Sc2Opts) (s : State) (exited : List (ℤ × ℤ)) : Prop where
  slots : LiveSlots opts s
  here : KillsAt opts s s.point
  unblocked : ¬ Blocks s.point
  nodup : (exited.map (·.1)).Nodup
  aside : ∀ i nleft start, s.point = .kill i nleft start →
    ∀ child ∈ exited, child.1 ≠ (s.children i).pid
  unflagged : ∀ child ∈ exited, ∀ i, slotOf opts child.1 s = some i →
    (s.children i).waited = false

variable {now : Timespec}

section

variable {i : ℕ} {status : ℤ}

theorem Taken.of_reapSlot {j : ℕ} (h : Taken opts (reapSlot i now status s) j) :
    Taken opts s j ∧ j ≠ i := by
  have hne : j ≠ i := by
    rintro rfl
    have hunflagged := h.unflagged
    rw [waited_reapSlot_self] at hunflagged
    cases hunflagged
  refine ⟨⟨h.lt, ?_, ?_⟩, hne⟩
  · have htaken := h.taken
    rw [pid_reapSlot] at htaken
    exact htaken
  · have hunflagged := h.unflagged
    rw [waited_reapSlot_of_ne hne] at hunflagged
    exact hunflagged

theorem Taken.reapSlot {j : ℕ} (h : Taken opts s j) (hne : j ≠ i) :
    Taken opts (reapSlot i now status s) j := by
  refine ⟨h.lt, ?_, ?_⟩
  · rw [pid_reapSlot]
    exact h.taken
  · rw [waited_reapSlot_of_ne hne]
    exact h.unflagged

theorem slotOf_reapSlot (pid : ℤ) : slotOf opts pid
    (reapSlot i now status s) = slotOf opts pid s := by
  unfold slotOf
  simp only [pid_reapSlot]

theorem slotOf_spec {pid : ℤ} (h : slotOf opts pid s = some i) :
    i < opts.maxreqs ∧ (s.children i).pid = pid := by
  exact ⟨List.mem_range.mp (List.mem_of_find?_eq_some h), by simpa using List.find?_some h⟩

theorem LiveSlots.reapSlot (h : LiveSlots opts s) (hi : Taken opts s i) :
    LiveSlots opts (reapSlot i now status s) := by
  constructor
  · intro j hj
    obtain ⟨htaken, hne⟩ := hj.of_reapSlot
    rw [pid_reapSlot]
    exact Finset.mem_erase.mpr ⟨fun heq => hne (h.distinct j i htaken hi heq), h.live j htaken⟩
  · intro j k hj hk heq
    rw [pid_reapSlot, pid_reapSlot] at heq
    exact h.distinct j k hj.of_reapSlot.1 hk.of_reapSlot.1 heq

theorem reapChild_eq_some {child : ℤ × ℤ}
    (h : reapChild opts now s child = some s') :
    ∃ i, slotOf opts child.1 s = some i ∧ s' = Sc2.reapSlot i now child.2 s := by
  obtain ⟨i, hslot, hs'⟩ := Option.map_eq_some_iff.mp h
  refine ⟨i, hslot, ?_⟩
  rw [← hs', ← (slotOf_spec hslot).2]
  rfl

end

theorem Reaping.reapSlot {i : ℕ} {child : ℤ × ℤ}
    {exited : List (ℤ × ℤ)} (h : Reaping opts s (child :: exited)) (hpos : 0 < child.1)
    (hslot : slotOf opts child.1 s = some i) :
    Reaping opts (reapSlot i now child.2 s) exited := by
  obtain ⟨hi, hpid⟩ := slotOf_spec hslot
  have htaken : Taken opts s i :=
    ⟨hi, hpid ▸ hpos, h.unflagged child List.mem_cons_self i hslot⟩
  have hnodup := h.nodup
  rw [List.map_cons, List.nodup_cons] at hnodup
  refine ⟨h.slots.reapSlot htaken, ?_, h.unblocked, hnodup.2, ?_, ?_⟩
  · have hhere := h.here
    change KillsAt opts (Sc2.reapSlot i now child.2 s) s.point
    cases hpoint : s.point with
    | kill k nleft start =>
      rw [hpoint] at hhere
      refine Taken.reapSlot hhere ?_
      rintro rfl
      exact h.aside k nleft start hpoint child List.mem_cons_self hpid.symm
    | resetFlags k =>
      rw [hpoint] at hhere
      exact (pid_reapSlot k).trans hhere
    | register =>
      refine absurd ?_ h.unblocked
      rw [hpoint]
      trivial
    | _ => trivial
  · intro k nleft start hpoint other hother
    rw [pid_reapSlot]
    exact h.aside k nleft start hpoint other (List.mem_cons_of_mem _ hother)
  · intro other hother j hj
    rw [slotOf_reapSlot] at hj
    have hne : j ≠ i := by
      rintro rfl
      refine hnodup.1 ?_
      rw [← hpid, (slotOf_spec hj).2]
      exact List.mem_map_of_mem hother
    rw [waited_reapSlot_of_ne hne]
    exact h.unflagged other (List.mem_cons_of_mem _ hother) j hj

structure Reaped (s s' : State) (exited : List (ℤ × ℤ)) : Prop where
  point : s'.point = s.point
  blocked : s'.blocked = s.blocked
  kills : s'.kills = s.kills
  pid : ∀ i, (s'.children i).pid = (s.children i).pid
  unwaited : ∀ pid, pid ∈ s'.unwaited → pid ∈ s.unwaited ∧ pid ∉ exited.map (·.1)

/-- The induction is on the children that have exited. -/
theorem foldlM_reaped (exited : List (ℤ × ℤ)) : ∀ {s s' : State},
    exited.foldlM (reapChild opts now) s = some s' → Reaped s s' exited := by
  induction exited with
  | nil =>
    intro s s' h
    cases h
    exact ⟨rfl, rfl, rfl, fun _ => rfl, fun pid hpid => ⟨hpid, List.not_mem_nil⟩⟩
  | cons child exited ih =>
    intro s s' h
    rw [List.foldlM_cons] at h
    obtain ⟨mid, hmid, hrest⟩ := Option.bind_eq_some_iff.mp h
    obtain ⟨i, hslot, rfl⟩ := reapChild_eq_some hmid
    obtain ⟨hpoint, hblocked, hkills, hpid, hunwaited⟩ := ih hrest
    refine ⟨hpoint, hblocked, hkills, fun j => (hpid j).trans (pid_reapSlot j), fun pid hmem => ?_⟩
    obtain ⟨hleft, hnot⟩ := hunwaited pid hmem
    change pid ∈ s.unwaited.erase (s.children i).pid at hleft
    rw [(slotOf_spec hslot).2, Finset.mem_erase] at hleft
    rw [List.map_cons, List.mem_cons, not_or]
    exact ⟨hleft.2, hleft.1, hnot⟩

theorem foldlM_reaping (exited : List (ℤ × ℤ)) : ∀ {s s' : State},
    Reaping opts s exited → (∀ child ∈ exited, 0 < child.1) →
      exited.foldlM (reapChild opts now) s = some s' → Reaping opts s' [] := by
  induction exited with
  | nil =>
    intro s s' hs _ h
    cases h
    exact hs
  | cons child exited ih =>
    intro s s' hs hpos h
    rw [List.foldlM_cons] at h
    obtain ⟨mid, hmid, hrest⟩ := Option.bind_eq_some_iff.mp h
    obtain ⟨i, hslot, rfl⟩ := reapChild_eq_some hmid
    exact ih (hs.reapSlot (hpos child List.mem_cons_self) hslot)
      (fun other hother => hpos other (List.mem_cons_of_mem _ hother)) hrest

section

variable (h : Kills opts s)

include h

theorem sc2ReapChildren_kills (hunblocked : s.blocked = false) (hcareful : Careful opts s (.sigchld now)) :
    Kills opts (sc2ReapChildren opts now s) := by
  have hpoint : ¬ Blocks s.point := by
    intro hblocks
    have hblocked := h.blocked hblocks
    rw [hunblocked] at hblocked
    cases hblocked
  obtain ⟨haside, hunflagged⟩ := hcareful now rfl
  unfold sc2ReapChildren
  cases hfold : s.exited.foldlM (reapChild opts now) s with
  | none =>
    exact ⟨h.slots.shrinks (Moves.goto .aborted s).shrinks, h.positive, h.exited, h.exited_nodup,
      False.elim, trivial, h.kills⟩
  | some s' =>
    have hreaping : Reaping opts s' [] :=
      foldlM_reaping s.exited ⟨h.slots, h.here, hpoint, h.exited_nodup, haside, hunflagged⟩
        h.exited hfold
    have hreaped := foldlM_reaped s.exited hfold
    refine ⟨hreaping.slots.shrinks (Shrinks.children rfl fun _ => id), fun pid hpid => ?_,
      nofun, List.nodup_nil,
      fun hblocks => absurd hblocks hreaping.unblocked, hreaping.here.children rfl rfl, ?_⟩
    · exact h.positive pid (hreaped.unwaited pid hpid).1
    · change ∀ kill ∈ s'.kills, kill.2 = true
      rw [hreaped.kills]
      exact h.kills

theorem Kills.shrinks (hshrinks : Shrinks opts s s')
    (hunwaited : s'.unwaited = s.unwaited) (hexited : s'.exited = s.exited)
    (hkills : s'.kills = s.kills) (hblocked : Blocks s'.point → s'.blocked = true)
    (hhere : KillsAt opts s' s'.point) : Kills opts s' := by
  refine ⟨h.slots.shrinks hshrinks, ?_, ?_, ?_, hblocked, hhere, ?_⟩
  · rw [hunwaited]
    exact h.positive
  · rw [hexited]
    exact h.exited
  · rw [hexited]
    exact h.exited_nodup
  · rw [hkills]
    exact h.kills

theorem Kills.goto {point : Point} (hpoint : ¬ Blocks point)
    (hhere : KillsAt opts (goto point s) point) : Kills opts (goto point s) :=
  h.shrinks (Moves.goto point s).shrinks rfl rfl rfl (fun hblocks => absurd hblocks hpoint) hhere

theorem checkTest_kills (i : ℕ) (nleft : ℤ) (now : Timespec) :
    Kills opts (checkTest opts i nleft now s) := by
  unfold checkTest
  split
  · rename_i hmore
    dsimp only
    split
    · rename_i hlate
      exact h.goto id ⟨hmore.2, hlate.1, Bool.eq_false_of_not_eq_true hlate.2.1⟩
    · exact h.goto id trivial
  · exact h.shrinks (Shrinks.children rfl fun _ => id) rfl rfl rfl False.elim trivial

theorem killChild_kills {i : ℕ} (hi : Taken opts s i) (nleft : ℤ)
    (now : Timespec) : Kills opts (killChild i nleft now s) := by
  refine ⟨h.slots.shrinks (Shrinks.children rfl fun _ => id), h.positive, h.exited, h.exited_nodup,
    False.elim, trivial, fun kill hkill => ?_⟩
  obtain hkill | hkill := List.mem_append.mp hkill
  · exact h.kills kill hkill
  · rw [List.mem_singleton.mp hkill]
    exact decide_eq_true (h.slots.live i hi)

theorem resetTest_kills (i : ℕ) :
    Kills opts (resetTest opts i s) := by
  unfold resetTest
  split
  · dsimp only
    split
    · exact h.shrinks (Shrinks.children rfl fun _ => id) rfl rfl rfl False.elim trivial
    · exact h.goto id trivial
  · exact h.goto id trivial

theorem fork_kills {started : Timespec}
    (hpoint : s.point = .fork started) {pid : ℤ} (hpos : 0 < pid) (hnew : pid ∉ s.unwaited) :
    Kills opts (goto (.register pid started) (fork pid s)) := by
  have hblocked := h.blocked
  rw [hpoint] at hblocked
  refine ⟨h.slots.shrinks (Shrinks.children rfl fun p hp => Finset.mem_insert_of_mem hp),
    fun p hp => ?_, h.exited, h.exited_nodup, hblocked,
    ⟨Finset.mem_insert_self pid _, fun i hi heq => hnew ?_⟩, h.kills⟩
  · obtain rfl | hp := Finset.mem_insert.mp hp
    · exact hpos
    · exact h.positive p hp
  · rw [← heq]
    exact h.slots.live i ⟨hi.lt, hi.taken, hi.unflagged⟩

end

theorem LiveSlots.register (h : LiveSlots opts s) {pid : ℤ} (hmem : pid ∈ s.unwaited)
    (hother : ∀ i, Taken opts s i → (s.children i).pid ≠ pid) {i : ℕ}
    {child : Sc2Child} (hchild : child.pid = pid)
    (hchildren : s'.children = Function.update s.children i child)
    (hunwaited : s'.unwaited = s.unwaited) : LiveSlots opts s' := by
  have hself : (s'.children i).pid = pid := by rw [hchildren, Function.update_self, hchild]
  have hsame : ∀ j ≠ i, s'.children j = s.children j := by
    intro j hj
    rw [hchildren, Function.update_of_ne hj]
  have hold : ∀ j ≠ i, Taken opts s' j → Taken opts s j := by
    intro j hij hj
    obtain ⟨hlt, htaken, hunflagged⟩ := hj
    rw [hsame j hij] at htaken hunflagged
    exact ⟨hlt, htaken, hunflagged⟩
  constructor
  · intro j hj
    rw [hunwaited]
    by_cases hij : j = i
    · rw [hij, hself]
      exact hmem
    · rw [hsame j hij]
      exact h.live j (hold j hij hj)
  · intro j k hj hk heq
    by_cases hij : j = i
    · by_cases hik : k = i
      · rw [hij, hik]
      · rw [hij, hself, hsame k hik] at heq
        exact absurd heq.symm (hother k (hold k hik hk))
    · by_cases hik : k = i
      · rw [hik, hself, hsame j hij] at heq
        exact absurd heq (hother j (hold j hij hj))
      · rw [hsame j hij, hsame k hik] at heq
        exact h.distinct j k (hold j hij hj) (hold k hik hk) heq

theorem register_kills (h : Kills opts s) {pid : ℤ} {started : Timespec}
    (hpoint : s.point = .register pid started) : Kills opts (register opts pid started s) := by
  have hhere := h.here
  have hblocked := h.blocked
  rw [hpoint] at hhere hblocked
  cases hslot : freeSlot opts s with
  | none =>
    rw [register_of_full pid started hslot]
    exact h.shrinks (Shrinks.children rfl fun _ => id) rfl rfl rfl hblocked trivial
  | some i =>
    rw [register_of_free pid started hslot]
    exact ⟨h.slots.register hhere.1 hhere.2 rfl rfl rfl, h.positive, h.exited, h.exited_nodup,
      hblocked, trivial, h.kills⟩

variable {outcome : Outcome}

theorem sc2ServeIncoming_kills (h : Kills opts s)
    (hstep : sc2ServeIncoming opts s outcome = some s') : Kills opts s' := by
  unfold sc2ServeIncoming at hstep
  cases hpoint : s.point with
  | accept =>
    rw [hpoint] at hstep
    cases hstep
    cases outcome.accepted with
    | true => exact h.goto id trivial
    | false => exact h.goto id trivial
  | gettime =>
    rw [hpoint] at hstep
    obtain rfl := Option.some.inj hstep
    cases outcome.clock with
    | true => exact h.goto id trivial
    | false => exact h.goto id trivial
  | block started =>
    rw [hpoint] at hstep
    obtain rfl := Option.some.inj hstep
    exact h.shrinks (Shrinks.children rfl fun _ => id) rfl rfl rfl (fun _ => rfl) trivial
  | fork started =>
    rw [hpoint] at hstep
    dsimp only at hstep
    split at hstep
    · obtain rfl := Option.some.inj hstep
      exact h.goto id trivial
    · split at hstep
      · obtain rfl := Option.some.inj hstep
        have hblocked := h.blocked
        rw [hpoint] at hblocked
        exact h.shrinks (Shrinks.children rfl fun _ => id) rfl rfl rfl hblocked trivial
      · split at hstep
        · rename_i hpid
          cases hstep
          exact fork_kills h hpoint hpid.1 hpid.2
        · cases hstep
  | register pid started =>
    rw [hpoint] at hstep
    cases hstep
    exact register_kills h hpoint
  | unblock registered =>
    rw [hpoint] at hstep
    cases registered with
    | none =>
      cases hstep
      exact h.shrinks (Shrinks.children rfl fun _ => id) rfl rfl rfl False.elim trivial
    | some registered =>
      cases hstep
      exact h.shrinks (Shrinks.children rfl fun _ => id) rfl rfl rfl False.elim trivial
  | slotAssert i =>
    rw [hpoint] at hstep
    cases hstep
    split
    · exact h.goto id trivial
    · exact h.goto id trivial
  | _ =>
    rw [hpoint] at hstep
    cases hstep

theorem sc2Serve_kills (h : Kills opts s)
    (hstep : sc2Serve opts s outcome = some s') : Kills opts s' := by
  have hhere := h.here
  unfold sc2Serve at hstep
  cases hpoint : s.point with
  | head =>
    rw [hpoint] at hstep
    cases hstep
    exact h.goto id trivial
  | checkTest i nleft now =>
    rw [hpoint] at hstep
    cases hstep
    exact checkTest_kills h i nleft now
  | kill i nleft now =>
    rw [hpoint] at hstep hhere
    cases hstep
    exact killChild_kills h hhere nleft now
  | resetTest i =>
    rw [hpoint] at hstep
    cases hstep
    exact resetTest_kills h i
  | resetUsed i =>
    rw [hpoint] at hstep
    cases hstep
    exact h.shrinks (Shrinks.children rfl fun _ => id) rfl rfl rfl False.elim trivial
  | resetPid i =>
    rw [hpoint] at hstep
    cases hstep
    refine h.shrinks (Shrinks.setChild rfl rfl rfl) rfl rfl rfl False.elim ?_
    exact congrArg Sc2Child.pid (children_setChild_self i _ _)
  | resetFlags i =>
    rw [hpoint] at hstep hhere
    cases hstep
    exact h.shrinks (Shrinks.setChild rfl rfl hhere) rfl rfl rfl False.elim trivial
  | termTest =>
    rw [hpoint] at hstep
    cases hstep
    cases outcome.term with
    | true => exact h.goto id trivial
    | false => exact h.goto id trivial
  | capacityTest =>
    rw [hpoint] at hstep
    cases hstep
    split
    · exact h.goto id trivial
    · exact h.goto id trivial
  | poll =>
    rw [hpoint] at hstep
    cases hpolled : outcome.polled with
    | incoming | interrupted | timeout | nothing | failure | hangup =>
      rw [hpolled] at hstep
      cases hstep
      exact h.goto id trivial
  | returned | aborted =>
    rw [hpoint] at hstep
    cases hstep
  | _ =>
    rw [hpoint] at hstep
    exact sc2ServeIncoming_kills h hstep

theorem step_kills {event : Event} (h : Kills opts s)
    (hcareful : Careful opts s event) (hstep : step opts s event = some s') : Kills opts s' := by
  cases event with
  | serve outcome => exact sc2Serve_kills h hstep
  | exit pid status =>
    simp only [step] at hstep
    split at hstep
    · rename_i hpid
      cases hstep
      refine ⟨h.slots.shrinks (Shrinks.children rfl fun _ => id), h.positive,
        fun child hchild => ?_, ?_, h.blocked, h.here.children rfl rfl, h.kills⟩
      · obtain hchild | hchild := List.mem_append.mp hchild
        · exact h.exited child hchild
        · rw [List.mem_singleton.mp hchild]
          exact h.positive pid hpid.1
      · rw [List.map_append, List.nodup_append_comm]
        exact List.nodup_cons.mpr ⟨hpid.2, h.exited_nodup⟩
    · cases hstep
  | sigchld now =>
    simp only [step] at hstep
    split at hstep
    · cases hstep
    · rename_i hunblocked
      rw [not_or, Bool.not_eq_true] at hunblocked
      cases hstep
      exact sc2ReapChildren_kills h hunblocked.1 hcareful

theorem init_kills : Kills opts init := by
  have hnone : ∀ i, ¬ Taken opts init i := fun i hi => lt_irrefl 0 hi.taken
  exact ⟨⟨fun i hi => absurd hi (hnone i), fun i _ hi => absurd hi (hnone i)⟩,
    fun pid hpid => absurd hpid (Finset.notMem_empty pid),
    nofun, List.nodup_nil, False.elim, trivial,
    nofun⟩

theorem Run.kills (h : Run opts (Careful opts) s) : Kills opts s := by
  refine Reachable.invariant ?_ ?_ h
  · rintro s rfl
    exact init_kills
  · exact fun before event after hbefore hcareful hstep => step_kills hbefore hcareful hstep

theorem killed_dead {reaped killed : State} {i : ℕ} {nleft : ℤ} {start : Timespec}
    (hpoint : s.point = .kill i nleft start)
    (hexited : (s.children i).pid ∈ s.exited.map (·.1))
    (hreaped : step opts s (.sigchld now) = some reaped) (hunfailed : reaped.point ≠ .aborted)
    (hkilled : step opts reaped (.serve outcome) = some killed) :
    ((s.children i).pid, false) ∈ killed.kills := by
  simp only [step] at hreaped
  split at hreaped
  · cases hreaped
  · cases hreaped
    unfold sc2ReapChildren at hunfailed hkilled
    cases hfold : s.exited.foldlM (reapChild opts now) s with
    | none =>
      rw [hfold] at hunfailed
      exact absurd rfl hunfailed
    | some s' =>
      obtain ⟨hsame, -, -, hpid, hunwaited⟩ := foldlM_reaped s.exited hfold
      rw [hfold] at hkilled
      simp only [step, sc2Serve, hsame, hpoint] at hkilled
      cases hkilled
      refine List.mem_append_right _ (List.mem_singleton.mpr ?_)
      have hdead : (s'.children i).pid ∉ s'.unwaited := by
        rw [hpid]
        exact fun hmem => (hunwaited _ hmem).2 hexited
      exact Prod.ext (hpid i).symm (decide_eq_false hdead).symm

/-- Every kill goes to a child that has not been waited for; where the handler
reaps the child of a slot between its test and its kill, the kill goes to none. -/
theorem kills_live {s : State} (h : Run opts (Careful opts) s) :
    (∀ kill ∈ s.kills, kill.2 = true) ∧
      ∀ i nleft start now outcome reaped killed, s.point = .kill i nleft start →
        (s.children i).pid ∈ s.exited.map (·.1) → step opts s (.sigchld now) = some reaped →
          reaped.point ≠ .aborted → step opts reaped (.serve outcome) = some killed →
            ((s.children i).pid, false) ∈ killed.kills := by
  refine ⟨(Run.kills h).kills, fun i nleft start now outcome reaped killed hpoint hexited => ?_⟩
  exact killed_dead hpoint hexited

/-! A child that has served for too long -/

def late : Outcome := { quiet with now := ⟨10, 0⟩ }

theorem serve_careful (s : State) (outcome : Outcome) : Careful opts s (.serve outcome) :=
  fun _ heq => Event.noConfusion heq

theorem late_fresh (s : State) : FreshPid opts s (.serve late) := by
  intro outcome started pid heq _ hforked
  cases heq
  cases hforked

def killing : List Event :=
  (List.replicate 10 quiet ++ forked :: List.replicate 3 quiet ++ [late, quiet, quiet]).map .serve

theorem killing_careful : ∀ event ∈ killing, ∀ s, Careful opts s event := by
  intro event hevent s
  obtain ⟨outcome, -, rfl⟩ := List.mem_map.mp hevent
  exact serve_careful s outcome

theorem kills_live_sample : ∃ s : State, s.kills =
    [(7, true)] ∧ ∀ kill ∈ s.kills, kill.2 = true := by
  have hkilled : Run oneSlot (Careful oneSlot) _ :=
    Reachable.foldlM (fun _ _ _ hnext => hnext) killing_careful (.initial rfl) rfl
  exact ⟨_, by decide, (kills_live hkilled).1⟩

/-- Even where no pid is used again, the handler may reap a child between the
test of its slot and its kill. -/
theorem killed_after_wait : ¬ ∀ (opts : Sc2Opts) (s : State), Run opts (FreshPid opts) s →
    ∀ kill ∈ s.kills, kill.2 = true := by
  intro hlive
  have hfork : Run oneSlot (FreshPid oneSlot) _ := Run.quiet 10 (.initial rfl) rfl
  have hregister : Run oneSlot (FreshPid oneSlot) _ :=
    @Reachable.step _ _ _ _ _ _ _ (.serve forked) hfork (forked_fresh (by decide)) rfl
  have hhead : Run oneSlot (FreshPid oneSlot) _ := Run.quiet 3 hregister rfl
  have htest : Run oneSlot (FreshPid oneSlot) _ :=
    @Reachable.step _ _ _ _ _ _ _ (.serve late) hhead (late_fresh _) rfl
  have hkill : Run oneSlot (FreshPid oneSlot) _ := Run.quiet 1 htest rfl
  have hexited : Run oneSlot (FreshPid oneSlot) _ := .step hkill (exit_fresh _ 7 0) rfl
  have hreaped : Run oneSlot (FreshPid oneSlot) _ :=
    .step hexited (sigchld_fresh _ ⟨10, 0⟩) rfl
  have hkilled : Run oneSlot (FreshPid oneSlot) _ := Run.quiet 1 hreaped rfl
  have hdead := hlive oneSlot _ hkilled
  exact absurd hdead (by decide)

end Yans.Apps.Sc2
