import Mathlib.Data.Finset.Insert
import Mathlib.Data.List.Nodup
import Yans.Apps.Sc2

/-! The accounts of the slots. The handler changes a slot only while its child
is there, from the registration on to the release; both sides agree on the slots
at every point at which the handler may run. -/
namespace Yans.Apps.Sc2

open Library.Runs

variable {opts : Sc2Opts}

def usedSlots (opts : Sc2Opts) (s : State) : Finset ℕ :=
  (Finset.range opts.maxreqs).filter fun i => 0 < (s.children i).pid

variable {s s' : State}

theorem mem_usedSlots {i : ℕ} :
    i ∈ usedSlots opts s ↔ i < opts.maxreqs ∧ 0 < (s.children i).pid := by
  rw [usedSlots, Finset.mem_filter, Finset.mem_range]

/-! What is unfinished at a point -/

/-- A child that has been forked and is not in a slot yet. -/
def registering : Point → Option ℤ
  | .register pid _ => some pid
  | _ => none

/-- A slot that is not counted any more, and still taken. -/
def releasing : Point → ℤ
  | .resetPid _ => 1
  | _ => 0

def clearing : Point → Option ℕ
  | .resetFlags i => some i
  | _ => none

def Blocks : Point → Prop
  | .fork _ | .register _ _ | .unblock _ => True
  | _ => False

def AtPoint (opts : Sc2Opts) (s : State) : Point → Prop
  | .kill i _ _ => i < opts.maxreqs ∧ 0 < (s.children i).pid
  | .resetUsed i | .resetPid i =>
    i < opts.maxreqs ∧ 0 < (s.children i).pid ∧ (s.children i).waited = true
  | .resetFlags i => i < opts.maxreqs ∧ (s.children i).pid = 0
  | .poll | .accept | .gettime | .block _ | .fork _ => s.used < opts.maxreqs
  | .register pid _ =>
    s.used < opts.maxreqs ∧ pid ∈ s.unwaited ∧ ∀ i < opts.maxreqs, (s.children i).pid ≠ pid
  | .unblock (some (_, i)) | .slotAssert i => i < opts.maxreqs
  | .aborted => False
  | _ => True

/-- Each child that has not been waited for is in one slot, and each slot that is
not flagged has such a child. -/
structure Slots (opts : Sc2Opts) (s : State) : Prop where
  distinct : ∀ i < opts.maxreqs, ∀ j < opts.maxreqs, 0 < (s.children i).pid →
    (s.children i).pid = (s.children j).pid → i = j
  live : ∀ i < opts.maxreqs, 0 < (s.children i).pid →
    ((s.children i).waited = false ↔ (s.children i).pid ∈ s.unwaited)
  known : ∀ pid ∈ s.unwaited, (∃ i < opts.maxreqs, (s.children i).pid = pid) ∨
    registering s.point = some pid
  positive : ∀ pid ∈ s.unwaited, 0 < pid
  free : ∀ i < opts.maxreqs, (s.children i).pid ≤ 0 → (s.children i).waited = true →
    clearing s.point = some i
  count : s.used + releasing s.point = (usedSlots opts s).card

structure Holds (opts : Sc2Opts) (s : State) (c i : ℕ) : Prop where
  lt : i < opts.maxreqs
  taken : 0 < (s.children i).pid
  waited : (s.children i).waited = true
  serial : s.serial i = c

structure Releases (opts : Sc2Opts) (s : State) : Prop where
  reaped_nodup : s.reaped.Nodup
  released_nodup : s.released.Nodup
  released_reaped : ∀ c ∈ s.released, c ∈ s.reaped
  reaped_lt : ∀ c ∈ s.reaped, c < s.nforks
  serial_lt : ∀ i < opts.maxreqs, 0 < (s.children i).pid → s.serial i < s.nforks
  apart : ∀ i < opts.maxreqs, ∀ j < opts.maxreqs, 0 < (s.children i).pid →
    0 < (s.children j).pid → s.serial i = s.serial j → i = j
  waited : ∀ i < opts.maxreqs, 0 < (s.children i).pid →
    ((s.children i).waited = true ↔ s.serial i ∈ s.reaped)
  unreleased : ∀ i < opts.maxreqs, 0 < (s.children i).pid → s.serial i ∉ s.released
  covered : ∀ c ∈ s.reaped, c ∈ s.released ∨ ∃ i, Holds opts s c i

/-- Those that had been reaped when the slots were first looked at are released
or are in a slot from `k` on. -/
def CoveredFrom (opts : Sc2Opts) (s : State) (k : ℕ) : Prop :=
  ∀ c ∈ s.reapedAtReset, c ∈ s.released ∨ ∃ i, k ≤ i ∧ Holds opts s c i

def Pass (opts : Sc2Opts) (s : State) : Point → Prop
  | .resetTest k | .resetUsed k | .resetPid k => CoveredFrom opts s k
  | .resetFlags k => CoveredFrom opts s (k + 1)
  | .termTest => ∀ c ∈ s.reapedAtReset, c ∈ s.released
  | _ => True

structure Inv (opts : Sc2Opts) (s : State) : Prop where
  slots : Slots opts s
  exited : ∀ child ∈ s.exited, child.1 ∈ s.unwaited
  exited_nodup : (s.exited.map (·.1)).Nodup
  blocked : Blocks s.point → s.blocked = true
  here : AtPoint opts s s.point
  releases : Releases opts s
  pass : Pass opts s s.point

/-! Steps that leave the slots alone -/

structure Moves (s s' : State) : Prop where
  children : s'.children = s.children
  unwaited : s'.unwaited = s.unwaited
  nforks : s'.nforks = s.nforks
  serial : s'.serial = s.serial
  reaped : s'.reaped = s.reaped
  released : s'.released = s.released

theorem Moves.goto (point : Point) (s : State) : Moves s (goto point s) :=
  ⟨rfl, rfl, rfl, rfl, rfl, rfl⟩

theorem Moves.usedSlots (h : Moves s s') : usedSlots opts s' = usedSlots opts s := by
  unfold Sc2.usedSlots
  rw [h.children]

theorem Slots.moves (h : Slots opts s) (hmoves : Moves s s')
    (hregistering : registering s.point = none)
    (hused : s'.used + releasing s'.point = s.used + releasing s.point)
    (hclearing : clearing s.point = none) : Slots opts s' := by
  refine ⟨?_, ?_, fun pid hpid => ?_, ?_, fun i hi hpid hwaited => ?_, ?_⟩
  · rw [hmoves.children]
    exact h.distinct
  · rw [hmoves.children, hmoves.unwaited]
    exact h.live
  · rw [hmoves.unwaited] at hpid
    rw [hmoves.children]
    refine .inl ((h.known pid hpid).resolve_right fun heq => ?_)
    rw [hregistering] at heq
    cases heq
  · rw [hmoves.unwaited]
    exact h.positive
  · rw [hmoves.children] at hpid hwaited
    have heq := h.free i hi hpid hwaited
    rw [hclearing] at heq
    cases heq
  · rw [hmoves.usedSlots, hused]
    exact h.count

theorem Moves.holds (h : Moves s s') {c i : ℕ} :
    Holds opts s' c i ↔ Holds opts s c i := by
  constructor
  · rintro ⟨hlt, htaken, hwaited, hserial⟩
    rw [h.children] at htaken hwaited
    rw [h.serial] at hserial
    exact ⟨hlt, htaken, hwaited, hserial⟩
  · rintro ⟨hlt, htaken, hwaited, hserial⟩
    rw [← h.children] at htaken hwaited
    rw [← h.serial] at hserial
    exact ⟨hlt, htaken, hwaited, hserial⟩

theorem Releases.moves (h : Releases opts s) (hmoves : Moves s s') :
    Releases opts s' := by
  obtain ⟨hreaped, hreleased, hsub, hlt, hserial, hapart, hwaited, hunreleased, hcovered⟩ := h
  rw [← hmoves.reaped] at hreaped hsub hlt hwaited hcovered
  rw [← hmoves.released] at hreleased hsub hunreleased hcovered
  rw [← hmoves.nforks] at hlt hserial
  rw [← hmoves.serial] at hserial hapart hwaited hunreleased
  rw [← hmoves.children] at hserial hapart hwaited hunreleased
  refine ⟨hreaped, hreleased, hsub, hlt, hserial, hapart, hwaited, hunreleased, fun c hc => ?_⟩
  refine (hcovered c hc).imp_right fun ⟨i, hi⟩ => ⟨i, hmoves.holds.mpr hi⟩

theorem CoveredFrom.moves {k : ℕ} (h : CoveredFrom opts s k) (hmoves : Moves s s')
    (hsame : s'.reapedAtReset = s.reapedAtReset) : CoveredFrom opts s' k := by
  intro c hc
  rw [hsame] at hc
  rw [hmoves.released]
  exact (h c hc).imp_right fun ⟨i, hki, hi⟩ => ⟨i, hki, hmoves.holds.mpr hi⟩

theorem Pass.moves {point : Point} (h : Pass opts s point) (hmoves : Moves s s')
    (hsame : s'.reapedAtReset = s.reapedAtReset) : Pass opts s' point := by
  cases point with
  | resetTest k | resetUsed k | resetPid k | resetFlags k => exact CoveredFrom.moves h hmoves hsame
  | termTest =>
    intro c hc
    rw [hsame] at hc
    rw [hmoves.released]
    exact h c hc
  | _ => exact h

theorem Inv.moves (h : Inv opts s) (hmoves : Moves s s')
    (hexited : s'.exited = s.exited) (hregistering : registering s.point = none)
    (hused : s'.used + releasing s'.point = s.used + releasing s.point)
    (hclearing : clearing s.point = none) (hblocked : Blocks s'.point → s'.blocked = true)
    (hhere : AtPoint opts s' s'.point) (hpass : Pass opts s' s'.point) : Inv opts s' := by
  refine ⟨h.slots.moves hmoves hregistering hused hclearing, ?_, ?_, hblocked, hhere,
    h.releases.moves hmoves, hpass⟩
  · rw [hexited, hmoves.unwaited]
    exact h.exited
  · rw [hexited]
    exact h.exited_nodup

@[simp] theorem children_setChild_self (i : ℕ) (child : Sc2Child) (s : State) :
    (setChild i child s).children i = child := Function.update_self ..

theorem children_setChild_of_ne {i j : ℕ} (hj : j ≠ i) (child : Sc2Child) (s : State) :
    (setChild i child s).children j = s.children j := Function.update_of_ne hj ..

theorem slotOf_eq_some {pid : ℤ} {i : ℕ} (hi : i < opts.maxreqs)
    (hpid : (s.children i).pid = pid) :
    ∃ j < opts.maxreqs, (s.children j).pid = pid ∧ slotOf opts pid s = some j := by
  have hsome : (slotOf opts pid s).isSome := by
    unfold slotOf
    rw [List.find?_isSome]
    exact ⟨i, List.mem_range.mpr hi, decide_eq_true hpid⟩
  obtain ⟨j, hj⟩ := Option.isSome_iff_exists.mp hsome
  have hfound := hj
  refine ⟨j, ?_, ?_, hj⟩
  · exact List.mem_range.mp (List.mem_of_find?_eq_some hfound)
  · simpa using List.find?_some hfound

structure Handling (opts : Sc2Opts) (s : State) : Prop where
  slots : Slots opts s
  unblocked : ¬ Blocks s.point
  here : AtPoint opts s s.point
  releases : Releases opts s
  pass : Pass opts s s.point

theorem registering_of_unblocked {point : Point} (h : ¬ Blocks point) :
    registering point = none := by
  cases point with
  | register => exact absurd trivial h
  | _ => rfl

/-- The state when the child in the slot `i` has been waited for. -/
def reapSlot (i : ℕ) (now : Timespec) (status : ℤ) (s : State) : State :=
  setChild i { s.children i with waited := true, completed := now, status := status }
    { s with
      unwaited := s.unwaited.erase (s.children i).pid
      reaped := s.reaped ++ [s.serial i] }

section

variable {i : ℕ} {now : Timespec} {status : ℤ}

theorem pid_reapSlot (j : ℕ) :
    ((reapSlot i now status s).children j).pid = (s.children j).pid := by
  by_cases hj : j = i
  · rw [hj, reapSlot, children_setChild_self]
  · rw [reapSlot, children_setChild_of_ne hj]

theorem waited_reapSlot_self : ((reapSlot i now status s).children i).waited = true := by
  rw [reapSlot, children_setChild_self]

theorem waited_reapSlot_of_ne {j : ℕ} (hj : j ≠ i) :
    ((reapSlot i now status s).children j).waited = (s.children j).waited := by
  rw [reapSlot, children_setChild_of_ne hj]

theorem Holds.reapSlot {c j : ℕ} (h : Holds opts s c j) : Holds opts
    (reapSlot i now status s) c j := by
  refine ⟨h.lt, ?_, ?_, h.serial⟩
  · rw [pid_reapSlot]
    exact h.taken
  · by_cases hj : j = i
    · rw [hj]
      exact waited_reapSlot_self
    · rw [waited_reapSlot_of_ne hj]
      exact h.waited

theorem usedSlots_reapSlot : usedSlots opts (reapSlot i now status s) = usedSlots opts s := by
  unfold usedSlots
  simp only [pid_reapSlot]

theorem Slots.reapSlot (h : Slots opts s) (hi : i < opts.maxreqs) (hpos : 0 < (s.children i).pid) :
    Slots opts (reapSlot i now status s) := by
  refine ⟨?_, fun j hj hjpos => ?_, fun pid hpid => ?_, fun pid hpid => ?_,
    fun j hj hjpid hwaited => ?_, ?_⟩
  · simp only [pid_reapSlot]
    exact h.distinct
  · rw [pid_reapSlot] at hjpos ⊢
    change _ ↔ _ ∈ s.unwaited.erase (s.children i).pid
    rw [Finset.mem_erase]
    by_cases hij : j = i
    · subst hij
      rw [waited_reapSlot_self]
      exact iff_of_false (Bool.noConfusion) fun hmem => hmem.1 rfl
    · rw [waited_reapSlot_of_ne hij, h.live j hj hjpos]
      refine ⟨fun hmem => ⟨fun heq => hij ?_, hmem⟩, fun hmem => hmem.2⟩
      exact h.distinct j hj i hi hjpos heq
  · obtain hknown | hregistering := h.known pid (Finset.mem_of_mem_erase hpid)
    · obtain ⟨j, hj, hjpid⟩ := hknown
      exact .inl ⟨j, hj, by rw [pid_reapSlot, hjpid]⟩
    · exact .inr hregistering
  · exact h.positive pid (Finset.mem_of_mem_erase hpid)
  · rw [pid_reapSlot] at hjpid
    have hij : j ≠ i := by
      rintro rfl
      omega
    rw [waited_reapSlot_of_ne hij] at hwaited
    exact h.free j hj hjpid hwaited
  · rw [usedSlots_reapSlot]
    exact h.count

theorem Releases.reapSlot (h : Releases opts s) (hi : i < opts.maxreqs)
    (hpos : 0 < (s.children i).pid) (hwaited : (s.children i).waited = false) :
    Releases opts (reapSlot i now status s) := by
  have hnew : s.serial i ∉ s.reaped := by
    rw [← h.waited i hi hpos, hwaited]
    exact Bool.noConfusion
  have hreaped : (Sc2.reapSlot i now status s).reaped = s.reaped ++ [s.serial i] := rfl
  refine ⟨?_, h.released_nodup, fun c hc => ?_, fun c hc => ?_, fun j hj hjpos => ?_,
    fun j hj k hk hjpos hkpos => ?_, fun j hj hjpos => ?_, fun j hj hjpos => ?_, fun c hc => ?_⟩
  · rw [hreaped, List.nodup_append_comm]
    exact List.nodup_cons.mpr ⟨hnew, h.reaped_nodup⟩
  · exact List.mem_append_left _ (h.released_reaped c hc)
  · rw [hreaped, List.mem_append, List.mem_singleton] at hc
    obtain hc | rfl := hc
    · exact h.reaped_lt c hc
    · exact h.serial_lt i hi hpos
  · rw [pid_reapSlot] at hjpos
    exact h.serial_lt j hj hjpos
  · rw [pid_reapSlot] at hjpos hkpos
    exact h.apart j hj k hk hjpos hkpos
  · rw [pid_reapSlot] at hjpos
    rw [hreaped, List.mem_append, List.mem_singleton]
    by_cases hij : j = i
    · rw [hij, waited_reapSlot_self]
      exact iff_of_true rfl (.inr rfl)
    · rw [waited_reapSlot_of_ne hij, h.waited j hj hjpos]
      exact (or_iff_left fun heq => hij (h.apart j hj i hi hjpos hpos heq)).symm
  · rw [pid_reapSlot] at hjpos
    exact h.unreleased j hj hjpos
  · rw [hreaped, List.mem_append, List.mem_singleton] at hc
    obtain hc | rfl := hc
    · exact (h.covered c hc).imp_right fun ⟨j, hj⟩ => ⟨j, hj.reapSlot⟩
    · refine .inr ⟨i, hi, ?_, waited_reapSlot_self, rfl⟩
      rw [pid_reapSlot]
      exact hpos

theorem AtPoint.reapSlot {point : Point} (hpoint : ¬ Blocks point) (h : AtPoint opts s point) :
    AtPoint opts (reapSlot i now status s) point := by
  cases point with
  | kill j => exact ⟨h.1, by rw [pid_reapSlot]; exact h.2⟩
  | resetUsed j | resetPid j =>
    obtain ⟨hj, hpos, hwaited⟩ := h
    have hholds : Holds opts s (s.serial j) j := ⟨hj, hpos, hwaited, rfl⟩
    exact ⟨hj, hholds.reapSlot.taken, hholds.reapSlot.waited⟩
  | resetFlags j => exact ⟨h.1, by rw [pid_reapSlot]; exact h.2⟩
  | register => exact absurd trivial hpoint
  | fork => exact absurd trivial hpoint
  | unblock => exact absurd trivial hpoint
  | _ => exact h

theorem CoveredFrom.reapSlot {k : ℕ} (h : CoveredFrom opts s k) :
    CoveredFrom opts (reapSlot i now status s) k := by
  intro c hc
  exact (h c hc).imp_right fun ⟨j, hkj, hj⟩ => ⟨j, hkj, hj.reapSlot⟩

theorem Pass.reapSlot {point : Point} (h : Pass opts s point) :
    Pass opts (reapSlot i now status s) point := by
  cases point with
  | resetTest k | resetUsed k | resetPid k => exact CoveredFrom.reapSlot h
  | resetFlags k => exact CoveredFrom.reapSlot h
  | _ => exact h

end

theorem reapChild_spec (h : Handling opts s) (now : Timespec) {child : ℤ × ℤ}
    (hchild : child.1 ∈ s.unwaited) :
    ∃ i, (s.children i).pid = child.1 ∧ Handling opts (reapSlot i now child.2 s) ∧
      reapChild opts now s child = some (reapSlot i now child.2 s) := by
  obtain ⟨j, hj, hjpid⟩ := (h.slots.known child.1 hchild).resolve_right fun heq => by
    rw [registering_of_unblocked h.unblocked] at heq
    cases heq
  obtain ⟨i, hi, hpid, hslot⟩ := slotOf_eq_some hj hjpid
  have hpos : 0 < (s.children i).pid := hpid ▸ h.slots.positive child.1 hchild
  have hwaited : (s.children i).waited = false := by
    rw [h.slots.live i hi hpos, hpid]
    exact hchild
  refine ⟨i, hpid, ⟨h.slots.reapSlot hi hpos, h.unblocked, h.here.reapSlot h.unblocked,
    h.releases.reapSlot hi hpos hwaited, h.pass.reapSlot⟩, ?_⟩
  unfold reapChild reapSlot
  rw [hslot, hpid]
  rfl

/-- The induction is on the children that have exited. -/
theorem foldlM_reapChild (now : Timespec) (exited : List (ℤ × ℤ)) : ∀ {s : State},
    Handling opts s → (∀ child ∈ exited, child.1 ∈ s.unwaited) → (exited.map (·.1)).Nodup →
    ∃ s', exited.foldlM (reapChild opts now) s = some s' ∧ Handling opts s' ∧
      s'.point = s.point ∧ s'.blocked = s.blocked := by
  induction exited with
  | nil => exact fun {s} h _ _ => ⟨s, rfl, h, rfl, rfl⟩
  | cons child exited ih =>
    intro s h hexited hnodup
    rw [List.map_cons, List.nodup_cons] at hnodup
    obtain ⟨i, hpid, hreap, heq⟩ := reapChild_spec h now (hexited child List.mem_cons_self)
    have hrest : ∀ other ∈ exited, other.1 ∈ (reapSlot i now child.2 s).unwaited := by
      intro other hother
      refine Finset.mem_erase.mpr ⟨fun hsame => hnodup.1 ?_,
        hexited other (List.mem_cons_of_mem _ hother)⟩
      rw [← hpid, ← hsame]
      exact List.mem_map_of_mem hother
    obtain ⟨s', hfold, hs', hpoint, hblocked⟩ := ih hreap hrest hnodup.2
    refine ⟨s', ?_, hs', hpoint, hblocked⟩
    rw [List.foldlM_cons, heq]
    exact hfold

theorem Inv.handling (h : Inv opts s) (hunblocked : s.blocked = false) :
    Handling opts s := by
  refine ⟨h.slots, fun hblocks => ?_, h.here, h.releases, h.pass⟩
  have hblocked := h.blocked hblocks
  rw [hunblocked] at hblocked
  cases hblocked

theorem sc2ReapChildren_inv (h : Inv opts s) (hunblocked : s.blocked = false)
    (now : Timespec) : Inv opts (sc2ReapChildren opts now s) := by
  obtain ⟨s', hfold, hs', hpoint, hblocked⟩ :=
    foldlM_reapChild now s.exited (h.handling hunblocked) h.exited h.exited_nodup
  unfold sc2ReapChildren
  rw [hfold]
  obtain ⟨hslots, -, hhere, hreleases, hpass⟩ := hs'
  have hmoves : Moves s' { s' with exited := [] } := ⟨rfl, rfl, rfl, rfl, rfl, rfl⟩
  refine ⟨⟨hslots.distinct, hslots.live, hslots.known, hslots.positive, hslots.free, hslots.count⟩,
    ?_, List.nodup_nil, ?_, ?_, hreleases.moves hmoves, ?_⟩
  · exact nofun
  · change Blocks s'.point → s'.blocked = true
    rw [hpoint, hblocked]
    exact h.blocked
  · exact hhere
  · exact Pass.moves hpass hmoves rfl

structure Plain (point : Point) : Prop where
  registering : registering point = none
  releasing : releasing point = 0
  clearing : clearing point = none
  unblocked : ¬ Blocks point

section

variable (h : Inv opts s)

include h

theorem Inv.plain (hplain : Plain s.point) (hmoves : Moves s s')
    (hexited : s'.exited = s.exited) (hused : s'.used = s.used) (hplain' : Plain s'.point)
    (hhere : AtPoint opts s' s'.point) (hpass : Pass opts s' s'.point) : Inv opts s' := by
  refine h.moves hmoves hexited hplain.registering ?_ hplain.clearing ?_ hhere hpass
  · rw [hused, hplain.releasing, hplain'.releasing]
  · exact fun hblocks => absurd hblocks hplain'.unblocked

theorem checkTest_inv (hplain : Plain s.point) (i : ℕ) (nleft : ℤ)
    (now : Timespec) : Inv opts (checkTest opts i nleft now s) := by
  unfold checkTest
  split
  · rename_i hmore
    dsimp only
    split
    · rename_i hlate
      exact h.plain hplain (.goto _ _) rfl rfl ⟨rfl, rfl, rfl, id⟩ ⟨hmore.2, hlate.1⟩ trivial
    · exact h.plain hplain (.goto _ _) rfl rfl ⟨rfl, rfl, rfl, id⟩ trivial trivial
  · refine h.plain hplain ⟨rfl, rfl, rfl, rfl, rfl, rfl⟩ rfl rfl ⟨rfl, rfl, rfl, id⟩ trivial ?_
    intro c hc
    exact (h.releases.covered c hc).imp_right fun ⟨i, hi⟩ =>
      ⟨i, Nat.zero_le i, hi.lt, hi.taken, hi.waited, hi.serial⟩

theorem resetTest_inv (hplain : Plain s.point) {i : ℕ}
    (hcovered : CoveredFrom opts s i) : Inv opts (resetTest opts i s) := by
  unfold resetTest
  split
  · rename_i hi
    dsimp only
    split
    · rename_i hwaited
      have hpos : 0 < (s.children i).pid := by
        by_contra hfree
        have hclear := h.slots.free i hi (not_lt.mp hfree) hwaited
        rw [hplain.clearing] at hclear
        cases hclear
      exact h.plain hplain ⟨rfl, rfl, rfl, rfl, rfl, rfl⟩ rfl rfl ⟨rfl, rfl, rfl, id⟩
        ⟨hi, hpos, hwaited⟩ (CoveredFrom.moves hcovered ⟨rfl, rfl, rfl, rfl, rfl, rfl⟩ rfl)
    · rename_i hwaited
      refine h.plain hplain (.goto _ _) rfl rfl ⟨rfl, rfl, rfl, id⟩ trivial ?_
      refine CoveredFrom.moves (fun c hc => ?_) (.goto _ _) rfl
      refine (hcovered c hc).imp_right fun ⟨j, hij, hj⟩ => ⟨j, ?_, hj⟩
      refine Nat.succ_le_of_lt (lt_of_le_of_ne hij fun heq => hwaited ?_)
      rw [heq]
      exact hj.waited
  · rename_i hi
    refine h.plain hplain (.goto _ _) rfl rfl ⟨rfl, rfl, rfl, id⟩ trivial fun c hc => ?_
    refine (hcovered c hc).resolve_right fun ⟨j, hij, hj⟩ => ?_
    exact absurd hj.lt (by omega)

theorem resetUsed_inv {i : ℕ} (hpoint : s.point = .resetUsed i) :
    Inv opts (goto (.resetPid i) { s with used := s.used - 1 }) := by
  have hhere := h.here
  have hpass := h.pass
  have hblocked := h.blocked
  rw [hpoint] at hhere hpass hblocked
  have hmoves : Moves s (goto (.resetPid i) { s with used := s.used - 1 }) :=
    ⟨rfl, rfl, rfl, rfl, rfl, rfl⟩
  refine h.moves hmoves rfl ?_ ?_ ?_ hblocked hhere (CoveredFrom.moves hpass hmoves rfl)
  · rw [hpoint]
    rfl
  · rw [hpoint]
    exact (Int.sub_add_cancel s.used 1).trans (Int.add_zero s.used).symm
  · rw [hpoint]
    rfl

theorem resetPid_inv {i : ℕ} (hpoint : s.point = .resetPid i) :
    Inv opts (resetPid i s) := by
  have hhere := h.here
  have hpass := h.pass
  have hblocked := h.blocked
  have hcount := h.slots.count
  rw [hpoint] at hhere hpass hblocked hcount
  obtain ⟨hi, hpos, hwaited⟩ := hhere
  have hself : (resetPid i s).children i = { s.children i with pid := 0 } :=
    children_setChild_self ..
  have hother : ∀ j ≠ i, (resetPid i s).children j = s.children j :=
    fun j hj => children_setChild_of_ne hj _ _
  have hne : ∀ j, 0 < ((resetPid i s).children j).pid → j ≠ i := by
    rintro j hj rfl
    rw [hself] at hj
    exact absurd hj (lt_irrefl 0)
  have hholds : ∀ c j, j ≠ i → Holds opts s c j → Holds opts (resetPid i s) c j := by
    intro c j hj hold
    refine ⟨hold.lt, ?_, ?_, hold.serial⟩
    · rw [hother j hj]
      exact hold.taken
    · rw [hother j hj]
      exact hold.waited
  have hreleased : (resetPid i s).released = s.released ++ [s.serial i] := rfl
  have hcovered : ∀ c, (c ∈ s.released ∨ ∃ j, Holds opts s c j) →
      c ∈ (resetPid i s).released ∨ ∃ j, Holds opts (resetPid i s) c j := by
    rintro c (hc | ⟨j, hj⟩)
    · exact .inl (List.mem_append_left _ hc)
    · by_cases hij : j = i
      · refine .inl (List.mem_append_right _ ?_)
        rw [List.mem_singleton, ← hj.serial, hij]
      · exact .inr ⟨j, hholds c j hij hj⟩
  refine ⟨⟨fun j hj k hk hjpos heq => ?_, fun j hj hjpos => ?_, fun pid hpid => ?_,
    h.slots.positive, fun j hj hjpid hjwaited => ?_, ?_⟩, h.exited, h.exited_nodup, hblocked,
    ⟨hi, ?_⟩, ⟨h.releases.reaped_nodup, ?_, fun c hc => ?_, h.releases.reaped_lt,
      fun j hj hjpos => ?_, fun j hj k hk hjpos hkpos => ?_, fun j hj hjpos => ?_,
      fun j hj hjpos => ?_, fun c hc => hcovered c (h.releases.covered c hc)⟩, fun c hc => ?_⟩
  · have hkpos : 0 < ((resetPid i s).children k).pid := heq ▸ hjpos
    have hij := hne j hjpos
    have hik := hne k hkpos
    rw [hother j hij] at hjpos heq
    rw [hother k hik] at heq
    exact h.slots.distinct j hj k hk hjpos heq
  · have hij := hne j hjpos
    rw [hother j hij] at hjpos ⊢
    exact h.slots.live j hj hjpos
  · refine .inl ((h.slots.known pid hpid).elim (fun ⟨j, hj, hjpid⟩ => ⟨j, hj, ?_⟩) fun heq => ?_)
    · have hij : j ≠ i := by
        rintro rfl
        have hlive := (h.slots.live j hj hpos).mpr (hjpid ▸ hpid)
        rw [hwaited] at hlive
        cases hlive
      rw [hother j hij, hjpid]
    · rw [hpoint] at heq
      cases heq
  · by_cases hij : j = i
    · rw [hij]
      rfl
    · rw [hother j hij] at hjpid hjwaited
      have hclear := h.slots.free j hj hjpid hjwaited
      rw [hpoint] at hclear
      cases hclear
  · have herase : usedSlots opts (resetPid i s) = (usedSlots opts s).erase i := by
      ext j
      rw [Finset.mem_erase, mem_usedSlots, mem_usedSlots]
      by_cases hij : j = i
      · subst hij
        rw [hself]
        exact iff_of_false (fun hmem => lt_irrefl 0 hmem.2) fun hmem => hmem.1 rfl
      · rw [hother j hij]
        exact (and_iff_right hij).symm
    have hmem : i ∈ usedSlots opts s := mem_usedSlots.mpr ⟨hi, hpos⟩
    have hcard := Finset.card_erase_add_one hmem
    rw [herase]
    change s.used + 1 = _ at hcount
    change s.used + 0 = _
    omega
  · rw [hself]
  · rw [hreleased, List.nodup_append_comm]
    exact List.nodup_cons.mpr ⟨h.releases.unreleased i hi hpos, h.releases.released_nodup⟩
  · rw [hreleased, List.mem_append, List.mem_singleton] at hc
    obtain hc | rfl := hc
    · exact h.releases.released_reaped c hc
    · exact (h.releases.waited i hi hpos).mp hwaited
  · rw [hother j (hne j hjpos)] at hjpos
    exact h.releases.serial_lt j hj hjpos
  · rw [hother j (hne j hjpos)] at hjpos
    rw [hother k (hne k hkpos)] at hkpos
    exact h.releases.apart j hj k hk hjpos hkpos
  · have hij := hne j hjpos
    rw [hother j hij] at hjpos ⊢
    exact h.releases.waited j hj hjpos
  · have hij := hne j hjpos
    rw [hother j hij] at hjpos
    rw [hreleased, List.mem_append, List.mem_singleton, not_or]
    exact ⟨h.releases.unreleased j hj hjpos,
      fun heq => hij (h.releases.apart j hj i hi hjpos hpos heq)⟩
  · obtain hc | ⟨j, hij, hj⟩ := hpass c hc
    · exact .inl (List.mem_append_left _ hc)
    · by_cases heq : j = i
      · refine .inl (List.mem_append_right _ ?_)
        rw [List.mem_singleton, ← hj.serial, heq]
      · exact .inr ⟨j, Nat.succ_le_of_lt (lt_of_le_of_ne hij (Ne.symm heq)), hholds c j heq hj⟩

theorem resetFlags_inv {i : ℕ} (hpoint : s.point = .resetFlags i) :
    Inv opts (resetFlags i s) := by
  have hhere := h.here
  have hpass := h.pass
  have hblocked := h.blocked
  have hcount := h.slots.count
  rw [hpoint] at hhere hpass hblocked hcount
  obtain ⟨hi, hzero⟩ := hhere
  have hself : (resetFlags i s).children i = { s.children i with waited := false } :=
    children_setChild_self ..
  have hother : ∀ j ≠ i, (resetFlags i s).children j = s.children j :=
    fun j hj => children_setChild_of_ne hj _ _
  have hpid : ∀ j, ((resetFlags i s).children j).pid = (s.children j).pid := by
    intro j
    by_cases hij : j = i
    · rw [hij, hself]
    · rw [hother j hij]
  have hne : ∀ j, 0 < (s.children j).pid → j ≠ i := by
    rintro j hj rfl
    omega
  have hholds : ∀ c j, Holds opts s c j → Holds opts (resetFlags i s) c j := by
    intro c j hold
    refine ⟨hold.lt, ?_, ?_, hold.serial⟩
    · rw [hpid]
      exact hold.taken
    · rw [hother j (hne j hold.taken)]
      exact hold.waited
  refine ⟨⟨?_, fun j hj hjpos => ?_, fun pid hmem => ?_, h.slots.positive,
    fun j hj hjpid hjwaited => ?_, ?_⟩, h.exited, h.exited_nodup, hblocked, trivial,
    ⟨h.releases.reaped_nodup, h.releases.released_nodup, h.releases.released_reaped,
      h.releases.reaped_lt, ?_, ?_, fun j hj hjpos => ?_, ?_, fun c hc => ?_⟩, fun c hc => ?_⟩
  · simp only [hpid]
    exact h.slots.distinct
  · rw [hpid] at hjpos
    rw [hother j (hne j hjpos)]
    exact h.slots.live j hj hjpos
  · simp only [hpid]
    refine .inl ((h.slots.known pid hmem).resolve_right fun heq => ?_)
    rw [hpoint] at heq
    cases heq
  · by_cases hij : j = i
    · rw [hij, hself] at hjwaited
      cases hjwaited
    · rw [hother j hij] at hjpid hjwaited
      have hclear := h.slots.free j hj hjpid hjwaited
      rw [hpoint] at hclear
      exact absurd (Option.some.inj hclear).symm hij
  · unfold usedSlots
    simp only [hpid]
    exact hcount
  · simp only [hpid]
    exact h.releases.serial_lt
  · simp only [hpid]
    exact h.releases.apart
  · rw [hpid] at hjpos
    rw [hother j (hne j hjpos)]
    exact h.releases.waited j hj hjpos
  · simp only [hpid]
    exact h.releases.unreleased
  · exact (h.releases.covered c hc).imp_right fun ⟨j, hj⟩ => ⟨j, hholds c j hj⟩
  · exact (hpass c hc).imp_right fun ⟨j, hij, hj⟩ => ⟨j, hij, hholds c j hj⟩

theorem fork_inv {started : Timespec}
    (hpoint : s.point = .fork started) {pid : ℤ} (hpos : 0 < pid)
    (hfresh : ∀ i < opts.maxreqs, (s.children i).pid ≠ pid) :
    Inv opts (goto (.register pid started) (fork pid s)) := by
  have hhere := h.here
  have hblocked := h.blocked
  have hcount := h.slots.count
  rw [hpoint] at hhere hblocked hcount
  refine ⟨⟨h.slots.distinct, fun i hi hipos => ?_, fun p hp => ?_, fun p hp => ?_,
    fun i hi hipid hwaited => ?_, hcount⟩, fun child hchild => ?_, h.exited_nodup, hblocked,
    ⟨hhere, Finset.mem_insert_self pid _, hfresh⟩,
    ⟨h.releases.reaped_nodup, h.releases.released_nodup, h.releases.released_reaped,
      h.releases.reaped_lt, h.releases.serial_lt, h.releases.apart, h.releases.waited,
      h.releases.unreleased, fun c hc => ?_⟩, trivial⟩
  · have hinsert : (s.children i).pid ∈ insert pid s.unwaited ↔ (s.children i).pid ∈ s.unwaited :=
      Finset.mem_insert.trans (or_iff_right (hfresh i hi))
    exact (h.slots.live i hi hipos).trans hinsert.symm
  · obtain rfl | hp := Finset.mem_insert.mp hp
    · exact .inr rfl
    · refine .inl ((h.slots.known p hp).resolve_right fun heq => ?_)
      rw [hpoint] at heq
      cases heq
  · obtain rfl | hp := Finset.mem_insert.mp hp
    · exact hpos
    · exact h.slots.positive p hp
  · have hclear := h.slots.free i hi hipid hwaited
    rw [hpoint] at hclear
    cases hclear
  · exact Finset.mem_insert_of_mem (h.exited child hchild)
  · exact (h.releases.covered c hc).imp_right fun ⟨i, hi⟩ =>
      ⟨i, hi.lt, hi.taken, hi.waited, hi.serial⟩

end

theorem freeSlot_spec (hused : s.used < opts.maxreqs)
    (hcount : s.used = (usedSlots opts s).card) :
    ∃ i < opts.maxreqs, (s.children i).pid ≤ 0 ∧ freeSlot opts s = some i := by
  have hfree : ∃ i ∈ Finset.range opts.maxreqs, i ∉ usedSlots opts s := by
    by_contra hall
    push Not at hall
    have hcard := Finset.card_le_card hall
    rw [Finset.card_range] at hcard
    omega
  obtain ⟨i, hi, hnot⟩ := hfree
  have hi := Finset.mem_range.mp hi
  have hpid : (s.children i).pid ≤ 0 :=
    not_lt.mp fun hpos => hnot (mem_usedSlots.mpr ⟨hi, hpos⟩)
  have hsome : (freeSlot opts s).isSome := by
    unfold freeSlot
    rw [List.find?_isSome]
    exact ⟨i, List.mem_range.mpr hi, decide_eq_true hpid⟩
  obtain ⟨j, hj⟩ := Option.isSome_iff_exists.mp hsome
  have hfound := hj
  refine ⟨j, ?_, ?_, hj⟩
  · exact List.mem_range.mp (List.mem_of_find?_eq_some hfound)
  · simpa using List.find?_some hfound

theorem register_of_free {i : ℕ} (pid : ℤ) (started : Timespec)
    (hslot : freeSlot opts s = some i) :
    register opts pid started s = goto (.unblock (some (pid, i)))
      { setChild i ⟨false, 0, pid, started, ⟨0, 0⟩⟩
          { s with serial := Function.update s.serial i s.nforks } with
        used := s.used + 1
        nforks := s.nforks + 1 } := by
  unfold register
  rw [hslot]
  rfl

theorem register_of_full (pid : ℤ) (started : Timespec)
    (hslot : freeSlot opts s = none) :
    register opts pid started s = goto (.unblock (some (pid, opts.maxreqs)))
      { s with used := s.used + 1, nforks := s.nforks + 1 } := by
  unfold register
  rw [hslot]
  rfl

theorem register_inv (h : Inv opts s) {pid : ℤ} {started : Timespec}
    (hpoint : s.point = .register pid started) : Inv opts (register opts pid started s) := by
  have hhere := h.here
  have hblocked := h.blocked
  have hcount := h.slots.count
  rw [hpoint] at hhere hblocked hcount
  obtain ⟨hused, hmem, hfresh⟩ := hhere
  have hcount : s.used = (usedSlots opts s).card := (Int.add_zero s.used).symm.trans hcount
  obtain ⟨i, hi, hfree, hslot⟩ := freeSlot_spec hused hcount
  have hpos := h.slots.positive pid hmem
  rw [register_of_free pid started hslot]
  generalize hs' : (goto (.unblock (some (pid, i)))
      { setChild i ⟨false, 0, pid, started, ⟨0, 0⟩⟩
          { s with serial := Function.update s.serial i s.nforks } with
        used := s.used + 1
        nforks := s.nforks + 1 } : State) = s'
  have hself : s'.children i = ⟨false, 0, pid, started, ⟨0, 0⟩⟩ := by
    rw [← hs']
    exact Function.update_self ..
  have hother : ∀ j ≠ i, s'.children j = s.children j := by
    intro j hj
    rw [← hs']
    exact Function.update_of_ne hj ..
  have hserial : s'.serial i = s.nforks := by
    rw [← hs']
    exact Function.update_self ..
  have hserial' : ∀ j ≠ i, s'.serial j = s.serial j := by
    intro j hj
    rw [← hs']
    exact Function.update_of_ne hj ..
  have hunwaited : s'.unwaited = s.unwaited := by rw [← hs']; rfl
  have hreaped : s'.reaped = s.reaped := by rw [← hs']; rfl
  have hreleased : s'.released = s.released := by rw [← hs']; rfl
  have hnforks : s'.nforks = s.nforks + 1 := by rw [← hs']; rfl
  have hpoint' : s'.point = .unblock (some (pid, i)) := by rw [← hs']; rfl
  have hexited : s'.exited = s.exited := by rw [← hs']; rfl
  have hblocked' : s'.blocked = s.blocked := by rw [← hs']; rfl
  have hused' : s'.used = s.used + 1 := by rw [← hs']; rfl
  have hold : ∀ j, 0 < (s.children j).pid → j ≠ i := by
    rintro j hj rfl
    omega
  have hnew : s.nforks ∉ s.reaped := fun hmem => lt_irrefl _ (h.releases.reaped_lt _ hmem)
  have hholds : ∀ c j, Holds opts s c j → Holds opts s' c j := by
    intro c j hj
    have hij := hold j hj.taken
    refine ⟨hj.lt, ?_, ?_, ?_⟩
    · rw [hother j hij]
      exact hj.taken
    · rw [hother j hij]
      exact hj.waited
    · rw [hserial' j hij]
      exact hj.serial
  refine ⟨⟨fun j hj k hk hjpos hjk => ?_, fun j hj hjpos => ?_, fun p hp => ?_, ?_,
    fun j hj hjpid hwaited => ?_, ?_⟩, ?_, ?_, ?_, ?_, ⟨?_, ?_, ?_, fun c hc => ?_,
      fun j hj hjpos => ?_, fun j hj k hk hjpos hkpos hjk => ?_, fun j hj hjpos => ?_,
      fun j hj hjpos => ?_, fun c hc => ?_⟩, ?_⟩
  · by_cases hij : j = i
    · by_cases hik : k = i
      · rw [hij, hik]
      · rw [hij, hself, hother k hik] at hjk
        exact absurd hjk.symm (hfresh k hk)
    · by_cases hik : k = i
      · rw [hik, hself, hother j hij] at hjk
        exact absurd hjk (hfresh j hj)
      · rw [hother j hij] at hjpos hjk
        rw [hother k hik] at hjk
        exact h.slots.distinct j hj k hk hjpos hjk
  · rw [hunwaited]
    by_cases hij : j = i
    · rw [hij, hself]
      exact iff_of_true rfl hmem
    · rw [hother j hij] at hjpos ⊢
      exact h.slots.live j hj hjpos
  · rw [hunwaited] at hp
    refine .inl ((h.slots.known p hp).elim (fun ⟨j, hj, hjpid⟩ => ⟨j, hj, ?_⟩) fun heq => ?_)
    · rw [hother j (hold j (hjpid ▸ h.slots.positive p hp)), hjpid]
    · rw [hpoint] at heq
      refine ⟨i, hi, ?_⟩
      rw [hself]
      exact Option.some.inj heq
  · rw [hunwaited]
    exact h.slots.positive
  · by_cases hij : j = i
    · rw [hij, hself] at hwaited
      cases hwaited
    · rw [hother j hij] at hjpid hwaited
      have hclear := h.slots.free j hj hjpid hwaited
      rw [hpoint] at hclear
      cases hclear
  · have hinsert : usedSlots opts s' = insert i (usedSlots opts s) := by
      ext j
      rw [Finset.mem_insert, mem_usedSlots, mem_usedSlots]
      by_cases hij : j = i
      · rw [hij, hself]
        exact iff_of_true ⟨hi, hpos⟩ (.inl rfl)
      · rw [hother j hij]
        exact (or_iff_right hij).symm
    have hnot : i ∉ usedSlots opts s := fun hin => hold i (mem_usedSlots.mp hin).2 rfl
    rw [hinsert, Finset.card_insert_of_notMem hnot, hused', hpoint', hcount]
    exact Int.add_zero _
  · rw [hexited, hunwaited]
    exact h.exited
  · rw [hexited]
    exact h.exited_nodup
  · rw [hblocked', hpoint']
    exact hblocked
  · rw [hpoint']
    exact hi
  · rw [hreaped]
    exact h.releases.reaped_nodup
  · rw [hreleased]
    exact h.releases.released_nodup
  · rw [hreaped, hreleased]
    exact h.releases.released_reaped
  · rw [hnforks]
    rw [hreaped] at hc
    exact Nat.lt_succ_of_lt (h.releases.reaped_lt c hc)
  · rw [hnforks]
    by_cases hij : j = i
    · rw [hij, hserial]
      exact Nat.lt_succ_self _
    · rw [hother j hij] at hjpos
      rw [hserial' j hij]
      exact Nat.lt_succ_of_lt (h.releases.serial_lt j hj hjpos)
  · by_cases hij : j = i
    · by_cases hik : k = i
      · rw [hij, hik]
      · rw [hother k hik] at hkpos
        rw [hij, hserial, hserial' k hik] at hjk
        exact absurd hjk.symm (h.releases.serial_lt k hk hkpos).ne
    · rw [hother j hij] at hjpos
      by_cases hik : k = i
      · rw [hik, hserial, hserial' j hij] at hjk
        exact absurd hjk (h.releases.serial_lt j hj hjpos).ne
      · rw [hother k hik] at hkpos
        rw [hserial' j hij, hserial' k hik] at hjk
        exact h.releases.apart j hj k hk hjpos hkpos hjk
  · rw [hreaped]
    by_cases hij : j = i
    · rw [hij, hself, hserial]
      exact iff_of_false Bool.noConfusion hnew
    · rw [hother j hij] at hjpos ⊢
      rw [hserial' j hij]
      exact h.releases.waited j hj hjpos
  · rw [hreleased]
    by_cases hij : j = i
    · rw [hij, hserial]
      exact fun hmem => hnew (h.releases.released_reaped _ hmem)
    · rw [hother j hij] at hjpos
      rw [hserial' j hij]
      exact h.releases.unreleased j hj hjpos
  · rw [hreaped] at hc
    rw [hreleased]
    exact (h.releases.covered c hc).imp_right fun ⟨j, hj⟩ => ⟨j, hholds c j hj⟩
  · rw [hpoint']
    trivial

theorem sc2ServeIncoming_inv (h : Inv opts s) {outcome : Outcome}
    (hfresh : ∀ started pid, s.point = .fork started → outcome.forked = some pid →
      ∀ i < opts.maxreqs, (s.children i).pid ≠ pid)
    (hstep : sc2ServeIncoming opts s outcome = some s') : Inv opts s' := by
  have hhere := h.here
  unfold sc2ServeIncoming at hstep
  cases hpoint : s.point with
  | accept =>
    rw [hpoint] at hstep hhere
    have hplain : Plain s.point := by rw [hpoint]; exact ⟨rfl, rfl, rfl, id⟩
    cases hstep
    cases outcome.accepted with
    | true => exact h.plain hplain (.goto _ _) rfl rfl ⟨rfl, rfl, rfl, id⟩ hhere trivial
    | false => exact h.plain hplain (.goto _ _) rfl rfl ⟨rfl, rfl, rfl, id⟩ trivial trivial
  | gettime =>
    rw [hpoint] at hstep hhere
    have hplain : Plain s.point := by rw [hpoint]; exact ⟨rfl, rfl, rfl, id⟩
    obtain rfl := Option.some.inj hstep
    cases outcome.clock with
    | true => exact h.plain hplain (.goto _ _) rfl rfl ⟨rfl, rfl, rfl, id⟩ hhere trivial
    | false => exact h.plain hplain (.goto _ _) rfl rfl ⟨rfl, rfl, rfl, id⟩ trivial trivial
  | block started =>
    rw [hpoint] at hstep hhere
    obtain rfl := Option.some.inj hstep
    exact h.moves ⟨rfl, rfl, rfl, rfl, rfl, rfl⟩ rfl (by rw [hpoint]; rfl) (by rw [hpoint]; rfl)
      (by rw [hpoint]; rfl) (fun _ => rfl) hhere trivial
  | fork started =>
    rw [hpoint] at hstep
    dsimp only at hstep
    split at hstep
    · obtain rfl := Option.some.inj hstep
      exact h.moves (.goto _ _) rfl (by rw [hpoint]; rfl) (by rw [hpoint]; rfl)
        (by rw [hpoint]; rfl) False.elim trivial trivial
    · split at hstep
      · obtain rfl := Option.some.inj hstep
        have hblocked := h.blocked
        rw [hpoint] at hblocked
        exact h.moves (.goto _ _) rfl (by rw [hpoint]; rfl) (by rw [hpoint]; rfl)
          (by rw [hpoint]; rfl) hblocked trivial trivial
      · rename_i pid hforked
        split at hstep
        · rename_i hpid
          cases hstep
          exact fork_inv h hpoint hpid.1 (hfresh started pid hpoint hforked)
        · cases hstep
  | register pid started =>
    rw [hpoint] at hstep
    cases hstep
    exact register_inv h hpoint
  | unblock registered =>
    rw [hpoint] at hstep hhere
    cases registered with
    | none =>
      cases hstep
      exact h.moves ⟨rfl, rfl, rfl, rfl, rfl, rfl⟩ rfl (by rw [hpoint]; rfl) (by rw [hpoint]; rfl)
        (by rw [hpoint]; rfl) False.elim trivial trivial
    | some registered =>
      cases hstep
      exact h.moves ⟨rfl, rfl, rfl, rfl, rfl, rfl⟩ rfl (by rw [hpoint]; rfl) (by rw [hpoint]; rfl)
        (by rw [hpoint]; rfl) False.elim hhere trivial
  | slotAssert i =>
    rw [hpoint] at hstep hhere
    have hplain : Plain s.point := by rw [hpoint]; exact ⟨rfl, rfl, rfl, id⟩
    have hi : i < opts.maxreqs := hhere
    dsimp only at hstep
    rw [if_pos hi] at hstep
    cases hstep
    exact h.plain hplain (.goto _ _) rfl rfl ⟨rfl, rfl, rfl, id⟩ trivial trivial
  | _ =>
    rw [hpoint] at hstep
    cases hstep

theorem sc2Serve_inv (h : Inv opts s) {outcome : Outcome}
    (hfresh : ∀ started pid, s.point = .fork started → outcome.forked = some pid →
      ∀ i < opts.maxreqs, (s.children i).pid ≠ pid)
    (hstep : sc2Serve opts s outcome = some s') : Inv opts s' := by
  have hhere := h.here
  have hpass := h.pass
  unfold sc2Serve at hstep
  cases hpoint : s.point with
  | head =>
    rw [hpoint] at hstep
    have hplain : Plain s.point := by rw [hpoint]; exact ⟨rfl, rfl, rfl, id⟩
    cases hstep
    exact h.plain hplain (.goto _ _) rfl rfl ⟨rfl, rfl, rfl, id⟩ trivial trivial
  | checkTest i nleft now =>
    rw [hpoint] at hstep
    have hplain : Plain s.point := by rw [hpoint]; exact ⟨rfl, rfl, rfl, id⟩
    cases hstep
    exact checkTest_inv h hplain i nleft now
  | kill i nleft now =>
    rw [hpoint] at hstep
    have hplain : Plain s.point := by rw [hpoint]; exact ⟨rfl, rfl, rfl, id⟩
    cases hstep
    exact h.plain hplain ⟨rfl, rfl, rfl, rfl, rfl, rfl⟩ rfl rfl ⟨rfl, rfl, rfl, id⟩ trivial trivial
  | resetTest i =>
    rw [hpoint] at hstep hpass
    have hplain : Plain s.point := by rw [hpoint]; exact ⟨rfl, rfl, rfl, id⟩
    cases hstep
    exact resetTest_inv h hplain hpass
  | resetUsed i =>
    rw [hpoint] at hstep
    cases hstep
    exact resetUsed_inv h hpoint
  | resetPid i =>
    rw [hpoint] at hstep
    cases hstep
    exact resetPid_inv h hpoint
  | resetFlags i =>
    rw [hpoint] at hstep
    cases hstep
    exact resetFlags_inv h hpoint
  | termTest =>
    rw [hpoint] at hstep
    have hplain : Plain s.point := by rw [hpoint]; exact ⟨rfl, rfl, rfl, id⟩
    cases hstep
    cases outcome.term with
    | true => exact h.plain hplain (.goto _ _) rfl rfl ⟨rfl, rfl, rfl, id⟩ trivial trivial
    | false => exact h.plain hplain (.goto _ _) rfl rfl ⟨rfl, rfl, rfl, id⟩ trivial trivial
  | capacityTest =>
    rw [hpoint] at hstep
    have hplain : Plain s.point := by rw [hpoint]; exact ⟨rfl, rfl, rfl, id⟩
    cases hstep
    split
    · exact h.plain hplain (.goto _ _) rfl rfl ⟨rfl, rfl, rfl, id⟩ trivial trivial
    · rename_i hroom
      exact h.plain hplain (.goto _ _) rfl rfl ⟨rfl, rfl, rfl, id⟩ (not_le.mp hroom) trivial
  | poll =>
    rw [hpoint] at hstep hhere
    have hplain : Plain s.point := by rw [hpoint]; exact ⟨rfl, rfl, rfl, id⟩
    cases hpolled : outcome.polled with
    | incoming =>
      rw [hpolled] at hstep
      cases hstep
      exact h.plain hplain (.goto _ _) rfl rfl ⟨rfl, rfl, rfl, id⟩ hhere trivial
    | interrupted | timeout | nothing | failure | hangup =>
      rw [hpolled] at hstep
      cases hstep
      exact h.plain hplain (.goto _ _) rfl rfl ⟨rfl, rfl, rfl, id⟩ trivial trivial
  | returned | aborted =>
    rw [hpoint] at hstep
    cases hstep
  | _ =>
    rw [hpoint] at hstep
    exact sc2ServeIncoming_inv h hfresh hstep

theorem step_inv {event : Event} (h : Inv opts s) (hfresh : FreshPid opts s event)
    (hstep : step opts s event = some s') : Inv opts s' := by
  cases event with
  | serve outcome =>
    exact sc2Serve_inv h (fun started pid => hfresh outcome started pid rfl) hstep
  | exit pid status =>
    simp only [step] at hstep
    split at hstep
    · rename_i hpid
      cases hstep
      have hmoves : Moves s { s with exited := s.exited ++ [(pid, status)] } :=
        ⟨rfl, rfl, rfl, rfl, rfl, rfl⟩
      refine ⟨⟨h.slots.distinct, h.slots.live, h.slots.known, h.slots.positive, h.slots.free,
        h.slots.count⟩, fun child hchild => ?_, ?_, h.blocked, ?_, h.releases.moves hmoves,
        h.pass.moves hmoves rfl⟩
      · obtain hchild | hchild := List.mem_append.mp hchild
        · exact h.exited child hchild
        · rw [List.mem_singleton.mp hchild]
          exact hpid.1
      · rw [List.map_append, List.nodup_append_comm]
        exact List.nodup_cons.mpr ⟨hpid.2, h.exited_nodup⟩
      · have hhere := h.here
        cases hpoint : s.point <;> rw [hpoint] at hhere <;> exact hhere
    · cases hstep
  | sigchld now =>
    simp only [step] at hstep
    split at hstep
    · cases hstep
    · rename_i hunblocked
      rw [not_or, Bool.not_eq_true] at hunblocked
      cases hstep
      exact sc2ReapChildren_inv h hunblocked.1 now

theorem init_inv : Inv opts init := by
  have hnone : ∀ i, ¬ 0 < (init.children i).pid := fun i => lt_irrefl 0
  refine ⟨⟨fun i _ j _ hi => absurd hi (hnone i), fun i _ hi => absurd hi (hnone i),
    fun pid hpid => absurd hpid (Finset.notMem_empty pid),
    fun pid hpid => absurd hpid (Finset.notMem_empty pid), fun i _ _ hwaited => ?_, ?_⟩,
    nofun, List.nodup_nil, False.elim, trivial,
    ⟨List.nodup_nil, List.nodup_nil, nofun,
      nofun, fun i _ hi => absurd hi (hnone i),
      fun i _ j _ hi => absurd hi (hnone i), fun i _ hi => absurd hi (hnone i),
      fun i _ hi => absurd hi (hnone i), nofun⟩, trivial⟩
  · cases hwaited
  · have hempty : usedSlots opts init = ∅ := Finset.filter_eq_empty_iff.mpr fun i _ => hnone i
    rw [hempty]
    rfl

theorem Run.inv (h : Run opts (FreshPid opts) s) : Inv opts s := by
  refine Reachable.invariant ?_ ?_ h
  · rintro s rfl
    exact init_inv
  · exact fun before event after hbefore hfresh hstep => step_inv hbefore hfresh hstep

/-- What the slots amount to: the count at the head of the loop; one slot for
each child that the handler may wait for; each child is reaped and released
once, and all that had been reaped before `sc2_reset_reaped` have been released
behind it; no assertion has failed. -/
structure Accounted (opts : Sc2Opts) (s : State) : Prop where
  used : s.point = .head → s.used = (usedSlots opts s).card ∧ s.used ≤ opts.maxreqs
  registered : s.blocked = false → ∀ child ∈ s.exited,
    ∃! i, i < opts.maxreqs ∧ (s.children i).pid = child.1
  reaped_once : s.reaped.Nodup
  released_once : s.released.Nodup
  released_reaped : ∀ c ∈ s.released, c ∈ s.reaped
  reaped_released : s.point = .termTest → ∀ c ∈ s.reapedAtReset, c ∈ s.released
  unfailed : s.point ≠ .aborted

theorem children_accounted {s : State} (h : Run opts (FreshPid opts) s) : Accounted opts s := by
  have hinv := Run.inv h
  refine ⟨fun hpoint => ?_, fun hunblocked child hchild => ?_, hinv.releases.reaped_nodup,
    hinv.releases.released_nodup, hinv.releases.released_reaped, fun hpoint => ?_, fun hpoint => ?_⟩
  · have hcount := hinv.slots.count
    rw [hpoint] at hcount
    have hcount : s.used = (usedSlots opts s).card := (Int.add_zero s.used).symm.trans hcount
    have hcard : (usedSlots opts s).card ≤ opts.maxreqs :=
      (Finset.card_filter_le _ _).trans_eq (Finset.card_range _)
    exact ⟨hcount, by omega⟩
  · have hmem := hinv.exited child hchild
    obtain ⟨i, hi, hpid⟩ := (hinv.slots.known child.1 hmem).resolve_right fun heq => by
      rw [registering_of_unblocked (hinv.handling hunblocked).unblocked] at heq
      cases heq
    refine ⟨i, ⟨hi, hpid⟩, fun j ⟨hj, hjpid⟩ => ?_⟩
    have hpos : 0 < (s.children j).pid := hjpid ▸ hinv.slots.positive child.1 hmem
    exact hinv.slots.distinct j hj i hi hpos (hjpid.trans hpid.symm)
  · have hpass := hinv.pass
    rw [hpoint] at hpass
    exact hpass
  · have hhere := hinv.here
    rw [hpoint] at hhere
    exact hhere

/-! One slot: a child is forked, exits and is released -/

def oneSlot : Sc2Opts := ⟨1, 5, false⟩

/-- A connection comes in, and nothing is forked. -/
def quiet : Outcome := ⟨⟨0, 0⟩, true, false, .incoming, true, none⟩

theorem quiet_fresh (s : State) : FreshPid opts s (.serve quiet) := by
  intro outcome started pid heq _ hforked
  cases heq
  cases hforked

def forked : Outcome := { quiet with forked := some 7 }

theorem forked_fresh (h : ∀ i < opts.maxreqs, (s.children i).pid ≠ 7) :
    FreshPid opts s (.serve forked) := by
  intro outcome started pid heq _ hforked
  cases heq
  cases hforked
  exact h

theorem exit_fresh (s : State) (pid status : ℤ) : FreshPid opts s (.exit pid status) :=
  fun _ _ _ heq => Event.noConfusion heq

theorem sigchld_fresh (s : State) (now : Timespec) : FreshPid opts s (.sigchld now) :=
  fun _ _ _ heq => Event.noConfusion heq

theorem Run.quiet (n : ℕ) (h : Run opts (FreshPid opts) s)
    (hrun : (List.replicate n (Event.serve quiet)).foldlM (step opts) s = some s') :
    Run opts (FreshPid opts) s' := by
  refine Reachable.foldlM (fun _ _ _ hnext => hnext) (fun event hevent s => ?_) h hrun
  rw [List.eq_of_mem_replicate hevent]
  exact quiet_fresh s

theorem children_accounted_sample : ∃ s, s.released = [0] ∧ s.point = .termTest ∧
    Accounted oneSlot s := by
  have hfork : Run oneSlot (FreshPid oneSlot) _ := Run.quiet 10 (.initial rfl) rfl
  have hregister : Run oneSlot (FreshPid oneSlot) _ :=
    @Reachable.step _ _ _ _ _ _ _ (.serve forked) hfork (forked_fresh (by decide)) rfl
  have hhead : Run oneSlot (FreshPid oneSlot) _ := Run.quiet 3 hregister rfl
  have hexited : Run oneSlot (FreshPid oneSlot) _ :=
    .step hhead (exit_fresh _ 7 0) rfl
  have hreaped : Run oneSlot (FreshPid oneSlot) _ :=
    .step hexited (sigchld_fresh _ ⟨1, 0⟩) rfl
  have hterm : Run oneSlot (FreshPid oneSlot) _ := Run.quiet 8 hreaped rfl
  exact ⟨_, by decide, rfl, children_accounted hterm⟩

end Yans.Apps.Sc2
