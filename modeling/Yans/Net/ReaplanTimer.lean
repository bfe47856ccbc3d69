import Yans.Net.ReaplanAccounting

/-! The timer of `reaplan_run`: it is armed at every turn of the loop when the
ticks have a delay. Without a delay it is armed only for connections of earlier
turns, so that the last new ones are waited for without a timer. -/
namespace Yans.Net.Reaplan

open Util.Idset Library.Postconditions Library.Runs

variable {World : Type} {out : Outside World} {opts : ReaplanOpts}

/-- Whenever `kevent` waits for connections, there is a timer. -/
def NeverWithoutTimer (opts : ReaplanOpts) (ctx : ReaplanCtx) : Prop :=
  ∀ (World : Type) (out : Outside World), out.Lawful opts → ∀ (world : World) (r : Run World),
    Runs out opts ctx world r → r.point = .kevent true → 0 < r.state.ctx.activeConns →
      r.Arms ∨ r.pending = true

/-! What leaves the timer alone -/

/-- Only events from `base` on are written. -/
structure TimerKept (base : ℕ) (s s' : State World) : Prop where
  timerActive : s'.ctx.timerActive = s.ctx.timerActive
  evs : ∀ j < base, s'.ctx.evs[j]? = s.ctx.evs[j]?

variable {base : ℕ} {s s' : State World}

theorem TimerKept.trans {s'' : State World} (h : TimerKept base s s')
    (h' : TimerKept base s' s'') : TimerKept base s s'' :=
  ⟨h'.timerActive.trans h.timerActive, fun j hj => (h'.evs j hj).trans (h.evs j hj)⟩

theorem setConn_kept (base i : ℕ) (conn : ReaplanConn) (s : State World) :
    TimerKept base s (setConn i conn s) := ⟨rfl, fun _ _ => rfl⟩

variable {index : ℕ}

theorem evSet_kept (hindex : base ≤ index) (ev : Kevent) (s : State World) :
    Ends (fun _ => True) (TimerKept base s) (evSet index ev s) := by
  unfold evSet
  split
  · refine ⟨rfl, fun j hj => ?_⟩
    exact List.getElem?_set_ne (by omega)
  · trivial

theorem addEvent_kept (hindex : base ≤ index) (requested : Bool) (ev : Kevent)
    (s : State World) : Ends (fun _ => True) (fun result => TimerKept base s result.2 ∧
      index ≤ result.1) (addEvent requested index ev s) := by
  unfold addEvent
  split
  · have hset := evSet_kept hindex ev s
    cases hresult : evSet index ev s with
    | ok after => exact ⟨hset.of_ok hresult, Nat.le_succ index⟩
    | error fault => trivial
  · exact ⟨⟨rfl, fun _ _ => rfl⟩, le_refl index⟩

theorem setEvents_kept (hindex : base ≤ index) (i : ℕ) (s : State World) :
    Ends (fun _ => True) (fun result => TimerKept base s result.2) (setEvents index i s) := by
  generalize hflags : (if (s.ctx.conns i).ssl = true then _ else _ : ConnFlags) = flags
  refine Ends.bind (addEvent_kept hindex _ _ _) ?_
  rintro ⟨next, s₁⟩ ⟨hread, hnext⟩
  refine Ends.mono (addEvent_kept (hindex.trans hnext) _ _ _) fun result hwrite => ?_
  exact ((setConn_kept base i _ s).trans hread).trans hwrite.1

theorem reaplanConnClose_timerActive (i : ℕ) (s : State World) :
    (reaplanConnClose out opts i s).ctx.timerActive = s.ctx.timerActive := by
  unfold reaplanConnClose
  cases opts.onDone with
  | true => rfl
  | false => rfl

theorem reaplanConnClose_kept (base i : ℕ) (s : State World) :
    TimerKept base s (reaplanConnClose out opts i s) :=
  ⟨reaplanConnClose_timerActive i s, fun j _ => congrArg (·[j]?) (reaplanConnClose_evs i s)⟩

theorem setupConnections_kept (base «end» : ℕ) (expires : ℤ) (rounds : ℕ) :
    ∀ (i : ℕ) (result : ℤ) (s : State World),
      Ends (fun _ => True) (fun after => TimerKept base s after.2.2)
        (setupConnections out opts base «end» expires rounds i result s) := by
  induction rounds with
  | zero =>
    intro i result s
    unfold setupConnections
    split
    · trivial
    · exact ⟨rfl, fun _ _ => rfl⟩
  | succ rounds ih =>
    intro i result s
    rw [setupConnections]
    split
    · split
      · exact ⟨rfl, fun _ _ => rfl⟩
      · rename_i id ids hsome
        cases hconnect : connectSlot out id (setIds ids s) with
        | mk connected s' =>
          have hslot : TimerKept base s (countConnected id s') := by
            rw [← (Prod.mk.inj hconnect).2]
            exact ⟨rfl, fun _ _ => rfl⟩
          dsimp only
          split
          · exact ⟨hslot.timerActive, hslot.evs⟩
          · split
            · exact (ih _ _ _).mono fun _ h =>
                (hslot.trans (reaplanConnClose_kept base id _)).trans h
            · have hevents := setEvents_kept (Nat.le_add_right base i) id
                (setExpires id expires (countConnected id s'))
              split
              · trivial
              · rename_i next s'' hresult
                have hset : TimerKept base s s'' :=
                  hslot.trans ((setConn_kept base id _ _).trans (hevents.of_ok hresult))
                exact (ih _ _ _).mono fun _ h => hset.trans h
    · exact ⟨rfl, fun _ _ => rfl⟩

def connections (log : List (Action × ℕ)) : ℕ := log.countP fun entry => entry.1 = .connected

/-- The timer is over and connections are made again once its event has been
handled, and not before. -/
structure Ticked (timer : Bool) (s s' : State World) : Prop where
  timerActive : s'.ctx.timerActive = (s.ctx.timerActive && !timer)
  throttleConnect : s'.ctx.throttleConnect = (s.ctx.throttleConnect && !timer)
  connections_eq : connections s'.log = connections s.log

theorem Ticked.of_same (htimer : s'.ctx.timerActive = s.ctx.timerActive)
    (hthrottle : s'.ctx.throttleConnect = s.ctx.throttleConnect)
    (hlog : connections s'.log = connections s.log) : Ticked false s s' := by
  refine ⟨?_, ?_, hlog⟩
  · rw [Bool.not_false, Bool.and_true, htimer]
  · rw [Bool.not_false, Bool.and_true, hthrottle]

theorem Ticked.refl (s : State World) : Ticked false s s := .of_same rfl rfl rfl

theorem Ticked.trans {timer timer' : Bool} {s'' : State World} (h : Ticked timer s s')
    (h' : Ticked timer' s' s'') : Ticked (timer || timer') s s'' := by
  refine ⟨?_, ?_, h'.connections_eq.trans h.connections_eq⟩
  · rw [h'.timerActive, h.timerActive, Bool.and_assoc, Bool.not_or]
  · rw [h'.throttleConnect, h.throttleConnect, Bool.and_assoc, Bool.not_or]

theorem enqueueCloseConn_ticked (i : ℕ) (s : State World) :
    Ends (fun _ => True) (Ticked false s) (enqueueCloseConn opts i s) := by
  unfold enqueueCloseConn
  split
  · exact .refl s
  · split
    · exact .refl s
    · split
      · exact .of_same rfl rfl rfl
      · trivial

theorem afterCallback_ticked (i : ℕ) (reply : Reply) (s : State World) :
    Ends (fun _ => True) (Ticked false s) (afterCallback opts i reply s) := by
  unfold afterCallback
  split
  · exact enqueueCloseConn_ticked i s
  · exact .refl s

theorem Ticked.setWorld {timer : Bool} {world : World}
    (h : Ticked timer { s with world := world } s') : Ticked timer s s' :=
  ⟨h.timerActive, h.throttleConnect, h.connections_eq⟩

theorem handleTlsHandshake_ticked (i : ℕ) (s : State World) :
    Ends (fun _ => True) (Ticked false s) (handleTlsHandshake out opts i s) := by
  unfold handleTlsHandshake
  dsimp only
  split
  · trivial
  · cases (out.sslConnect i s.world).1 with
    | wantWrite => exact .of_same rfl rfl rfl
    | wantRead => exact .of_same rfl rfl rfl
    | failure => exact (enqueueCloseConn_ticked i _).mono fun _ h => h.setWorld
    | shutdown => exact (enqueueCloseConn_ticked i _).mono fun _ h => h.setWorld
    | done =>
      dsimp only
      split
      · trivial
      · exact .of_same rfl rfl rfl

theorem handleEvent_ticked (s : State World) (ev : Kevent) :
    Ends (fun _ => True) (Ticked (decide (IsTimer ev)) s) (handleEvent out opts s ev) := by
  unfold handleEvent
  dsimp only
  cases hfilter : ev.filter with
  | read =>
    rw [decide_eq_false (show ¬ IsTimer ev by simp [IsTimer, hfilter])]
    split
    · exact enqueueCloseConn_ticked _ s
    · have heof : Ends (fun _ => True) (Ticked false s) (enqueueOnEof opts ev s) := by
        unfold enqueueOnEof
        split
        · exact enqueueCloseConn_ticked _ s
        · exact .refl s
      refine Ends.bind heof fun s' h => ?_
      split
      · exact (handleTlsHandshake_ticked _ s').mono fun _ h' => h.trans h'
      · split
        · exact (afterCallback_ticked _ _ _).mono fun _ h' => h.trans h'.setWorld
        · exact h
  | write =>
    rw [decide_eq_false (show ¬ IsTimer ev by simp [IsTimer, hfilter])]
    split
    · exact enqueueCloseConn_ticked _ s
    · dsimp only
      split
      · exact enqueueCloseConn_ticked _ s
      · split
        · exact handleTlsHandshake_ticked _ s
        · exact (afterCallback_ticked _ _ _).mono fun _ h => h.setWorld
  | timer =>
    rw [if_neg (by simp)]
    dsimp only
    split
    · rename_i hident
      rw [decide_eq_true (show IsTimer ev from ⟨hfilter, hident⟩)]
      exact ⟨(Bool.and_false _).symm, (Bool.and_false _).symm, rfl⟩
    · rename_i hident
      rw [decide_eq_false (fun h : IsTimer ev => hident h.2)]
      exact .refl s

theorem connections_reaplanConnClose (i : ℕ) (s : State World) :
    connections (reaplanConnClose out opts i s).log = connections s.log := by
  rw [reaplanConnClose_log]
  unfold connections closing
  rw [List.countP_append]
  cases opts.onDone <;> simp

theorem reaplanConnClose_ticked (i : ℕ) (s : State World) :
    Ticked false s (reaplanConnClose out opts i s) := by
  apply Ticked.of_same (reaplanConnClose_timerActive i s) _ (connections_reaplanConnClose i s)
  unfold reaplanConnClose
  cases opts.onDone with
  | true => rfl
  | false => rfl

theorem closeConns_ticked (queue : List ℕ) : ∀ s : State World,
    Ticked false s (queue.foldl (fun s i => reaplanConnClose out opts i s) s) := by
  induction queue with
  | nil => exact fun s => .refl s
  | cons i queue ih => exact fun s => (reaplanConnClose_ticked i s).trans (ih _)

/-- The induction is on the events. -/
theorem foldlM_handleEvent_ticked (evs : List Kevent) : ∀ s : State World,
    Ends (fun _ => True) (Ticked (decide (∃ ev ∈ evs, IsTimer ev)) s)
      (evs.foldlM (handleEvent out opts) s) := by
  induction evs with
  | nil =>
    intro s
    have hnone : decide (∃ ev ∈ ([] : List Kevent), IsTimer ev) = false := by simp
    rw [hnone]
    exact .refl s
  | cons ev evs ih =>
    intro s
    have hcons : decide (∃ ev' ∈ ev :: evs, IsTimer ev') =
        (decide (IsTimer ev) || decide (∃ ev ∈ evs, IsTimer ev)) := by simp
    rw [List.foldlM_cons, hcons]
    refine Ends.bind (handleEvent_ticked s ev) fun s' h => ?_
    exact (ih s').mono fun _ h' => h.trans h'

theorem reaplanHandleEvents_ticked (evs : List Kevent) (s : State World) :
    Ends (fun _ => True) (Ticked (decide (∃ ev ∈ evs, IsTimer ev)) s)
      (reaplanHandleEvents out opts evs s) := by
  refine Ends.bind (foldlM_handleEvent_ticked evs _) fun s' h => ?_
  have hclose := h.trans (@closeConns_ticked _ out opts s'.ctx.closeconns s')
  rw [Bool.or_false] at hclose
  exact ⟨hclose.timerActive, hclose.throttleConnect, hclose.connections_eq⟩

def TimerFirst (nevs : ℕ) (s : State World) : Prop :=
  0 < nevs ∧ ∃ ev, s.ctx.evs[0]? = some ev ∧ IsTimer ev

def Clocked (r : Run World) : Prop :=
  r.point ≠ .returned →
    r.state.ctx.timerActive = true ∧ (r.pending = true ∨ TimerFirst r.nevs r.state)

variable {r : Run World}

theorem TimerFirst.arms (h : TimerFirst r.nevs r.state) : r.Arms := by
  obtain ⟨hpos, ev, hev, htimer⟩ := h
  refine ⟨ev, List.mem_of_getElem? (i := 0) ?_, htimer⟩
  rw [List.getElem?_take_of_lt hpos, hev]

theorem updateTimer_clocked (hdelay : 0 < opts.mdelayPerTick) (s : State World) :
    Ends (fun _ => True)
      (fun result => result.2.ctx.timerActive = true ∧
        (s.ctx.timerActive = true ∨ TimerFirst (if result.1 then 1 else 0) result.2))
      (reaplanUpdateTimer out opts s) := by
  have hstart : ∀ ev, IsTimer ev → Ends (fun _ => True)
      (fun result : Bool × State World => result.2.ctx.timerActive = true ∧
        (s.ctx.timerActive = true ∨ TimerFirst (if result.1 then 1 else 0) result.2)) (do
        let s ← evSet 0 ev (checkExpired out opts s)
        return (true, { s with ctx := { s.ctx with timerActive := true } })) := by
    intro ev htimer
    unfold evSet
    split
    · rename_i hroom
      refine ⟨rfl, .inr ⟨Nat.one_pos, ev, ?_, htimer⟩⟩
      exact List.getElem?_set_self hroom
    · trivial
  unfold reaplanUpdateTimer
  split
  · rename_i hactive
    exact ⟨hactive, .inl hactive⟩
  · dsimp only
    rw [if_neg (UInt32.not_le.mpr hdelay)]
    split
    · exact hstart _ ⟨rfl, rfl⟩
    · exact hstart _ ⟨rfl, rfl⟩

theorem runStart_clocked (hdelay : 0 < opts.mdelayPerTick) (pending : Bool) (s : State World) :
    Ends (fun _ => True) Clocked (runStart out opts pending s) := by
  refine Ends.bind (updateTimer_clocked hdelay _) ?_
  rintro ⟨armed, s'⟩ ⟨hactive, hfirst⟩ -
  refine ⟨hactive, .inr (hfirst.resolve_left ?_)⟩
  exact Bool.noConfusion

theorem runHead_clocked (rounds : ℕ) (hpoint : r.point = .head) (h : Clocked r) :
    Ends (fun _ => True) Clocked (runHead out opts rounds r) := by
  obtain ⟨hactive, htimer⟩ := h (by rw [hpoint]; exact Point.noConfusion)
  unfold runHead
  dsimp only
  split
  · exact fun hpoint => absurd rfl hpoint
  · split
    · have hexpires : (nextExpires out opts r.expires r.state).2.ctx = r.state.ctx := by
        unfold nextExpires
        split <;> rfl
      refine Ends.bind (setupConnections_kept r.nevs _ _ rounds 0 _ _) ?_
      rintro ⟨ret, newNevs, s⟩ hkept
      have hclock : s.ctx.timerActive = true ∧
          (r.pending = true ∨ TimerFirst (r.nevs + newNevs) s) := by
        refine ⟨?_, htimer.imp_right ?_⟩
        · rw [hkept.timerActive, hexpires]
          exact hactive
        · rintro ⟨hpos, ev, hev, hev'⟩
          refine ⟨Nat.add_pos_left hpos _, ev, ?_, hev'⟩
          rw [hkept.evs 0 hpos, hexpires]
          exact hev
      dsimp only
      split
      · exact fun hpoint => absurd rfl hpoint
      · exact fun _ => hclock
    · exact fun _ => ⟨hactive, htimer⟩

theorem runKevent_clocked (hdelay : 0 < opts.mdelayPerTick) (wait : Bool)
    (hpoint : r.point = .kevent wait) (h : Clocked r) :
    Ends (fun _ => True) Clocked (runKevent out opts wait r) := by
  obtain ⟨hactive, htimer⟩ := h (by rw [hpoint]; exact Point.noConfusion)
  have hpending : (r.pending || decide r.Arms) = true := by
    rw [Bool.or_eq_true, decide_eq_true_iff]
    exact htimer.imp_right TimerFirst.arms
  unfold runKevent
  split
  · exact fun _ => ⟨hactive, .inl hpending⟩
  · exact fun hpoint => absurd rfl hpoint
  · rename_i evs world hkevent
    refine Ends.bind (reaplanHandleEvents_ticked evs _) fun s hhandled => ?_
    refine Ends.bind (updateTimer_clocked hdelay s) ?_
    rintro ⟨armed, s'⟩ ⟨hactive', hfirst⟩ -
    refine ⟨hactive', hfirst.imp_left fun hstill => ?_⟩
    rw [hhandled.timerActive, Bool.and_eq_true] at hstill
    exact Bool.and_eq_true_iff.mpr ⟨hpending, hstill.2⟩

theorem step_clocked (hdelay : 0 < opts.mdelayPerTick) (rounds : ℕ)
    (h : Clocked r) : Ends (fun _ => True) Clocked (step out opts rounds r) := by
  unfold step
  split
  · rename_i hpoint
    exact runHead_clocked rounds hpoint h
  · rename_i wait hpoint
    exact runKevent_clocked hdelay wait hpoint h
  · exact runStart_clocked hdelay r.pending r.state

theorem neverWithoutTimer_of_delay (hdelay : 0 < opts.mdelayPerTick) (ctx : ReaplanCtx) :
    NeverWithoutTimer opts ctx := by
  intro World out _ world r hrun hpoint _
  have hclocked : Clocked r := by
    refine Reachable.invariant ?_ ?_ hrun
    · rintro r rfl hfresh
      exact absurd rfl hfresh
    · intro before rounds after hbefore _ hstep
      exact (step_clocked hdelay rounds hbefore).of_ok hstep
  obtain ⟨-, htimer⟩ := hclocked (by rw [hpoint]; exact Point.noConfusion)
  cases htimer with
  | inl hpending => exact .inr hpending
  | inr hfirst => exact .inl hfirst.arms

/-- A host that takes one connection and says nothing, and after it the end of
the hosts. -/
def silentOutside : Outside ℕ where
  onConnect _ world :=
    if world = 0 then (⟨reaplancOk, 5, true, false, false⟩, 1)
    else (⟨reaplancDone, -1, false, false, false⟩, world)
  onReadable _ world := (⟨0, false⟩, world)
  onWritable _ world := (⟨0, false⟩, world)
  onDone _ world := world
  sslConnect _ world := (.failure, world)
  clock world := (none, world)
  kevent _ _ world := (.events [], world)

theorem silentOutside_lawful (opts : ReaplanOpts) : silentOutside.Lawful opts := by
  refine ⟨?_, ?_, ?_⟩
  · intro i world
    simp only [silentOutside]
    split <;> simp [reaplancOk]
  · intro ctx wait world evs world' h
    cases h
    exact Nat.zero_le _
  · intro ctx wait world evs world' h ev hev
    cases h
    cases hev

theorem useNext_some (h : Accounted opts s)
    (hroom : s.ctx.activeConns < opts.maxClients.toNat) :
    ∃ id ids, idsetUseNext s.ctx.ids = (some id, ids) := by
  cases huse : idsetUseNext s.ctx.ids with
  | mk found ids =>
    cases found with
    | some id => exact ⟨id, ids, rfl⟩
    | none =>
      exfalso
      have hspec := idsetUseNext_spec h.wellFormed
      simp only [huse] at hspec
      have hall : openSlots opts s = Finset.range opts.maxClients.toNat := by
        ext i
        have hlast := h.lastId
        rw [Finset.mem_range, ← h.inUse]
        constructor
        · intro hused
          have hle := hused.1
          omega
        · intro hi
          exact hspec.2.2.1 i (by omega)
      rw [h.active, hall, Finset.card_range] at hroom
      exact lt_irrefl _ hroom

structure SameClock (s s' : State World) : Prop where
  connectDone : s'.ctx.connectDone = s.ctx.connectDone
  timerActive : s'.ctx.timerActive = s.ctx.timerActive
  lastTime : s'.ctx.lastTime = s.ctx.lastTime

theorem setEvents_readable {i : ℕ} (hssl : (s.ctx.conns i).ssl = false)
    (hreadable : (s.ctx.conns i).rflags.readable = true)
    (hwritable : (s.ctx.conns i).rflags.writableOneshot = false)
    (hroom : index < s.ctx.evs.length) :
    ∃ s', setEvents index i s = .ok (index + 1, s') ∧ s'.world = s.world ∧ SameClock s s' ∧
      s'.ctx.evs = s.ctx.evs.set index (readEvent i (s.ctx.conns i)) := by
  unfold setEvents
  simp only [hssl, hreadable, hwritable, Bool.false_or]
  unfold addEvent evSet
  rw [if_pos rfl, if_pos (by exact hroom)]
  exact ⟨_, rfl, rfl, ⟨rfl, rfl, rfl⟩, rfl⟩

def silentConnected : Connected := ⟨reaplancOk, 5, true, false, false⟩

variable {s : State ℕ}

theorem connectSlot_silent (hworld : s.world = 0) (id : ℕ) :
    ∃ s', connectSlot silentOutside id s = (silentConnected, s') ∧ s'.world = 1 ∧
      SameClock s s' ∧ s'.ctx.conns id = connectedConn silentConnected := by
  obtain ⟨ctx, log, world⟩ := s
  subst hworld
  exact ⟨_, rfl, rfl, ⟨rfl, rfl, rfl⟩, Function.update_self _ _ _⟩

theorem setup_first (haccepted : Accepted opts) (h : Accounted opts s)
    (hworld : s.world = 0) (hactive : s.ctx.activeConns = 0) (expires : ℤ) :
    ∃ s₁, (∀ rounds result,
        setupConnections silentOutside opts 0 (opts.connectsPerTick * 2).toNat expires (rounds + 1) 0
            result s =
          setupConnections silentOutside opts 0 (opts.connectsPerTick * 2).toNat expires rounds 1
            reaplancOk s₁) ∧
      Accounted opts s₁ ∧ s₁.world = 1 ∧ s₁.ctx.activeConns = 1 ∧ SameClock s s₁ ∧
      ¬ ∃ ev ∈ s₁.ctx.evs.take 1, IsTimer ev := by
  have hpos := haccepted.connects_pos
  have hle := haccepted.connects_le
  have hdouble := haccepted.toNat_double
  obtain ⟨id, ids, huse⟩ := useNext_some h (by omega)
  obtain ⟨s', hconnect, hworld', hclock, hconn⟩ :=
    connectSlot_silent (s := setIds ids s) hworld id
  have hslot := connectSlot_spec silentOutside id (setIds ids s)
  simp only [hconnect] at hslot
  obtain ⟨htaken, -⟩ := (h.connectSlot (silentOutside_lawful opts) huse hconnect).2 (by decide)
  have hset : SameAccounts (countConnected id s') (setExpires id expires (countConnected id s')) :=
    (SameAccounts.refl _).setConn rfl
  have hconn' : (setExpires id expires (countConnected id s')).ctx.conns id =
      { connectedConn silentConnected with expires := expires } := by
    rw [← hconn]
    exact Function.update_self _ _ _
  have hroom : 1 < (setExpires id expires (countConnected id s')).ctx.evs.length := by
    rw [hset.evs_length, htaken.evs_length]
    omega
  obtain ⟨s₁, hresult, hworld₁, hclock₁, hevs₁⟩ :=
    setEvents_readable (s := setExpires id expires (countConnected id s')) (i := id)
      (by rw [hconn']; rfl) (by rw [hconn']; rfl) (by rw [hconn']; rfl) (Nat.lt_of_succ_lt hroom)
  have hsame : SameAccounts (countConnected id s') s₁ :=
    hset.trans ((setEvents_ends id hroom).of_ok hresult)
  refine ⟨s₁, ?_, htaken.of_same hsame, hworld₁.trans hworld', ?_, ?_, ?_⟩
  · intro rounds result
    rw [setupConnections, if_pos (Nat.zero_le _), huse]
    dsimp only
    rw [hconnect]
    dsimp only
    rw [if_neg (by decide), if_neg (by decide), Nat.zero_add, hresult]
    rfl
  · have hcount : (countConnected id s').ctx.activeConns = s'.ctx.activeConns + 1 := rfl
    rw [hsame.activeConns, hcount, hslot.2.2.2.2.1]
    exact congrArg (· + 1) hactive
  · exact ⟨hclock₁.connectDone.trans hclock.connectDone,
      hclock₁.timerActive.trans hclock.timerActive, hclock₁.lastTime.trans hclock.lastTime⟩
  · rintro ⟨ev, hev, htimer⟩
    rw [hevs₁] at hev
    obtain ⟨j, hj, hget⟩ := List.getElem_of_mem hev
    rw [List.length_take] at hj
    have hzero : j = 0 := by omega
    subst hzero
    rw [List.getElem_take, List.getElem_set_self] at hget
    rw [← hget] at htimer
    exact Filter.noConfusion htimer.1

theorem setup_done (h : Accounted opts s) (hworld : s.world = 1)
    (hroom : s.ctx.activeConns < opts.maxClients.toNat) (base : ℕ) {«end» i : ℕ}
    (hi : i ≤ «end» - 2) (expires : ℤ) (rounds : ℕ) (result : ℤ) :
    ∃ s', setupConnections silentOutside opts base «end» expires (rounds + 1) i result s =
        .ok (reaplancDone, i, s') ∧
      s'.ctx.activeConns = s.ctx.activeConns ∧ s'.ctx.evs = s.ctx.evs := by
  obtain ⟨id, ids, huse⟩ := useNext_some h hroom
  obtain ⟨ctx, log, world⟩ := s
  subst hworld
  rw [setupConnections, if_pos hi, huse]
  exact ⟨_, rfl, rfl, rfl⟩

theorem updateTimer_idle (hdelay : opts.mdelayPerTick = 0)
    (hactive : s.ctx.timerActive = false) (hdone : s.ctx.connectDone = false)
    (htime : s.ctx.lastTime = 0) (hroom : s.ctx.activeConns < opts.maxClients.toNat) :
    reaplanUpdateTimer silentOutside opts s = .ok (false, s) := by
  have hchecked : checkExpired silentOutside opts s = s := by
    unfold checkExpired
    split
    · dsimp only
      rw [htime]
      rfl
    · rfl
  unfold reaplanUpdateTimer
  rw [if_neg (by rw [hactive]; exact Bool.noConfusion), hchecked]
  rw [if_neg, if_pos (by rw [hdelay]; exact UInt32.le_refl 0)]
  rw [not_or, hdone]
  exact ⟨Bool.noConfusion, hroom.ne⟩

theorem runHead_setup (hdelay : opts.mdelayPerTick = 0) {r : Run ℕ}
    (hdone : r.state.ctx.connectDone = false) {rounds newNevs : ℕ} {ret : ℤ}
    (hsetup : setupConnections silentOutside opts r.nevs (opts.connectsPerTick * 2).toNat r.expires
      rounds 0 reaplancErr r.state = .ok (ret, newNevs, s)) (hret : ret ≠ reaplancErr) :
    runHead silentOutside opts rounds r = .ok (toKevent opts
      { r with
        nevs := r.nevs + newNevs
        state :=
          { s with
            ctx :=
              { s.ctx with
                connectDone := s.ctx.connectDone || ret = reaplancDone
                throttleConnect := true } } }) := by
  have hexpires : nextExpires silentOutside opts r.expires r.state = (r.expires, r.state) := by
    unfold nextExpires
    split <;> rfl
  unfold runHead
  rw [if_neg (by simp [hdone]), if_pos (by simp [hdone, hdelay]), hexpires]
  dsimp only
  rw [hsetup]
  exact if_neg hret

theorem runKevent_silent (hdelay : opts.mdelayPerTick = 0) (wait : Bool) {r : Run ℕ}
    (hactive : r.state.ctx.timerActive = false) (hdone : r.state.ctx.connectDone = false)
    (htime : r.state.ctx.lastTime = 0)
    (hroom : r.state.ctx.activeConns < opts.maxClients.toNat) :
    runKevent silentOutside opts wait r =
      .ok ⟨.head, 0, r.expires, r.pending || decide r.Arms,
        { r.state with ctx := { r.state.ctx with closeconns := [] } }⟩ := by
  have hidle := updateTimer_idle hdelay
    (s := { r.state with ctx := { r.state.ctx with closeconns := [] } }) hactive hdone htime hroom
  have hsame : runKevent silentOutside opts wait r = (do
      let (armed, s) ← reaplanUpdateTimer silentOutside opts
        { r.state with ctx := { r.state.ctx with closeconns := [] } }
      return ⟨.head, if armed then 1 else 0, r.expires, (r.pending || decide r.Arms) && true, s⟩) :=
    rfl
  rw [hsame, hidle, Bool.and_true]
  rfl

/-- `kevent` waits for connections and there is no timer. -/
structure Unclocked (r : Run World) : Prop where
  waits : r.point = .kevent true
  active : 0 < r.state.ctx.activeConns
  unarmed : ¬ r.Arms
  notPending : r.pending = false

theorem toKevent_unclocked
    (hlast : r.state.ctx.connectDone = true ∨ r.state.ctx.activeConns = opts.maxClients.toNat)
    (hactive : 0 < r.state.ctx.activeConns) (hunarmed : ¬ r.Arms) (hpending : r.pending = false) :
    Unclocked (toKevent opts r) := by
  refine ⟨?_, hactive, hunarmed, hpending⟩
  unfold toKevent
  dsimp only
  rw [decide_eq_true]
  rintro ⟨-, hmore, hroom⟩
  cases hlast with
  | inl hdone => exact hmore hdone
  | inr hfull => exact hroom.ne hfull

theorem unclocked_of_done (hdelay : opts.mdelayPerTick = 0) {r : Run ℕ} (hpoint : r.point = .head)
    (h : Accounted opts r.state) (hworld : r.state.world = 1) (hactive : 0 < r.state.ctx.activeConns)
    (hroom : r.state.ctx.activeConns < opts.maxClients.toNat)
    (hdone : r.state.ctx.connectDone = false) (hnevs : r.nevs = 0) (hpending : r.pending = false) :
    ∃ after, step silentOutside opts 1 r = .ok after ∧ Unclocked after := by
  obtain ⟨s', hsetup, hsame, -⟩ := setup_done h hworld hroom r.nevs
    (Nat.zero_le ((opts.connectsPerTick * 2).toNat - 2)) r.expires 0 reaplancErr
  have hstep : step silentOutside opts 1 r = runHead silentOutside opts 1 r := by
    unfold step
    rw [hpoint]
  have hturn := runHead_setup hdelay hdone hsetup (by decide)
  refine ⟨_, hstep.trans hturn, toKevent_unclocked (.inl (Bool.or_true _)) ?_ ?_ ?_⟩
  · exact hsame ▸ hactive
  · rintro ⟨ev, hev, -⟩
    rw [hnevs] at hev
    cases hev
  · exact hpending

theorem unclocked_next (hdelay : opts.mdelayPerTick = 0) {r : Run ℕ} {wait : Bool}
    (hpoint : r.point = .kevent wait) (h : Accounted opts r.state) (hworld : r.state.world = 1)
    (hactive : 0 < r.state.ctx.activeConns)
    (hroom : r.state.ctx.activeConns < opts.maxClients.toNat)
    (hdone : r.state.ctx.connectDone = false) (htimer : r.state.ctx.timerActive = false)
    (htime : r.state.ctx.lastTime = 0) (hunarmed : ¬ r.Arms) (hpending : r.pending = false) :
    ∃ mid after, step silentOutside opts 0 r = .ok mid ∧ step silentOutside opts 1 mid = .ok after ∧
      Unclocked after := by
  have hstep : step silentOutside opts 0 r = runKevent silentOutside opts wait r := by
    unfold step
    rw [hpoint]
  have hturn := runKevent_silent hdelay wait htimer hdone htime hroom
  rw [hpending, decide_eq_false hunarmed] at hturn
  have hsame : Accounted opts { r.state with ctx := { r.state.ctx with closeconns := [] } } :=
    h.of_same ⟨rfl, fun _ => rfl, rfl, rfl, rfl⟩
  obtain ⟨after, hafter, hunclocked⟩ := unclocked_of_done hdelay rfl (r := ⟨_, _, _, _, _⟩) hsame
    hworld hactive hroom hdone rfl rfl
  exact ⟨_, after, hstep.trans hturn, hafter, hunclocked⟩

variable {ctx : ReaplanCtx}

theorem reaplanInit_idle (h : reaplanInit opts = some ctx) :
    ctx.activeConns = 0 ∧ ctx.lastTime = 0 := by
  unfold reaplanInit at h
  split at h
  · cases h
  · obtain ⟨ids, -, hctx⟩ := Option.bind_eq_some_iff.mp h
    rw [← Option.some.inj hctx]
    exact ⟨rfl, rfl⟩

/-- The last new connection of a run without a delay: there is no more room, the
hosts end in the same turn, or they end in the next one. -/
theorem runs_unclocked (hinit : reaplanInit opts = some ctx)
    (hdelay : opts.mdelayPerTick = 0) : ∃ r, Runs silentOutside opts ctx 0 r ∧ Unclocked r := by
  obtain ⟨haccepted, hfresh⟩ := reaplanInit_spec hinit 0
  obtain ⟨hactive₀, htime₀⟩ := reaplanInit_idle hinit
  have hpos := haccepted.connects_pos
  have hle := haccepted.connects_le
  have hdouble := haccepted.toNat_double
  generalize hs₀ : (⟨{ ctx with timerActive := false, connectDone := false }, [], 0⟩ : State ℕ) = s₀
  have h₀ : Accounted opts s₀ := by
    rw [← hs₀]
    exact hfresh.of_same ⟨rfl, fun _ => rfl, rfl, rfl, rfl⟩
  have hstart : step silentOutside opts 0 (Run.fresh ctx 0) = .ok ⟨.head, 0, 0, false, s₀⟩ := by
    have hidle : reaplanUpdateTimer silentOutside opts s₀ = .ok (false, s₀) := by
      refine updateTimer_idle hdelay ?_ ?_ ?_ ?_
      · rw [← hs₀]
      · rw [← hs₀]
      · rw [← hs₀]
        exact htime₀
      · rw [← hs₀]
        dsimp only
        omega
    show runStart silentOutside opts false ⟨ctx, [], 0⟩ = _
    unfold runStart
    dsimp only
    rw [hs₀, hidle]
    rfl
  have hhead : Runs silentOutside opts ctx 0 ⟨.head, 0, 0, false, s₀⟩ :=
    Runs.next 0 (.initial rfl) hstart
  obtain ⟨s₁, hsetup, h₁, hworld₁, hactive₁, hclock₁, hunarmed₁⟩ :=
    setup_first haccepted h₀ (by rw [← hs₀]) (by rw [← hs₀]; exact hactive₀) 0
  have hdone₀ : s₀.ctx.connectDone = false := by rw [← hs₀]
  by_cases hone : opts.connectsPerTick.toNat = 1
  · have hresult : setupConnections silentOutside opts 0 (opts.connectsPerTick * 2).toNat 0 1 0
        reaplancErr s₀ = .ok (reaplancOk, 1, s₁) := by
      rw [hsetup]
      unfold setupConnections
      rw [if_neg (by omega)]
    have hturn := runHead_setup (r := ⟨.head, 0, 0, false, s₀⟩) hdelay hdone₀ hresult (by decide)
    by_cases hmax : opts.maxClients.toNat = 1
    · refine ⟨_, Runs.next 1 hhead hturn, ?_⟩
      refine toKevent_unclocked (.inr ?_) ?_ hunarmed₁ rfl
      · dsimp only
        omega
      · dsimp only
        omega
    · have hroom₁ : s₁.ctx.activeConns < opts.maxClients.toNat := by omega
      have hmore : s₁.ctx.connectDone = false := hclock₁.connectDone.trans hdone₀
      obtain ⟨r₁, hr₁, ⟨wait, hpoint⟩, hnevs, hpending, hworld, hevs, hsame, hclock⟩ :
          ∃ r₁, step silentOutside opts 1 ⟨.head, 0, 0, false, s₀⟩ = .ok r₁ ∧
            (∃ wait, r₁.point = .kevent wait) ∧ r₁.nevs = 1 ∧ r₁.pending = false ∧
            r₁.state.world = s₁.world ∧ r₁.state.ctx.evs = s₁.ctx.evs ∧
            SameAccounts s₁ r₁.state ∧ SameClock s₁ r₁.state :=
        ⟨_, hturn, ⟨_, rfl⟩, rfl, rfl, rfl, rfl, ⟨rfl, fun _ => rfl, rfl, rfl, rfl⟩,
          ⟨Bool.or_false _, rfl, rfl⟩⟩
      have hactive : r₁.state.ctx.activeConns = 1 := hsame.activeConns.trans hactive₁
      obtain ⟨mid, after, hmid, hafter, hunclocked⟩ := unclocked_next hdelay hpoint
        (h₁.of_same hsame) (hworld.trans hworld₁) (by omega) (by omega)
        (hclock.connectDone.trans hmore)
        (by rw [hclock.timerActive, hclock₁.timerActive, ← hs₀])
        (by rw [hclock.lastTime, hclock₁.lastTime, ← hs₀]; exact htime₀)
        (by unfold Run.Arms; rw [hnevs, hevs]; exact hunarmed₁) hpending
      have hrun₁ : Runs silentOutside opts ctx 0 r₁ := Runs.next 1 hhead hr₁
      exact ⟨after, Runs.next 1 (Runs.next 0 hrun₁ hmid) hafter,
        hunclocked⟩
  · obtain ⟨s₂, hsecond, hactive₂, hevs₂⟩ := setup_done h₁ hworld₁ (by omega) 0
      (show 1 ≤ (opts.connectsPerTick * 2).toNat - 2 by omega) 0 0 reaplancOk
    have hresult : setupConnections silentOutside opts 0 (opts.connectsPerTick * 2).toNat 0 2 0
        reaplancErr s₀ = .ok (reaplancDone, 1, s₂) := by
      rw [hsetup, hsecond]
    have hturn := runHead_setup (r := ⟨.head, 0, 0, false, s₀⟩) hdelay hdone₀ hresult (by decide)
    refine ⟨_, Runs.next 2 hhead hturn, ?_⟩
    refine toKevent_unclocked (.inl (Bool.or_true _)) ?_ ?_ rfl
    · dsimp only
      omega
    · unfold Run.Arms
      rw [hevs₂]
      exact hunarmed₁

theorem not_neverWithoutTimer (hinit : reaplanInit opts = some ctx)
    (hdelay : opts.mdelayPerTick = 0) : ¬ NeverWithoutTimer opts ctx := by
  intro hnever
  obtain ⟨r, hrun, hunclocked⟩ := runs_unclocked hinit hdelay
  cases hnever ℕ silentOutside (silentOutside_lawful opts) 0 r hrun hunclocked.waits
    hunclocked.active with
  | inl harms => exact hunclocked.unarmed harms
  | inr hpending => exact Bool.noConfusion (hpending.symm.trans hunclocked.notPending)

theorem neverWithoutTimer_iff {ctx : ReaplanCtx} (hinit : reaplanInit opts = some ctx) :
    NeverWithoutTimer opts ctx ↔ 0 < opts.mdelayPerTick := by
  constructor
  · intro hnever
    by_contra hzero
    rw [UInt32.not_lt] at hzero
    exact not_neverWithoutTimer hinit (UInt32.le_zero_iff.mp hzero) hnever
  · exact fun hdelay => neverWithoutTimer_of_delay hdelay ctx

theorem neverWithoutTimer_iff_sample :
    NeverWithoutTimer { sampleOpts with mdelayPerTick := 25 } sampleCtx ∧
      ¬ NeverWithoutTimer sampleOpts sampleCtx :=
  ⟨(neverWithoutTimer_iff rfl).mpr (by decide),
    fun hnever => absurd ((neverWithoutTimer_iff rfl).mp hnever) (by decide)⟩

def singleOpts : ReaplanOpts := ⟨true, false, 10, 1, 1, 0, false⟩

theorem silent_host_without_timer :
    ¬ ∀ (opts : ReaplanOpts) (ctx : ReaplanCtx), reaplanInit opts = some ctx → 0 < opts.timeout →
      NeverWithoutTimer opts ctx := by
  intro hclaim
  have hinit : ∃ ctx, reaplanInit singleOpts = some ctx := ⟨_, rfl⟩
  obtain ⟨ctx, hinit⟩ := hinit
  exact not_neverWithoutTimer hinit rfl (hclaim singleOpts ctx hinit (by decide))

end Yans.Net.Reaplan
