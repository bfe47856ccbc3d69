import Yans.Net.ReaplanTimer

/-! The connections of one tick. The limit is on the events that
`setup_connections` puts into the array, two for a connection; a connection that
asks for one event or for none leaves room for more of them. -/
namespace Yans.Net.Reaplan

open Util.Idset Library.Postconditions Library.Runs

variable {World : Type} (out : Outside World) (opts : ReaplanOpts)

/-- The number of events that a new connection asks for. -/
def Connected.places (connected : Connected) : ℕ :=
  if ¬ connected.readable ∧ ¬ connected.writableOneshot then 0
  else if connected.ssl then 2
  else connected.readable.toNat + connected.writableOneshot.toNat

/-- The answers of `on_connect` to so many calls in a row. A connection that asks for nothing
is closed at once. -/
def answers : ℕ → IdsetCtx → World → List Connected
  | 0, _, _ => []
  | calls + 1, ids, world =>
    match idsetUseNext ids with
    | (none, _) => []
    | (some id, ids) =>
      let (connected, world) := out.onConnect id world
      if connected.code ≠ reaplancOk ∨ connected.fd < 0 then []
      else if ¬ connected.readable ∧ ¬ connected.writableOneshot then
        connected :: answers calls (idsetClear ids id)
          (if opts.onDone then out.onDone id world else world)
      else connected :: answers calls ids world

/-- A call fails or waits, or the connections ask for more events than `end` leaves from `i`
on. -/
def Fills (calls i «end» : ℕ) (s : State World) : Prop :=
  (answers out opts calls s.ctx.ids s.world).length < calls ∨
    «end» - 2 < i + ((answers out opts calls s.ctx.ids s.world).map Connected.places).sum

def SetsUp (r : Run World) : Prop :=
  r.point = .head ∧ ¬ (r.state.ctx.connectDone ∧ ¬ r.state.ctx.activeConns > 0) ∧
    ¬ r.state.ctx.connectDone ∧ (opts.mdelayPerTick ≤ 0 ∨ ¬ r.state.ctx.throttleConnect)

/-- There are fewer connections than a tick has room for, or the first ones of
them leave no room for another one. -/
def Paced (r : Run World) : Prop :=
  SetsUp opts r → Fills out opts opts.connectsPerTick.toNat 0 (opts.connectsPerTick * 2).toNat
    (nextExpires out opts r.expires r.state).2

/-- A run with the number of connections that had been made when the timer was
delivered last, or else when the run was started. -/
structure Ticking (World : Type) where
  run : Run World
  mark : ℕ

def delivers (wait : Bool) (r : Run World) : Bool :=
  match (out.kevent r.state.ctx wait r.state.world).1 with
  | .events evs => decide (∃ ev ∈ evs, IsTimer ev)
  | _ => false

def nextMark (t : Ticking World) : ℕ :=
  match t.run.point with
  | .head => t.mark
  | .kevent wait => if delivers out wait t.run then connections t.run.state.log else t.mark
  | .returned => connections t.run.state.log

def Ticks (allowed : Run World → Prop) (ctx : ReaplanCtx) (world : World) :
    Ticking World → Prop :=
  Reachable (· = ⟨Run.fresh ctx world, 0⟩) (fun t _ => allowed t.run)
    fun before rounds after => step out opts rounds before.run = .ok after.run ∧
      after.mark = nextMark out before

def Ticking.Limited (t : Ticking World) : Prop :=
  connections t.run.state.log ≤ t.mark + opts.connectsPerTick.toNat

variable {out opts}

/-! One call of `setup_connections` -/

variable {s s' : State World}

variable {index : ℕ}

theorem addEvent_spec {requested : Bool} {next : ℕ} {ev : Kevent}
    (h : addEvent requested index ev s = .ok (next, s')) :
    next = index + requested.toNat ∧ s'.log = s.log ∧
      s'.ctx.throttleConnect = s.ctx.throttleConnect ∧ s'.ctx.ids = s.ctx.ids ∧
      s'.world = s.world := by
  cases requested with
  | false =>
    cases h
    exact ⟨rfl, rfl, rfl, rfl, rfl⟩
  | true =>
    rw [addEvent, if_pos rfl, evSet] at h
    split at h
    · cases h
      exact ⟨rfl, rfl, rfl, rfl, rfl⟩
    · cases h

theorem setEvents_spec {next i : ℕ}
    (h : setEvents index i s = .ok (next, s')) :
    next = index + ((s.ctx.conns i).ssl || (s.ctx.conns i).rflags.readable).toNat +
      ((s.ctx.conns i).ssl || (s.ctx.conns i).rflags.writableOneshot).toNat ∧
    s'.log = s.log ∧ s'.ctx.throttleConnect = s.ctx.throttleConnect ∧ s'.ctx.ids = s.ctx.ids ∧
      s'.world = s.world := by
  unfold setEvents at h
  dsimp only at h
  generalize hflags : (if (s.ctx.conns i).ssl = true then _ else _ : ConnFlags) = flags at h
  cases hread : addEvent ((s.ctx.conns i).ssl || (s.ctx.conns i).rflags.readable) index
      (readEvent i (s.ctx.conns i)) (setConn i { s.ctx.conns i with flags := flags } s) with
  | error fault =>
    rw [hread] at h
    cases h
  | ok result =>
    rw [hread] at h
    obtain ⟨hnext, hlog, hthrottle, hids, hworld⟩ := addEvent_spec hread
    obtain ⟨hnext', hlog', hthrottle', hids', hworld'⟩ := addEvent_spec h
    exact ⟨by rw [hnext', hnext], hlog'.trans hlog, hthrottle'.trans hthrottle, hids'.trans hids,
      hworld'.trans hworld⟩

variable {connected : Connected}

theorem connectSlot_conn {id : ℕ} {ids : IdsetCtx}
    (hconnect : connectSlot out id (setIds ids s) = (connected, s')) :
    s'.ctx.conns id = connectedConn connected ∧ s'.log = s.log ∧
      s'.ctx.throttleConnect = s.ctx.throttleConnect ∧ s'.ctx.ids = ids ∧
      out.onConnect id s.world = (connected, s'.world) := by
  cases hconnect
  exact ⟨Function.update_self _ _ _, rfl, rfl, rfl, rfl⟩

theorem connections_countConnected (id : ℕ) (s : State World) :
    connections (countConnected id s).log = connections s.log + 1 :=
  List.countP_append.trans rfl

theorem places_eq (hasks : ¬ (¬ connected.readable ∧ ¬ connected.writableOneshot)) :
    connected.places = (connected.ssl || connected.readable).toNat +
      (connected.ssl || connected.writableOneshot).toNat := by
  unfold Connected.places
  rw [if_neg hasks]
  cases connected.ssl with
  | true => rfl
  | false => rfl

theorem setEvents_connected {id next : ℕ} {ids : IdsetCtx} {expires : ℤ} {s'' : State World}
    (hconnect : connectSlot out id (setIds ids s) = (connected, s'))
    (hasks : ¬ (¬ connected.readable ∧ ¬ connected.writableOneshot))
    (h : setEvents index id (setExpires id expires (countConnected id s')) = .ok (next, s'')) :
    next = index + connected.places ∧ connections s''.log = connections s.log + 1 ∧
      s''.ctx.throttleConnect = s.ctx.throttleConnect ∧ s''.ctx.ids = ids ∧
      s''.world = s'.world := by
  obtain ⟨hconn, hlog, hthrottle, hids, -⟩ := connectSlot_conn hconnect
  obtain ⟨hnext, hlog', hthrottle', hids', hworld⟩ := setEvents_spec h
  have hset : (setExpires id expires (countConnected id s')).ctx.conns id =
      { connectedConn connected with expires := expires } := by
    rw [← hconn]
    exact Function.update_self _ _ _
  refine ⟨?_, ?_, hthrottle'.trans hthrottle, hids'.trans hids, hworld⟩
  · rw [hnext, hset, places_eq hasks, Nat.add_assoc]
    rfl
  · rw [hlog', ← hlog]
    exact connections_countConnected id s'

theorem reaplanConnClose_calls (id : ℕ) (s : State World) :
    (reaplanConnClose out opts id s).ctx.ids = idsetClear s.ctx.ids id ∧
      (reaplanConnClose out opts id s).world =
        if opts.onDone then out.onDone id s.world else s.world := by
  unfold reaplanConnClose
  dsimp only
  split
  · exact ⟨rfl, rfl⟩
  · exact ⟨rfl, rfl⟩

theorem setupConnections_limited (base «end» : ℕ) (expires : ℤ) (rounds : ℕ) :
    ∀ (calls i : ℕ) (result : ℤ) (s : State World), Fills out opts calls i «end» s →
      Ends (fun _ => True)
        (fun after => connections after.2.2.log ≤ connections s.log + calls ∧
          after.2.2.ctx.throttleConnect = s.ctx.throttleConnect)
        (setupConnections out opts base «end» expires rounds i result s) := by
  induction rounds with
  | zero =>
    intro calls i result s _
    unfold setupConnections
    split
    · trivial
    · exact ⟨Nat.le_add_right _ _, rfl⟩
  | succ rounds ih =>
    intro calls i result s hfills
    rw [setupConnections]
    split
    · rename_i hi
      cases calls with
      | zero =>
        -- there is room for a connection
        obtain hfew | hfull := hfills
        · exact absurd hfew (Nat.not_lt_zero _)
        · exact absurd hfull (not_lt.mpr hi)
      | succ calls =>
        unfold Fills at hfills
        rw [answers] at hfills
        cases huse : idsetUseNext s.ctx.ids with
        | mk found ids =>
          cases found with
          | none => exact ⟨Nat.le_add_right _ _, rfl⟩
          | some id =>
            cases hconnect : connectSlot out id (setIds ids s) with
            | mk connected s' =>
              obtain ⟨-, hlog, hthrottle, hids, hcall⟩ := connectSlot_conn hconnect
              simp only [huse, hcall] at hfills
              dsimp only
              rw [hconnect]
              split
              · exact ⟨(congrArg connections hlog).le.trans (Nat.le_add_right _ _), hthrottle⟩
              · rename_i hok
                rw [if_neg hok] at hfills
                split
                · rename_i hnone
                  have hplaces : connected.places = 0 := if_pos hnone
                  rw [if_pos hnone, List.length_cons, List.map_cons, List.sum_cons, hplaces,
                    Nat.zero_add, Nat.succ_lt_succ_iff] at hfills
                  have hclosed : Fills out opts calls i «end»
                      (reaplanConnClose out opts id (countConnected id s')) := by
                    obtain ⟨hids', hworld⟩ :=
                      @reaplanConnClose_calls _ out opts id (countConnected id s')
                    unfold Fills
                    rw [hids', hworld, show (countConnected id s').ctx.ids = ids from hids]
                    exact hfills
                  refine (ih _ _ _ _ hclosed).mono fun after h => ?_
                  have hclose := @reaplanConnClose_ticked _ out opts id (countConnected id s')
                  rw [hclose.connections_eq, connections_countConnected, hlog,
                    hclose.throttleConnect, Bool.not_false, Bool.and_true] at h
                  exact ⟨by omega, h.2.trans hthrottle⟩
                · rename_i hasks
                  rw [if_neg hasks, List.length_cons, List.map_cons, List.sum_cons,
                    Nat.succ_lt_succ_iff] at hfills
                  cases hevents : setEvents (base + i) id
                      (setExpires id expires (countConnected id s')) with
                  | error fault => trivial
                  | ok result =>
                    obtain ⟨next, s''⟩ := result
                    obtain ⟨hnext, hcount, hthrottle', hids', hworld⟩ :=
                      setEvents_connected hconnect hasks hevents
                    have hlater : Fills out opts calls (next - base) «end» s'' := by
                      unfold Fills
                      rw [hids', hworld, hnext]
                      exact hfills.imp_right fun hfull => by omega
                    refine (ih _ _ _ _ hlater).mono fun after h => ?_
                    rw [hcount, hthrottle'] at h
                    exact ⟨by omega, h.2⟩
    · exact ⟨Nat.le_add_right _ _, rfl⟩

structure SamePace (s s' : State World) : Prop where
  throttleConnect : s'.ctx.throttleConnect = s.ctx.throttleConnect
  connections_eq : connections s'.log = connections s.log

theorem SamePace.trans {s'' : State World} (h : SamePace s s') (h' : SamePace s' s'') :
    SamePace s s'' :=
  ⟨h'.throttleConnect.trans h.throttleConnect, h'.connections_eq.trans h.connections_eq⟩

theorem Ticked.samePace (h : Ticked false s s') : SamePace s s' :=
  ⟨h.throttleConnect.trans (Bool.and_true _), h.connections_eq⟩

theorem checkExpired_pace (s : State World) : SamePace s (checkExpired out opts s) := by
  unfold checkExpired
  split
  · dsimp only
    split
    · have hsweep : ∀ now s', SamePace s s' → SamePace s (closeExpired out opts now s') := by
        intro now s' h
        refine List.foldlRecOn _ _ h fun s' h i _ => ?_
        split
        · exact h.trans (reaplanConnClose_ticked i s').samePace
        · exact h
      have hclosed := hsweep ((out.clock s.world).1.getD 0)
        { s with world := (out.clock s.world).2 } ⟨rfl, rfl⟩
      exact ⟨hclosed.throttleConnect, hclosed.connections_eq⟩
    · exact ⟨rfl, rfl⟩
  · exact ⟨rfl, rfl⟩

theorem reaplanUpdateTimer_pace (s : State World) :
    Ends (fun _ => True) (fun result => SamePace s result.2) (reaplanUpdateTimer out opts s) := by
  have hchecked := @checkExpired_pace _ out opts s
  have hstart : ∀ ev, Ends (fun _ => True) (fun result : Bool × State World =>
      SamePace s result.2) (do
        let s ← evSet 0 ev (checkExpired out opts s)
        return (true, { s with ctx := { s.ctx with timerActive := true } })) := by
    intro ev
    unfold evSet
    split
    · exact ⟨hchecked.throttleConnect, hchecked.connections_eq⟩
    · trivial
  unfold reaplanUpdateTimer
  split
  · exact ⟨rfl, rfl⟩
  · dsimp only
    split
    · exact hstart _
    · split
      · exact hchecked
      · exact hstart _

/-- No connection is made between the delivery of the timer and the head of the
loop that takes down the throttle. -/
structure Ticking.Holds (opts : ReaplanOpts) (t : Ticking World) : Prop where
  limited : t.Limited opts
  unthrottled : t.run.point ≠ .returned → t.run.state.ctx.throttleConnect = false →
    connections t.run.state.log = t.mark

variable {rounds : ℕ}

variable {t : Ticking World}

theorem runHead_holds (hdelay : 0 < opts.mdelayPerTick) (hpoint : t.run.point = .head)
    (hpaced : Paced out opts t.run) (h : t.Holds opts) :
    Ends (fun _ => True) (fun after => Ticking.Holds opts ⟨after, t.mark⟩)
      (runHead out opts rounds t.run) := by
  have hhead : t.run.point ≠ .returned := by
    rw [hpoint]
    exact Point.noConfusion
  unfold runHead
  dsimp only
  split
  · exact ⟨h.limited, fun hreturned => absurd rfl hreturned⟩
  · rename_i hmore
    split
    · rename_i hsetup
      have hthrottle : t.run.state.ctx.throttleConnect = false := by
        rw [← Bool.not_eq_true]
        exact hsetup.2.resolve_left (UInt32.not_le.mpr hdelay)
      have hexpires : connections (nextExpires out opts t.run.expires t.run.state).2.log =
          connections t.run.state.log := by
        unfold nextExpires
        split <;> rfl
      refine Ends.bind (setupConnections_limited t.run.nevs _ _ rounds _ 0 _ _
        (hpaced ⟨hpoint, hmore, hsetup⟩)) ?_
      rintro ⟨ret, newNevs, s⟩ ⟨hcount, -⟩
      have hlimited : connections s.log ≤ t.mark + opts.connectsPerTick.toNat := by
        rw [hexpires, h.unthrottled hhead hthrottle] at hcount
        exact hcount
      dsimp only
      split
      · exact ⟨hlimited, fun hreturned => absurd rfl hreturned⟩
      · exact ⟨hlimited, fun _ hthrottle => Bool.noConfusion hthrottle⟩
    · exact ⟨h.limited, fun _ => h.unthrottled hhead⟩

theorem runKevent_holds (wait : Bool) (hpoint : t.run.point = .kevent wait)
    (h : t.Holds opts) :
    Ends (fun _ => True) (fun after => Ticking.Holds opts ⟨after, nextMark out t⟩)
      (runKevent out opts wait t.run) := by
  have hhead : t.run.point ≠ .returned := by
    rw [hpoint]
    exact Point.noConfusion
  unfold runKevent nextMark delivers
  rw [hpoint]
  dsimp only
  cases hkevent : out.kevent t.run.state.ctx wait t.run.state.world with
  | mk polled world =>
    cases polled with
    | interrupted => exact ⟨h.limited, fun _ => h.unthrottled hhead⟩
    | failure => exact ⟨h.limited, fun hreturned => absurd rfl hreturned⟩
    | events evs =>
      refine Ends.bind (reaplanHandleEvents_ticked evs _) fun s hhandled => ?_
      refine Ends.bind (reaplanUpdateTimer_pace s) ?_
      rintro ⟨armed, s'⟩ hpace
      have hcount : connections s'.log = connections t.run.state.log :=
        hpace.connections_eq.trans hhandled.connections_eq
      have hthrottle := hpace.throttleConnect.trans hhandled.throttleConnect
      dsimp only at hthrottle ⊢
      by_cases hdelivered : ∃ ev ∈ evs, IsTimer ev
      · rw [if_pos (decide_eq_true hdelivered)]
        exact ⟨hcount.le.trans (Nat.le_add_right _ _), fun _ _ => hcount⟩
      · rw [if_neg (by rwa [decide_eq_true_iff])]
        rw [decide_eq_false hdelivered, Bool.not_false, Bool.and_true] at hthrottle
        refine ⟨hcount.le.trans h.limited, fun _ hopen => ?_⟩
        exact hcount.trans (h.unthrottled hhead (hthrottle.symm.trans hopen))

theorem runStart_holds (t : Ticking World) (hpoint : t.run.point = .returned) :
    Ends (fun _ => True) (fun after => Ticking.Holds opts ⟨after, nextMark out t⟩)
      (runStart out opts t.run.pending t.run.state) := by
  unfold nextMark
  rw [hpoint]
  refine Ends.bind (reaplanUpdateTimer_pace _) ?_
  rintro ⟨armed, s'⟩ hpace
  exact ⟨hpace.connections_eq.le.trans (Nat.le_add_right _ _), fun _ _ => hpace.connections_eq⟩

theorem step_holds (hdelay : 0 < opts.mdelayPerTick)
    (hpaced : Paced out opts t.run) (h : t.Holds opts) :
    Ends (fun _ => True) (fun after => Ticking.Holds opts ⟨after, nextMark out t⟩)
      (step out opts rounds t.run) := by
  unfold step
  split
  · rename_i hpoint
    have hmark : nextMark out t = t.mark := by
      unfold nextMark
      rw [hpoint]
    rw [hmark]
    exact runHead_holds hdelay hpoint hpaced h
  · rename_i wait hpoint
    exact runKevent_holds wait hpoint h
  · rename_i hpoint
    exact runStart_holds t hpoint

/-- With a delay between the ticks, each of them has at most the connections it
is meant to have, if these leave no room for more. -/
theorem connects_limited {ctx : ReaplanCtx} (hdelay : 0 < opts.mdelayPerTick) {world : World}
    {t : Ticking World} (h : Ticks out opts (Paced out opts) ctx world t) : t.Limited opts := by
  have hholds : t.Holds opts := by
    refine Reachable.invariant ?_ ?_ h
    · rintro t rfl
      exact ⟨Nat.zero_le _, fun hreturned => absurd rfl hreturned⟩
    · rintro before rounds ⟨after, mark⟩ hbefore hpaced ⟨hstep, hmark⟩
      have hafter := (step_holds hdelay hpaced hbefore).of_ok hstep
      rwa [← hmark] at hafter
  exact hholds.limited

/-- Hosts without end that connect at once, and of which nothing is heard. -/
def openOutside (writableOneshot : Bool) : Outside ℕ where
  onConnect _ world := (⟨reaplancOk, 5, true, writableOneshot, false⟩, world + 1)
  onReadable _ world := (⟨0, false⟩, world)
  onWritable _ world := (⟨0, false⟩, world)
  onDone _ world := world
  sslConnect _ world := (.failure, world)
  clock world := (some 100, world)
  kevent _ _ world := (.failure, world)

def delayOpts : ReaplanOpts := ⟨true, false, 10, 3, 2, 1000, false⟩

def delayCtx : ReaplanCtx :=
  ⟨List.replicate 5 zeroKevent, ⟨false, 2, [BitVec.allOnes 32]⟩, fun _ => zeroConn, [], 0, 0,
    false, false, false⟩

theorem Ticks.next {allowed : Run World → Prop} {ctx : ReaplanCtx} {world : World}
    {before : Ticking World} {after : Run World} (rounds : ℕ)
    (h : Ticks out opts allowed ctx world before) (hallowed : allowed before.run)
    (hstep : step out opts rounds before.run = .ok after) :
    Ticks out opts allowed ctx world ⟨after, nextMark out before⟩ :=
  Reachable.step h hallowed ⟨hstep, rfl⟩

/-- Connections that ask for both events: two of them in a tick of two. -/
theorem connects_limited_sample : ∃ t, Ticks (openOutside true) delayOpts
    (Paced (openOutside true) delayOpts) delayCtx 0 t ∧ connections t.run.state.log = 2 ∧
      t.mark = 0 ∧ t.Limited delayOpts := by
  have hstart : Ticks (openOutside true) delayOpts (Paced (openOutside true) delayOpts) delayCtx 0 _ :=
    Ticks.next 0 (.initial rfl) (fun hsets => Point.noConfusion hsets.1) rfl
  have hhead : Ticks (openOutside true) delayOpts (Paced (openOutside true) delayOpts) delayCtx 0 _ :=
    Ticks.next 3 hstart (fun _ => .inr (by decide)) rfl
  exact ⟨_, hhead, by decide, rfl, connects_limited (by decide) hhead⟩

/-- Connections that ask for one event: three of them in a tick of two. -/
theorem connects_over_limit : ¬ ∀ (opts : ReaplanOpts) (ctx : ReaplanCtx),
    reaplanInit opts = some ctx → 0 < opts.mdelayPerTick →
      ∀ (World : Type) (out : Outside World) (world : World) (t : Ticking World),
        Ticks out opts (fun _ => True) ctx world t → t.Limited opts := by
  intro hlimited
  have hstart : Ticks (openOutside false) delayOpts (fun _ => True) delayCtx 0 _ :=
    Ticks.next 0 (.initial rfl) trivial rfl
  have hhead : Ticks (openOutside false) delayOpts (fun _ => True) delayCtx 0 _ :=
    Ticks.next 4 hstart trivial rfl
  have hover := hlimited delayOpts delayCtx rfl (by decide) ℕ (openOutside false) 0 _ hhead
  unfold Ticking.Limited at hover
  exact absurd hover (by decide)

end Yans.Net.Reaplan
