import Yans.Net.ReaplanAccounting

/-! The assertions of `lib/net/reaplan.c`: that a connection which is closed has
an id, that a connection in the handshake has its TLS data, and that the end of
the handshake changes what is registered. -/
namespace Yans.Net.Reaplan

open Util.Idset Library.Postconditions Library.Runs

variable {World : Type} {out : Outside World} {opts : ReaplanOpts}

/-! What the callbacks register -/

/-- The arguments of a call of `reaplan_register_conn`, and what the TLS library
answers in it. -/
structure Registration where
  fd : ℤ
  flags : UInt32
  sslNew : Bool
  sslSetFd : ℤ

def requestedFlags (flags : UInt32) : ConnFlags :=
  ⟨flags &&& 1 ≠ 0, flags &&& 2 ≠ 0, flags &&& 4 ≠ 0⟩

def reaplanRegisterConn (opts : ReaplanOpts) (reg : Registration) (conn : ReaplanConn) :
    ℤ × ReaplanConn :=
  if opts.sslCtx then
    if ¬ reg.sslNew ∨ reg.sslSetFd ≠ 1 then (-1, { conn with ssl := false })
    else (0, { conn with ssl := true, fd := reg.fd, rflags := requestedFlags reg.flags })
  else (0, { conn with fd := reg.fd, rflags := requestedFlags reg.flags })

/-- The connection behind the calls in `on_connect`, which gets it zeroed. -/
def registeredConn (opts : ReaplanOpts) (calls : List Registration) : ReaplanConn :=
  calls.foldl (fun conn reg => (reaplanRegisterConn opts reg conn).2) zeroConn

/-- What a run relies on: `on_connect` fills in a connection by registering it,
and `kevent` delivers events of open descriptors. -/
structure Outside.Registers (out : Outside World) (opts : ReaplanOpts) : Prop where
  registered : ∀ i world, ∃ calls code, (out.onConnect i world).1 =
    let conn := registeredConn opts calls
    ⟨code, conn.fd, conn.rflags.readable, conn.rflags.writableOneshot, conn.ssl⟩
  events_open : ∀ {ctx wait world evs world'},
    out.kevent ctx wait world = (.events evs, world') → ∀ ev ∈ evs, ev.filter ≠ .timer →
      ev.udata < opts.maxClients.toNat ∧ 0 ≤ (ctx.conns ev.udata).fd

theorem ssl_registeredConn (opts : ReaplanOpts) (calls : List Registration) :
    (registeredConn opts calls).ssl → opts.sslCtx := by
  have hzero : zeroConn.ssl → opts.sslCtx := nofun
  refine @List.foldlRecOn _ _ (fun conn : ReaplanConn => conn.ssl → opts.sslCtx) calls _ _ hzero ?_
  intro conn hconn reg _ hssl
  by_contra hctx
  rw [reaplanRegisterConn, if_neg hctx] at hssl
  exact hctx (hconn hssl)

theorem Outside.Registers.ssl (laws : out.Registers opts) {i : ℕ} {world : World}
    (h : (out.onConnect i world).1.ssl) : opts.sslCtx := by
  obtain ⟨calls, code, heq⟩ := laws.registered i world
  rw [heq] at h
  exact ssl_registeredConn opts calls h

/-! The assertion of `reaplan_conn_close` -/

/-- `reaplan_conn_id` of the connection in a place of the array or behind it; the
place is converted to an int. -/
def reaplanConnId (opts : ReaplanOpts) (i : ℕ) : ℤ :=
  if i ≥ opts.maxClients.toNat then -1 else (BitVec.ofNat 32 i).toInt

variable {i : ℕ}

theorem reaplanConnId_nonneg (hmax : opts.maxClients.toNat ≤ intMax)
    (hi : i < opts.maxClients.toNat) : 0 ≤ reaplanConnId opts i := by
  have hsmall : intMax < 2 ^ 31 := by decide
  rw [reaplanConnId, if_neg (not_le.mpr hi), BitVec.toInt_eq_toNat_of_lt]
  · exact Int.natCast_nonneg _
  · rw [BitVec.toNat_ofNat]
    omega

/-- The slots that the first rounds of the loop of `setup_connections` close. -/
def setupCloses (out : Outside World) (opts : ReaplanOpts) (base «end» : ℕ) (expires : ℤ) :
    ℕ → ℕ → State World → List ℕ
  | 0, _, _ => []
  | rounds + 1, i, s =>
    if i ≤ «end» - 2 then
      match idsetUseNext s.ctx.ids with
      | (none, _) => []
      | (some id, ids) =>
        let (connected, s) := connectSlot out id (setIds ids s)
        if connected.code ≠ reaplancOk ∨ connected.fd < 0 then []
        else
          let s := countConnected id s
          if ¬ connected.readable ∧ ¬ connected.writableOneshot then
            id :: setupCloses out opts base «end» expires rounds i (reaplanConnClose out opts id s)
          else
            match setEvents (base + i) id (setExpires id expires s) with
            | .error _ => []
            | .ok (next, s) => setupCloses out opts base «end» expires rounds (next - base) s
    else []

/-- The slots that are closed in the part of the loop of `reaplan_run` where new
connections are set up. -/
def connectingCloses (out : Outside World) (opts : ReaplanOpts) (rounds : ℕ) (r : Run World) :
    List ℕ :=
  let (expires, s) := nextExpires out opts r.expires r.state
  setupCloses out opts r.nevs (opts.connectsPerTick * 2).toNat expires rounds 0 s

/-- No assertion fails in what has been closed so far, nor in the next part of
the run. -/
structure AssertionsHold (out : Outside World) (opts : ReaplanOpts) (r : Run World) : Prop where
  closed : ∀ i, (.closed, i) ∈ r.state.log → 0 ≤ reaplanConnId opts i
  connecting : ∀ rounds, ∀ i ∈ connectingCloses out opts rounds r, 0 ≤ reaplanConnId opts i
  handshakes : ∀ rounds, step out opts rounds r ≠ .error .aborted

/-! When the assertions of the handshake fail -/

/-- Before the events that `kevent` has delivered. -/
def received (evs : List Kevent) (world : World) (s : State World) : State World :=
  { s with
    ctx := { s.ctx with evs := evs ++ s.ctx.evs.drop evs.length, closeconns := [] }
    world := world }

def Handles (out : Outside World) (opts : ReaplanOpts) (r : Run World) (ev : Kevent)
    (s : State World) : Prop :=
  ∃ wait evs world before later, r.point = .kevent wait ∧
    out.kevent r.state.ctx wait r.state.world = (.events evs, world) ∧
    evs = before ++ ev :: later ∧
    before.foldlM (handleEvent out opts) (received evs world r.state) = .ok s

structure InHandshake (s : State World) (ev : Kevent) : Prop where
  noError : ¬ ev.evError
  filter : ev.filter = .read ∨ ev.filter = .write ∧ ¬ ev.evEof
  tlsHandshake : (s.ctx.conns ev.udata).flags.tlsHandshake

/-- The event ends the handshake of a connection that was registered for reading
alone. -/
structure EndsForReading (out : Outside World) (s : State World) (ev : Kevent) : Prop where
  inHandshake : InHandshake s ev
  readable : (s.ctx.conns ev.udata).rflags.readable
  notWritable : ¬ (s.ctx.conns ev.udata).rflags.writableOneshot
  done : (out.sslConnect ev.udata s.world).1 = .done

def Secured (opts : ReaplanOpts) (s : State World) : Prop :=
  ∀ i, 0 ≤ (s.ctx.conns i).fd → (s.ctx.conns i).flags.tlsHandshake →
    opts.sslCtx ∧ (s.ctx.conns i).ssl

structure Guarded (opts : ReaplanOpts) (s : State World) : Prop where
  wellFormed : WellFormed s.ctx.ids
  lastId : s.ctx.ids.lastId + 1 = opts.maxClients.toNat
  secured : Secured opts s
  closed : ∀ i, (.closed, i) ∈ s.log → i < opts.maxClients.toNat

variable {s s' : State World}

theorem Guarded.of_eq (h : Guarded opts s) (hids : s'.ctx.ids = s.ctx.ids)
    (hconns : s'.ctx.conns = s.ctx.conns) (hlog : s'.log = s.log) : Guarded opts s' := by
  refine ⟨hids ▸ h.wellFormed, hids ▸ h.lastId, ?_, hlog ▸ h.closed⟩
  unfold Secured
  rw [hconns]
  exact h.secured

theorem Secured.setConn (h : Secured opts s) {conn : ReaplanConn}
    (hconn : 0 ≤ conn.fd → conn.flags.tlsHandshake → opts.sslCtx ∧ conn.ssl) :
    Secured opts (setConn i conn s) := by
  intro j
  by_cases hj : j = i
  · subst hj
    simpa [Reaplan.setConn] using hconn
  · simpa [Reaplan.setConn, hj] using h j

theorem Guarded.setConn (h : Guarded opts s) {conn : ReaplanConn}
    (hconn : 0 ≤ conn.fd → conn.flags.tlsHandshake → opts.sslCtx ∧ conn.ssl) :
    Guarded opts (setConn i conn s) :=
  ⟨h.wellFormed, h.lastId, h.secured.setConn hconn, h.closed⟩

theorem reaplanConnClose_conns {j : ℕ} (hj : j ≠ i) (s : State World) :
    (reaplanConnClose out opts i s).ctx.conns j = s.ctx.conns j := by
  unfold reaplanConnClose
  cases opts.onDone with
  | true => simp [act, setConn, hj]
  | false => simp [act, setConn, hj]

theorem Guarded.reaplanConnClose (h : Guarded opts s)
    (hi : i < opts.maxClients.toNat) : Guarded opts (reaplanConnClose out opts i s) := by
  have hle : i ≤ s.ctx.ids.lastId := Nat.lt_succ_iff.mp (hi.trans_eq h.lastId.symm)
  obtain ⟨hwf, hlast, -⟩ := idsetClear_spec h.wellFormed hle
  refine ⟨?_, ?_, fun j hfd htls => ?_, fun j hj => ?_⟩
  · rw [reaplanConnClose_ids]
    exact hwf
  · rw [reaplanConnClose_ids, hlast]
    exact h.lastId
  · by_cases hj : j = i
    · rw [reaplanConnClose_fd, if_pos hj] at hfd
      exact absurd hfd (by decide)
    · rw [reaplanConnClose_conns hj] at hfd htls ⊢
      exact h.secured j hfd htls
  · rw [reaplanConnClose_log] at hj
    cases List.mem_append.mp hj with
    | inl hold => exact h.closed j hold
    | inr hnew =>
      obtain ⟨action, -, heq⟩ := List.mem_map.mp hnew
      cases heq
      exact hi

/-- The induction is on the queue. -/
theorem Guarded.closeConns {queue : List ℕ} : ∀ {s : State World}, Guarded opts s →
    (∀ i ∈ queue, i < opts.maxClients.toNat) →
    Guarded opts (queue.foldl (fun s i => Reaplan.reaplanConnClose out opts i s) s) := by
  induction queue with
  | nil => exact fun h _ => h
  | cons i queue ih =>
    intro s h hqueue
    rw [List.forall_mem_cons] at hqueue
    exact ih (h.reaplanConnClose hqueue.1) hqueue.2

section

variable {s : State World} (h : Guarded opts s)

include h

theorem Guarded.closeExpired (now : ℤ) :
    Guarded opts (closeExpired out opts now s) := by
  refine List.foldlRecOn _ _ h fun s h i hi => ?_
  split
  · exact h.reaplanConnClose (List.mem_range.mp hi)
  · exact h

theorem Guarded.checkExpired :
    Guarded opts (checkExpired out opts s) := by
  have hclock : Guarded opts { s with world := (out.clock s.world).2 } := h.of_eq rfl rfl rfl
  unfold Reaplan.checkExpired
  split
  · dsimp only
    split
    · exact (hclock.closeExpired _).of_eq rfl rfl rfl
    · exact hclock
  · exact h

/-! The timer, and the events of a new connection -/

theorem evSet_guarded (index : ℕ) (ev : Kevent) :
    Ends (· ≠ .aborted) (Guarded opts) (evSet index ev s) := by
  unfold evSet
  split
  · exact h.of_eq rfl rfl rfl
  · exact Fault.noConfusion

theorem reaplanUpdateTimer_guarded :
    Ends (· ≠ .aborted) (fun result => Guarded opts result.2)
      (reaplanUpdateTimer out opts s) := by
  have hchecked : Guarded opts (checkExpired out opts s) := h.checkExpired
  have hstart : ∀ ev, Ends (· ≠ .aborted) (fun result : Bool × State World =>
      Guarded opts result.2) (do
        let s ← evSet 0 ev (checkExpired out opts s)
        return (true, { s with ctx := { s.ctx with timerActive := true } })) := by
    intro ev
    exact Ends.bind (evSet_guarded hchecked 0 ev) fun after hafter => hafter.of_eq rfl rfl rfl
  unfold reaplanUpdateTimer
  split
  · exact h
  · dsimp only
    split
    · exact hstart _
    · split
      · exact hchecked
      · exact hstart _

theorem addEvent_guarded (requested : Bool) (index : ℕ)
    (ev : Kevent) :
    Ends (· ≠ .aborted) (fun result => Guarded opts result.2) (addEvent requested index ev s) := by
  unfold addEvent
  split
  · have hset := evSet_guarded h index ev
    cases hresult : evSet index ev s with
    | ok after => exact hset.of_ok hresult
    | error fault => exact hset.of_error hresult
  · exact h

theorem setEvents_guarded (hssl : (s.ctx.conns i).ssl → opts.sslCtx) (hfd : 0 ≤ (s.ctx.conns i).fd)
    (index : ℕ) :
    Ends (· ≠ .aborted) (fun result => Guarded opts result.2) (setEvents index i s) := by
  refine Ends.bind (addEvent_guarded (h.setConn fun _ htls => ?_) _ _ _) fun result hresult =>
    addEvent_guarded hresult _ _ _
  split at htls
  · rename_i hset
    exact ⟨hssl hset, hset⟩
  · exact h.secured i hfd htls

end

theorem Guarded.connectSlot (laws : out.Registers opts) {id : ℕ}
    {ids : IdsetCtx} {connected : Connected} (h : Guarded opts s)
    (huse : idsetUseNext s.ctx.ids = (some id, ids))
    (hconnect : connectSlot out id (setIds ids s) = (connected, s')) :
    id < opts.maxClients.toNat ∧ Guarded opts s' ∧ (s'.ctx.conns id).fd = connected.fd ∧
      ((s'.ctx.conns id).ssl → opts.sslCtx) := by
  have hspec := idsetUseNext_spec h.wellFormed
  simp only [huse] at hspec
  obtain ⟨hwf, hlast, hle, -⟩ := hspec
  have hids : Guarded opts (setIds ids s) :=
    ⟨hwf, (congrArg (· + 1) hlast).trans h.lastId, h.secured, h.closed⟩
  have hlt : id < opts.maxClients.toNat := by
    rw [← h.lastId]
    exact Nat.lt_succ_of_le hle
  have hzeroed : Guarded opts
      { Reaplan.setConn id zeroConn (setIds ids s) with world := (out.onConnect id s.world).2 } :=
    (hids.setConn fun _ htls => by cases htls).of_eq rfl rfl rfl
  cases hconnect
  refine ⟨hlt, ?_, ?_, fun hssl => ?_⟩
  · exact hzeroed.setConn fun _ (htls : false = true) => by cases htls
  · simp [Reaplan.setConn, connectedConn]
  · apply @Outside.Registers.ssl _ _ _ laws id s.world
    simpa [Reaplan.setConn, setIds, connectedConn] using hssl

theorem Guarded.countConnected (h : Guarded opts s) (id : ℕ) :
    Guarded opts (countConnected id s) := by
  refine ⟨h.wellFormed, h.lastId, h.secured, fun i hi => h.closed i ?_⟩
  cases List.mem_append.mp hi with
  | inl hold => exact hold
  | inr hnew => cases List.mem_singleton.mp hnew

theorem connected_guarded (h : Guarded opts s) {id : ℕ}
    (hssl : (s.ctx.conns id).ssl → opts.sslCtx) (hfd : 0 ≤ (s.ctx.conns id).fd) (index : ℕ)
    (expires : ℤ) :
    Ends (· ≠ .aborted) (fun result => Guarded opts result.2)
      (setEvents index id (setExpires id expires (countConnected id s))) := by
  have hcount := h.countConnected id
  have hexpires : Guarded opts (setExpires id expires (countConnected id s)) :=
    hcount.setConn (hcount.secured id)
  apply setEvents_guarded hexpires
  · simpa [setExpires, Reaplan.countConnected, act, Reaplan.setConn] using hssl
  · simpa [setExpires, Reaplan.countConnected, act, Reaplan.setConn] using hfd

/-- The induction is on the rounds. -/
theorem setupConnections_guarded (laws : out.Registers opts) (base «end» : ℕ) (expires : ℤ)
    (rounds : ℕ) : ∀ {i : ℕ} {result : ℤ} {s : State World}, Guarded opts s →
      Ends (· ≠ .aborted) (fun after => Guarded opts after.2.2)
        (setupConnections out opts base «end» expires rounds i result s) := by
  induction rounds with
  | zero =>
    intro i result s h
    unfold setupConnections
    split
    · exact Fault.noConfusion
    · exact h
  | succ rounds ih =>
    intro i result s h
    rw [setupConnections]
    split
    · split
      · rename_i ids hnone
        have hspec := idsetUseNext_spec h.wellFormed
        simp only [hnone] at hspec
        exact ⟨hspec.1, (congrArg (· + 1) hspec.2.1).trans h.lastId, h.secured, h.closed⟩
      · rename_i id ids hsome
        cases hconnect : connectSlot out id (setIds ids s) with
        | mk connected s' =>
          obtain ⟨hlt, hslot, hfd, hssl⟩ := h.connectSlot laws hsome hconnect
          dsimp only
          split
          · have hle : id ≤ s'.ctx.ids.lastId := Nat.lt_succ_iff.mp (hlt.trans_eq hslot.lastId.symm)
            obtain ⟨hwf, hlast, -⟩ := idsetClear_spec hslot.wellFormed hle
            exact ⟨hwf, (congrArg (· + 1) hlast).trans hslot.lastId, hslot.secured, hslot.closed⟩
          · rename_i hconnected
            rw [not_or, not_lt, ← hfd] at hconnected
            split
            · exact ih ((hslot.countConnected id).reaplanConnClose hlt)
            · have hevents := connected_guarded hslot hssl hconnected.2 (base + i) expires
              split
              · rename_i fault hresult
                exact hevents.of_error hresult
              · rename_i next s'' hresult
                exact ih (hevents.of_ok hresult)
    · exact h

/-- The induction is on the rounds. -/
theorem setupCloses_lt (laws : out.Registers opts) (base «end» : ℕ) (expires : ℤ) (rounds : ℕ) :
    ∀ {i : ℕ} {s : State World}, Guarded opts s →
      ∀ id ∈ setupCloses out opts base «end» expires rounds i s, id < opts.maxClients.toNat := by
  induction rounds with
  | zero => exact fun _ => List.forall_mem_nil _
  | succ rounds ih =>
    intro i s h
    rw [setupCloses]
    split
    · split
      · exact List.forall_mem_nil _
      · rename_i id ids hsome
        cases hconnect : connectSlot out id (setIds ids s) with
        | mk connected s' =>
          obtain ⟨hlt, hslot, hfd, hssl⟩ := h.connectSlot laws hsome hconnect
          dsimp only
          split
          · exact List.forall_mem_nil _
          · rename_i hconnected
            rw [not_or, not_lt, ← hfd] at hconnected
            split
            · rw [List.forall_mem_cons]
              exact ⟨hlt, ih ((hslot.countConnected id).reaplanConnClose hlt)⟩
            · have hevents := connected_guarded hslot hssl hconnected.2 (base + i) expires
              split
              · exact List.forall_mem_nil _
              · rename_i next s'' hresult
                exact ih (hevents.of_ok hresult)
    · exact List.forall_mem_nil _

theorem Secured.of_eq (h : Secured opts s)
    (hconns : s'.ctx.conns = s.ctx.conns) : Secured opts s' := by
  unfold Secured
  rw [hconns]
  exact h

theorem enqueueCloseConn_kept (i : ℕ) (s : State World) :
    Ends (· = .overrun) (fun after => after.ctx.conns = s.ctx.conns ∧ after.world = s.world)
      (enqueueCloseConn opts i s) := by
  unfold enqueueCloseConn
  split
  · exact ⟨rfl, rfl⟩
  · split
    · exact ⟨rfl, rfl⟩
    · split
      · exact ⟨rfl, rfl⟩
      · exact rfl

theorem enqueueCloseConn_secured (h : Secured opts s) (i : ℕ) (p : Prop) :
    Ends (fun fault => fault = .aborted → p) (Secured opts) (enqueueCloseConn opts i s) := by
  have hkept := @enqueueCloseConn_kept _ opts i s
  cases hresult : enqueueCloseConn opts i s with
  | ok after => exact h.of_eq (hkept.of_ok hresult).1
  | error fault =>
    rw [hkept.of_error hresult]
    exact Fault.noConfusion

theorem afterCallback_secured (h : Secured opts s) (i : ℕ) (reply : Reply)
    (p : Prop) :
    Ends (fun fault => fault = .aborted → p) (Secured opts) (afterCallback opts i reply s) := by
  unfold afterCallback
  split
  · exact enqueueCloseConn_secured h i p
  · exact h

theorem handleTlsHandshake_secured {s : State World} (h : Secured opts s) {i : ℕ}
    (hconn : opts.sslCtx ∧ (s.ctx.conns i).ssl) :
    Ends (fun fault => fault = .aborted → (s.ctx.conns i).rflags.readable ∧
        ¬ (s.ctx.conns i).rflags.writableOneshot ∧ (out.sslConnect i s.world).1 = .done)
      (Secured opts) (handleTlsHandshake out opts i s) := by
  unfold handleTlsHandshake
  dsimp only
  rw [if_neg (by simp [hconn])]
  have hworld : Secured opts { s with world := (out.sslConnect i s.world).2 } := h.of_eq rfl
  cases hdone : (out.sslConnect i s.world).1 with
  | wantWrite => exact hworld
  | wantRead => exact hworld
  | failure => exact enqueueCloseConn_secured hworld i _
  | shutdown => exact enqueueCloseConn_secured hworld i _
  | done =>
    dsimp only
    split
    · rename_i hreading
      exact fun _ => ⟨hreading.1, hreading.2, rfl⟩
    · exact hworld.setConn nofun

theorem enqueueOnEof_kept (ev : Kevent) (s : State World) :
    Ends (· = .overrun) (fun after => after.ctx.conns = s.ctx.conns ∧ after.world = s.world)
      (enqueueOnEof opts ev s) := by
  unfold enqueueOnEof
  split
  · exact enqueueCloseConn_kept ev.udata s
  · exact ⟨rfl, rfl⟩

theorem handleEvent_secured {s : State World} (h : Secured opts s) {ev : Kevent}
    (hopen : ev.filter ≠ .timer → 0 ≤ (s.ctx.conns ev.udata).fd) :
    Ends (fun fault => fault = .aborted → EndsForReading out s ev) (Secured opts)
      (handleEvent out opts s ev) := by
  unfold handleEvent
  dsimp only
  split
  · exact enqueueCloseConn_secured h ev.udata _
  · rename_i herror
    have hhandshake : ∀ after : State World, after.ctx.conns = s.ctx.conns → after.world = s.world →
        InHandshake s ev → ev.filter ≠ .timer →
        Ends (fun fault => fault = .aborted → EndsForReading out s ev) (Secured opts)
          (handleTlsHandshake out opts ev.udata after) := by
      intro after hconns hworld hin hfilter
      have hconn : opts.sslCtx ∧ (after.ctx.conns ev.udata).ssl := by
        rw [hconns]
        exact h ev.udata (hopen hfilter) hin.tlsHandshake
      have hends := @handleTlsHandshake_secured _ out opts after (h.of_eq hconns) ev.udata hconn
      cases hresult : handleTlsHandshake out opts ev.udata after with
      | ok next => exact hends.of_ok hresult
      | error fault =>
        intro haborted
        obtain ⟨hread, hwrite, hdone⟩ := hends.of_error hresult haborted
        rw [hconns] at hread hwrite
        rw [hworld] at hdone
        exact ⟨hin, hread, hwrite, hdone⟩
    cases hfilter : ev.filter with
    | read =>
      have hnotTimer : ev.filter ≠ .timer := by
        rw [hfilter]
        exact Filter.noConfusion
      have hnoError : ¬ ev.evError := fun h => herror ⟨h, .inl hfilter⟩
      have hkept := @enqueueOnEof_kept _ opts ev s
      cases hresult : enqueueOnEof opts ev s with
      | error fault =>
        intro haborted
        exact absurd (haborted.symm.trans (hkept.of_error hresult)) Fault.noConfusion
      | ok after =>
        obtain ⟨hconns, hworld⟩ := hkept.of_ok hresult
        dsimp only [bind, Except.bind]
        split
        · rename_i htls
          exact hhandshake after hconns hworld ⟨hnoError, .inl hfilter, htls⟩ hnotTimer
        · split
          · have hreplied : Secured opts
                { after with world := (out.onReadable ev.udata after.world).2 } :=
              h.of_eq hconns
            exact afterCallback_secured hreplied ev.udata _ _
          · exact h.of_eq hconns
    | write =>
      have hnotTimer : ev.filter ≠ .timer := by
        rw [hfilter]
        exact Filter.noConfusion
      have hnoError : ¬ ev.evError := fun h => herror ⟨h, .inr hfilter⟩
      dsimp only
      split
      · exact enqueueCloseConn_secured h ev.udata _
      · rename_i heof
        split
        · rename_i htls
          exact hhandshake s rfl rfl ⟨hnoError, .inr ⟨hfilter, heof⟩, htls⟩ hnotTimer
        · have hreplied : Secured opts
              { s with world := (out.onWritable ev.udata s.world).2 } :=
            h.of_eq rfl
          exact afterCallback_secured hreplied ev.udata _ _
    | timer =>
      dsimp only
      split
      · exact h.of_eq rfl
      · exact h

theorem handleEvent_aborts (h : Secured opts s)
    (hroom : s.ctx.closeconns.length ≤ opts.connectsPerTick.toNat) {ev : Kevent}
    (hends : EndsForReading out s ev) (hopen : 0 ≤ (s.ctx.conns ev.udata).fd) :
    handleEvent out opts s ev = .error .aborted := by
  have hconn := h ev.udata hopen hends.inHandshake.tlsHandshake
  have hhandshake : ∀ after : State World, after.ctx.conns = s.ctx.conns → after.world = s.world →
      handleTlsHandshake out opts ev.udata after = .error .aborted := by
    intro after hconns hworld
    unfold handleTlsHandshake
    simp [hconns, hworld, hconn, hends.done, hends.readable, hends.notWritable]
  unfold handleEvent
  rw [if_neg fun herror => hends.inHandshake.noError herror.1]
  cases hends.inHandshake.filter with
  | inl hread =>
    rw [hread]
    have hkept := @enqueueOnEof_kept _ opts ev s
    cases hresult : enqueueOnEof opts ev s with
    | error fault =>
      unfold enqueueOnEof enqueueCloseConn at hresult
      split at hresult
      · split at hresult
        · cases hresult
        · rename_i hfull
          split at hresult
          · cases hresult
          · rw [if_pos (lt_of_le_of_ne hroom hfull)] at hresult
            cases hresult
      · cases hresult
    | ok after =>
      obtain ⟨hconns, hworld⟩ := hkept.of_ok hresult
      dsimp only [bind, Except.bind]
      rw [if_pos hends.inHandshake.tlsHandshake]
      exact hhandshake after hconns hworld
  | inr hwrite =>
    rw [hwrite.1]
    rw [if_neg hwrite.2, if_pos hends.inHandshake.tlsHandshake]
    exact hhandshake s rfl rfl

structure InBatch (opts : ReaplanOpts) (s s' : State World) : Prop where
  handling : Handling opts s s'
  secured : Secured opts s'

theorem InBatch.guarded (h : InBatch opts s s') (hs : Guarded opts s) :
    Guarded opts s' := by
  refine ⟨?_, ?_, h.secured, ?_⟩
  · rw [h.handling.same.ids]
    exact hs.wellFormed
  · rw [h.handling.same.ids]
    exact hs.lastId
  · rw [h.handling.same.log]
    exact hs.closed

theorem inBatch_received (h : Secured opts s) (evs : List Kevent)
    (world : World) : InBatch opts (received evs world s) (received evs world s) :=
  ⟨⟨.refl _, List.nodup_nil, Nat.zero_le _, List.forall_mem_nil _⟩, h.of_eq rfl⟩

def Delivered (opts : ReaplanOpts) (s : State World) (evs : List Kevent) : Prop :=
  ∀ ev ∈ evs, ev.filter ≠ .timer → ev.udata ∈ openSlots opts s

theorem inBatch_event {s s' : State World} {ev : Kevent} (h : InBatch opts s s')
    (hopen : ev.filter ≠ .timer → ev.udata ∈ openSlots opts s) :
    Ends (fun fault => fault = .aborted → EndsForReading out s' ev) (InBatch opts s)
      (handleEvent out opts s' ev) := by
  have hsecured := @handleEvent_secured _ out opts s' h.secured ev fun hfilter => by
    rw [h.handling.same.fd]
    exact (mem_openSlots.mp (hopen hfilter)).2
  cases hresult : handleEvent out opts s' ev with
  | ok after =>
    exact ⟨(handleEvent_ends h.handling hopen).of_ok hresult, hsecured.of_ok hresult⟩
  | error fault => exact hsecured.of_error hresult

theorem inBatch_events {s a : State World} {evs : List Kevent} (hopen : Delivered opts s evs)
    (ha : InBatch opts s a) :
    Ends (fun _ => True) (InBatch opts s) (evs.foldlM (handleEvent out opts) a) := by
  refine Ends.foldlM (fun b ev hev hb => ?_) ha
  have hevent := @inBatch_event _ out opts s b ev hb (hopen ev hev)
  cases hresult : handleEvent out opts b ev with
  | ok after => exact hevent.of_ok hresult
  | error fault => trivial

theorem events_aborted_iff {a : State World} {evs : List Kevent} (hopen : Delivered opts s evs)
    (ha : InBatch opts s a) :
    evs.foldlM (handleEvent out opts) a = .error .aborted ↔
      ∃ before ev later b, evs = before ++ ev :: later ∧
        before.foldlM (handleEvent out opts) a = .ok b ∧ EndsForReading out b ev := by
  rw [foldlM_eq_error_iff]
  refine exists_congr fun before => exists_congr fun ev => exists_congr fun later =>
    exists_congr fun b => and_congr_right fun hevs => and_congr_right fun hbefore => ?_
  subst hevs
  have hb : InBatch opts s b :=
    (inBatch_events (fun ev hev => hopen ev (List.mem_append_left _ hev)) ha).of_ok hbefore
  have hev : ev.filter ≠ .timer → ev.udata ∈ openSlots opts s :=
    hopen ev (List.mem_append_right before List.mem_cons_self)
  constructor
  · exact fun haborted => (inBatch_event hb hev).of_error haborted rfl
  · intro hends
    have hfilter : ev.filter ≠ .timer := by
      intro htimer
      have hin := hends.inHandshake.filter
      rw [htimer] at hin
      cases hin with
      | inl hread => cases hread
      | inr hwrite => cases hwrite.1
    apply handleEvent_aborts hb.secured hb.handling.length_le hends
    rw [hb.handling.same.fd]
    exact (mem_openSlots.mp (hev hfilter)).2

theorem runStart_guarded (pending : Bool) {s : State World} (h : Guarded opts s) :
    Ends (· ≠ .aborted) (fun r => Guarded opts r.state) (runStart out opts pending s) := by
  have hreset : Guarded opts
      { s with ctx := { s.ctx with timerActive := false, connectDone := false } } :=
    h.of_eq rfl rfl rfl
  exact Ends.bind (reaplanUpdateTimer_guarded hreset) fun result hresult => hresult

theorem nextExpires_guarded (expires : ℤ) {s : State World} (h : Guarded opts s) :
    Guarded opts (nextExpires out opts expires s).2 := by
  unfold nextExpires
  split
  · exact h.of_eq rfl rfl rfl
  · exact h

variable {r : Run World}

section

variable (laws : out.Registers opts)

include laws

theorem runHead_guarded (rounds : ℕ)
    (h : Guarded opts r.state) :
    Ends (· ≠ .aborted) (fun r => Guarded opts r.state) (runHead out opts rounds r) := by
  unfold runHead
  dsimp only
  split
  · exact h
  · split
    · have hexpires := @nextExpires_guarded _ out opts r.expires r.state h
      refine Ends.bind (setupConnections_guarded laws _ _ _ rounds hexpires) ?_
      rintro ⟨ret, newNevs, s⟩ hsetup
      dsimp only
      split
      · exact hsetup
      · exact hsetup.of_eq rfl rfl rfl
    · exact h

theorem connectingCloses_lt (rounds : ℕ)
    (h : Guarded opts r.state) :
    ∀ i ∈ connectingCloses out opts rounds r, i < opts.maxClients.toNat :=
  setupCloses_lt laws _ _ _ rounds (nextExpires_guarded r.expires h)

theorem runKevent_guarded {wait : Bool}
    (hpoint : r.point = .kevent wait) (h : Guarded opts r.state) :
    Ends (fun fault => fault = .aborted → ∃ ev s, Handles out opts r ev s ∧ EndsForReading out s ev)
      (fun r => Guarded opts r.state) (runKevent out opts wait r) := by
  unfold runKevent
  dsimp only
  split
  · exact h.of_eq rfl rfl rfl
  · exact h.of_eq rfl rfl rfl
  · rename_i evs world hkevent
    have hreceived : Guarded opts (received evs world r.state) := h.of_eq rfl rfl rfl
    have hopen : Delivered opts (received evs world r.state) evs := fun ev hev hfilter =>
      mem_openSlots.mpr (laws.events_open hkevent ev hev hfilter)
    have hstart := inBatch_received h.secured evs world
    have hbatch := @inBatch_events _ out opts _ _ _ hopen hstart
    unfold reaplanHandleEvents
    cases hfold : evs.foldlM (handleEvent out opts) (received evs world r.state) with
    | error fault =>
      rw [received] at hfold
      rw [hfold]
      rintro rfl
      obtain ⟨before, ev, later, s, hevs, hbefore, hends⟩ :=
        (events_aborted_iff hopen hstart).mp hfold
      exact ⟨ev, s, ⟨wait, evs, world, before, later, hpoint, hkevent, hevs, hbefore⟩, hends⟩
    | ok s =>
      have hs := hbatch.of_ok hfold
      have hclosed : Guarded opts (closeConns out opts s) := by
        refine (hs.guarded hreceived).closeConns fun i hi => ?_
        exact (mem_openSlots.mp (hs.handling.isOpen i hi)).1
      have htimer := @reaplanUpdateTimer_guarded _ out opts _ hclosed
      rw [received] at hfold
      rw [hfold]
      dsimp only [bind, Except.bind, pure, Except.pure]
      cases hresult : reaplanUpdateTimer out opts (closeConns out opts s) with
      | error fault => exact fun haborted => absurd haborted (htimer.of_error hresult)
      | ok result => exact htimer.of_ok hresult

theorem runKevent_aborts (h : Guarded opts r.state)
    {ev : Kevent} (hhandles : Handles out opts r ev s)
    (hends : EndsForReading out s ev) (rounds : ℕ) : step out opts rounds r = .error .aborted := by
  obtain ⟨wait, evs, world, before, later, hpoint, hkevent, hevs, hbefore⟩ := hhandles
  have hopen : Delivered opts (received evs world r.state) evs := fun ev hev hfilter =>
    mem_openSlots.mpr (laws.events_open hkevent ev hev hfilter)
  have hfold : evs.foldlM (handleEvent out opts) (received evs world r.state) = .error .aborted :=
    (events_aborted_iff hopen (inBatch_received h.secured evs world)).mpr
      ⟨before, ev, later, s, hevs, hbefore, hends⟩
  rw [received] at hfold
  unfold step
  rw [hpoint]
  dsimp only
  unfold runKevent
  rw [hkevent]
  dsimp only
  unfold reaplanHandleEvents
  rw [hfold]
  rfl

theorem step_guarded (rounds : ℕ)
    (h : Guarded opts r.state) :
    Ends (fun fault => fault = .aborted → ∃ ev s, Handles out opts r ev s ∧ EndsForReading out s ev)
      (fun r => Guarded opts r.state) (step out opts rounds r) := by
  unfold step
  cases hpoint : r.point with
  | head =>
    have hhead := runHead_guarded laws rounds h
    cases hresult : runHead out opts rounds r with
    | error fault => exact fun haborted => absurd haborted (hhead.of_error hresult)
    | ok after => exact hhead.of_ok hresult
  | kevent wait => exact runKevent_guarded laws hpoint h
  | returned =>
    have hstart := @runStart_guarded _ out opts r.pending r.state h
    cases hresult : runStart out opts r.pending r.state with
    | error fault => exact fun haborted => absurd haborted (hstart.of_error hresult)
    | ok after => exact hstart.of_ok hresult

end

variable {ctx : ReaplanCtx}

theorem reaplanInit_conns (h : reaplanInit opts = some ctx) :
    ctx.conns = fun _ => zeroConn := by
  unfold reaplanInit at h
  split at h
  · cases h
  · obtain ⟨ids, -, hctx⟩ := Option.bind_eq_some_iff.mp h
    cases hctx
    rfl

theorem reaplanInit_guarded (h : reaplanInit opts = some ctx) (world : World) :
    opts.maxClients.toNat ≤ intMax ∧ Guarded opts ⟨ctx, [], world⟩ := by
  obtain ⟨haccepted, haccounted⟩ := reaplanInit_spec h world
  refine ⟨haccepted.max_le, haccounted.wellFormed, haccounted.lastId, ?_, nofun⟩
  intro i _ htls
  rw [reaplanInit_conns h] at htls
  cases htls

theorem Runs.guarded (hinit : reaplanInit opts = some ctx)
    (laws : out.Registers opts) {world : World} (h : Runs out opts ctx world r) :
    Guarded opts r.state := by
  obtain ⟨-, hfresh⟩ := reaplanInit_guarded hinit world
  have hinitial : ∀ r, r = Run.fresh ctx world → Guarded opts r.state := by
    rintro r rfl
    exact hfresh
  exact @Reachable.invariant _ _ _ _ _ (fun r : Run World => Guarded opts r.state) hinitial
    (fun _ rounds _ hbefore _ hstep => (step_guarded laws rounds hbefore).of_ok hstep) r h

/-- The assertions hold in every run exactly when no handshake succeeds on a
connection that was registered for reading alone. -/
theorem assertions_hold_iff {ctx : ReaplanCtx} (hinit : reaplanInit opts = some ctx)
    (laws : out.Registers opts) (world : World) :
    (∀ r, Runs out opts ctx world r → AssertionsHold out opts r) ↔
      ∀ r, Runs out opts ctx world r → ∀ ev s, Handles out opts r ev s →
        ¬ EndsForReading out s ev := by
  have hmax := (reaplanInit_guarded hinit world).1
  constructor
  · intro h r hrun ev s hhandles hends
    exact (h r hrun).handshakes 0
      (runKevent_aborts laws (hrun.guarded hinit laws) hhandles hends 0)
  · intro h r hrun
    have hguarded := hrun.guarded hinit laws
    refine ⟨fun i hi => ?_, fun rounds i hi => ?_, fun rounds haborted => ?_⟩
    · exact reaplanConnId_nonneg hmax (hguarded.closed i hi)
    · exact reaplanConnId_nonneg hmax (connectingCloses_lt laws rounds hguarded i hi)
    · obtain ⟨ev, s, hhandles, hends⟩ := (step_guarded laws rounds hguarded).of_error haborted rfl
      exact h r hrun ev s hhandles hends

/-- A server with TLS. One connection is registered, for reading alone, and gets
one event. -/
def tlsOutside (handshake : Handshake) : Outside ℕ where
  onConnect _ world :=
    if world = 0 then (⟨reaplancOk, 5, true, false, true⟩, 1)
    else (⟨reaplancDone, -1, false, false, false⟩, world)
  onReadable _ world := (⟨0, false⟩, world)
  onWritable _ world := (⟨0, false⟩, world)
  onDone _ world := world
  sslConnect _ world := (handshake, world)
  clock world := (some 100, world)
  kevent ctx _ world :=
    if 0 ≤ (ctx.conns 0).fd then
      (.events [⟨(ctx.conns 0).fd, .write, false, false, false, .none, 1, 0⟩], world)
    else (.failure, world)

def tlsOpts : ReaplanOpts := ⟨true, true, 10, 2, 1, 0, true⟩

theorem tlsOutside_registers (handshake : Handshake) :
    (tlsOutside handshake).Registers tlsOpts := by
  refine ⟨fun i world => ?_, ?_⟩
  · by_cases hworld : world = 0
    · refine ⟨[⟨5, 1, true, 1⟩], reaplancOk, ?_⟩
      simp only [tlsOutside, if_pos hworld]
      rfl
    · refine ⟨[], reaplancDone, ?_⟩
      simp only [tlsOutside, if_neg hworld]
      rfl
  · intro ctx wait world evs world' h ev hev hfilter
    simp only [tlsOutside] at h
    split at h
    · rename_i hopen
      cases h
      rw [List.mem_singleton] at hev
      subst hev
      exact ⟨Nat.two_pos, hopen⟩
    · cases h

/-- A connection for reading alone whose handshake succeeds. -/
theorem handshake_for_reading_aborts :
    reaplanInit tlsOpts = some sampleCtx ∧ (tlsOutside .done).Registers tlsOpts ∧
      ∃ r, Runs (tlsOutside .done) tlsOpts sampleCtx 0 r ∧
        step (tlsOutside .done) tlsOpts 0 r = .error .aborted := by
  have hstart : Runs (tlsOutside .done) tlsOpts sampleCtx 0 _ := Runs.next 0 (.initial rfl) rfl
  have hhead : Runs (tlsOutside .done) tlsOpts sampleCtx 0 _ := Runs.next 3 hstart rfl
  exact ⟨rfl, tlsOutside_registers .done, _, hhead, rfl⟩

/-- The same connection when the handshake fails. -/
theorem failed_handshake_holds :
    ∃ r, Runs (tlsOutside .failure) tlsOpts sampleCtx 0 r ∧
      r.state.log = [(.connected, 0), (.closed, 0), (.done, 0)] ∧
      AssertionsHold (tlsOutside .failure) tlsOpts r := by
  have hstart : Runs (tlsOutside .failure) tlsOpts sampleCtx 0 _ := Runs.next 0 (.initial rfl) rfl
  have hhead : Runs (tlsOutside .failure) tlsOpts sampleCtx 0 _ := Runs.next 3 hstart rfl
  have hkevent : Runs (tlsOutside .failure) tlsOpts sampleCtx 0 _ := Runs.next 0 hhead rfl
  have hall := (assertions_hold_iff rfl (tlsOutside_registers .failure) 0).mpr
    fun r _ ev s _ hends => by cases hends.done
  exact ⟨_, hkevent, rfl, hall _ hkevent⟩

end Yans.Net.Reaplan
