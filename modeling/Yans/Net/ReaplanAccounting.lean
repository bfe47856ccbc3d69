import Mathlib.Data.Finset.Card
import Yans.Library.Postconditions
import Yans.Library.Runs
import Yans.Net.Reaplan

/-! The slots of the connections: the count of active connections, the ids in
use and the open descriptors agree at every turn of `reaplan_run`, each slot is
connected, closed and done in turns, and no array is overrun. -/
namespace Yans.Net.Reaplan

open Util.Idset Library.Postconditions Library.Runs

variable {World : Type} {out : Outside World} {opts : ReaplanOpts}

/-- What a run relies on: a descriptor is there only after `REAPLANC_OK`, and
`kevent` fills in what there is room for, about open descriptors. -/
structure Outside.Lawful (out : Outside World) (opts : ReaplanOpts) : Prop where
  connected : ∀ i world, 0 ≤ (out.onConnect i world).1.fd →
    (out.onConnect i world).1.code = reaplancOk
  events_length : ∀ {ctx wait world evs world'},
    out.kevent ctx wait world = (.events evs, world') → evs.length ≤ opts.connectsPerTick.toNat
  events_open : ∀ {ctx wait world evs world'},
    out.kevent ctx wait world = (.events evs, world') → ∀ ev ∈ evs, ev.filter ≠ .timer →
      ev.udata < opts.maxClients.toNat ∧ 0 ≤ (ctx.conns ev.udata).fd

def openSlots (opts : ReaplanOpts) (s : State World) : Finset ℕ :=
  (Finset.range opts.maxClients.toNat).filter fun i => 0 ≤ (s.ctx.conns i).fd

def idsInUse (s : State World) : Finset ℕ :=
  (Finset.range (s.ctx.ids.lastId + 1)).filter (InUse s.ctx.ids)

def history (i : ℕ) (log : List (Action × ℕ)) : List Action :=
  (log.filter (·.2 = i)).map (·.1)

def closing (opts : ReaplanOpts) : List Action :=
  if opts.onDone then [.closed, .done] else [.closed]

/-- Each use of the slot is over before the next one; the last one is not as
long as the descriptor is open. -/
def InTurns (opts : ReaplanOpts) (isOpen : Prop) [Decidable isOpen] (actions : List Action) :
    Prop :=
  ∃ n : ℕ, actions =
    (List.replicate n (.connected :: closing opts)).flatten ++ if isOpen then [.connected] else []

structure Accounted (opts : ReaplanOpts) (s : State World) : Prop where
  wellFormed : WellFormed s.ctx.ids
  lastId : s.ctx.ids.lastId + 1 = opts.maxClients.toNat
  inUse : ∀ i, InUse s.ctx.ids i ↔ i ∈ openSlots opts s
  active : s.ctx.activeConns = (openSlots opts s).card
  evs_length : s.ctx.evs.length = 2 * opts.connectsPerTick.toNat + 1
  inTurns : ∀ i, InTurns opts (i ∈ openSlots opts s) (history i s.log)

variable {s : State World} {i : ℕ}

theorem mem_openSlots :
    i ∈ openSlots opts s ↔ i < opts.maxClients.toNat ∧ 0 ≤ (s.ctx.conns i).fd := by
  rw [openSlots, Finset.mem_filter, Finset.mem_range]

theorem openSlots_eq_empty (h : ∀ i, (s.ctx.conns i).fd = -1) :
    openSlots opts s = ∅ := by
  apply Finset.filter_eq_empty_iff.mpr
  intro i _
  rw [h i]
  decide

/-! What `reaplan_init` accepts -/

structure Accepted (opts : ReaplanOpts) : Prop where
  connects_pos : 0 < opts.connectsPerTick.toNat
  connects_le : opts.connectsPerTick.toNat ≤ opts.maxClients.toNat
  max_le : opts.maxClients.toNat ≤ intMax

theorem Accepted.toNat_double (h : Accepted opts) :
    (opts.connectsPerTick * 2).toNat = 2 * opts.connectsPerTick.toNat := by
  have hmax : opts.connectsPerTick.toNat ≤ 2 ^ 31 - 1 := h.connects_le.trans h.max_le
  have htwo : (2 : UInt32).toNat = 2 := rfl
  rw [UInt32.toNat_mul, htwo]
  omega

variable {ctx : ReaplanCtx}

theorem reaplanInit_spec (h : reaplanInit opts = some ctx) (world : World) :
    Accepted opts ∧ Accounted opts ⟨ctx, [], world⟩ := by
  unfold reaplanInit at h
  split at h
  · contradiction
  · rename_i hvalid
    obtain ⟨ids, hids, hctx⟩ := Option.bind_eq_some_iff.mp h
    have hfd : ∀ i, (ctx.conns i).fd = -1 := by
      intro i
      rw [← Option.some.inj hctx]
      rfl
    have hclosed : openSlots opts ⟨ctx, [], world⟩ = ∅ := openSlots_eq_empty hfd
    cases hctx
    obtain ⟨hwf, hlast, hmax, hunused⟩ := idsetNew_spec hids
    have haccepted : Accepted opts := by
      rw [not_or, not_or, not_or, gt_iff_lt, UInt32.lt_iff_toNat_lt, not_lt] at hvalid
      have hpos : opts.connectsPerTick.toNat ≠ 0 := fun hzero =>
        hvalid.2.2.1 (UInt32.toNat_inj.mp hzero)
      exact ⟨Nat.pos_of_ne_zero hpos, hvalid.2.2.2, hmax⟩
    refine ⟨haccepted, hwf, hlast, ?_, ?_, ?_, ?_⟩
    · intro i
      rw [hclosed]
      exact iff_of_false (hunused i) (Finset.notMem_empty i)
    · rw [hclosed]
      rfl
    · have hsmall : intMax < 2 ^ 31 := by decide
      have hdouble := haccepted.toNat_double
      have hle := haccepted.connects_le
      have hone : (1 : UInt32).toNat = 1 := rfl
      rw [List.length_replicate, UInt32.toNat_add, hdouble, hone]
      omega
    · intro i
      refine ⟨0, ?_⟩
      simp only [hclosed, Finset.notMem_empty, if_false]
      rfl

/-! Steps that leave the accounts alone -/

structure SameAccounts (s s' : State World) : Prop where
  ids : s'.ctx.ids = s.ctx.ids
  fd : ∀ i, (s'.ctx.conns i).fd = (s.ctx.conns i).fd
  activeConns : s'.ctx.activeConns = s.ctx.activeConns
  evs_length : s'.ctx.evs.length = s.ctx.evs.length
  log : s'.log = s.log

theorem SameAccounts.refl (s : State World) : SameAccounts s s :=
  ⟨rfl, fun _ => rfl, rfl, rfl, rfl⟩

variable {s' : State World}

theorem SameAccounts.trans {s'' : State World} (h : SameAccounts s s')
    (h' : SameAccounts s' s'') : SameAccounts s s'' :=
  ⟨h'.ids.trans h.ids, fun i => (h'.fd i).trans (h.fd i), h'.activeConns.trans h.activeConns,
    h'.evs_length.trans h.evs_length, h'.log.trans h.log⟩

theorem SameAccounts.setConn (h : SameAccounts s s')
    {conn : ReaplanConn} (hfd : conn.fd = (s'.ctx.conns i).fd) :
    SameAccounts s (setConn i conn s') := by
  refine ⟨h.ids, fun j => ?_, h.activeConns, h.evs_length, h.log⟩
  rw [← h.fd j]
  by_cases hj : j = i
  · subst hj
    simp [Reaplan.setConn, hfd]
  · simp [Reaplan.setConn, hj]

theorem SameAccounts.openSlots (h : SameAccounts s s') :
    openSlots opts s' = openSlots opts s := by
  ext i
  rw [mem_openSlots, mem_openSlots, h.fd i]

theorem Accounted.of_same (h : Accounted opts s) (hsame : SameAccounts s s') :
    Accounted opts s' := by
  refine ⟨?_, ?_, ?_, ?_, ?_, ?_⟩
  · rw [hsame.ids]
    exact h.wellFormed
  · rw [hsame.ids]
    exact h.lastId
  · rw [hsame.ids, hsame.openSlots]
    exact h.inUse
  · rw [hsame.activeConns, hsame.openSlots]
    exact h.active
  · rw [hsame.evs_length]
    exact h.evs_length
  · simp only [hsame.log, hsame.openSlots]
    exact h.inTurns

variable {actions : List Action}

theorem InTurns.close {p q : Prop} [Decidable p] [Decidable q]
    (h : InTurns opts p actions) (hp : p) (hq : ¬ q) :
    InTurns opts q (actions ++ closing opts) := by
  obtain ⟨n, rfl⟩ := h
  refine ⟨n + 1, ?_⟩
  rw [if_pos hp, if_neg hq, List.replicate_succ', List.flatten_append, List.flatten_singleton,
    List.append_nil, List.append_assoc]
  rfl

theorem InTurns.connect {p q : Prop} [Decidable p] [Decidable q]
    (h : InTurns opts p actions) (hp : ¬ p) (hq : q) :
    InTurns opts q (actions ++ [.connected]) := by
  obtain ⟨n, rfl⟩ := h
  refine ⟨n, ?_⟩
  rw [if_neg hp, if_pos hq, List.append_nil]

theorem InTurns.congr {p q : Prop} [Decidable p] [Decidable q]
    (h : InTurns opts p actions) (hpq : q ↔ p) : InTurns opts q actions := by
  obtain ⟨n, rfl⟩ := h
  refine ⟨n, ?_⟩
  simp only [hpq]

theorem history_append_self (i : ℕ) (log : List (Action × ℕ)) (actions : List Action) :
    history i (log ++ actions.map (·, i)) = history i log ++ actions := by
  unfold history
  rw [List.filter_append, List.map_append]
  congr 1
  induction actions with
  | nil => rfl
  | cons action actions ih => simp [ih]

theorem history_append_other {j : ℕ} (hij : j ≠ i) (log : List (Action × ℕ))
    (actions : List Action) : history j (log ++ actions.map (·, i)) = history j log := by
  unfold history
  rw [List.filter_append, List.map_append]
  simp [hij.symm]

theorem reaplanConnClose_log (i : ℕ) (s : State World) :
    (reaplanConnClose out opts i s).log = s.log ++ (closing opts).map (·, i) := by
  unfold reaplanConnClose closing
  cases opts.onDone with
  | true => simp [act, setConn]
  | false => simp [act, setConn]

theorem reaplanConnClose_fd (i j : ℕ) (s : State World) :
    ((reaplanConnClose out opts i s).ctx.conns j).fd =
      if j = i then -1 else (s.ctx.conns j).fd := by
  unfold reaplanConnClose
  by_cases hj : j = i
  · subst hj
    cases opts.onDone with
    | true => simp [act, setConn]
    | false => simp [act, setConn]
  · cases opts.onDone with
    | true => simp [act, setConn, hj]
    | false => simp [act, setConn, hj]

theorem reaplanConnClose_ids (i : ℕ) (s : State World) :
    (reaplanConnClose out opts i s).ctx.ids = idsetClear s.ctx.ids i := by
  unfold reaplanConnClose
  cases opts.onDone with
  | true => rfl
  | false => rfl

theorem reaplanConnClose_activeConns (i : ℕ) (s : State World) :
    (reaplanConnClose out opts i s).ctx.activeConns = s.ctx.activeConns - 1 := by
  unfold reaplanConnClose
  cases opts.onDone with
  | true => rfl
  | false => rfl

theorem reaplanConnClose_evs (i : ℕ) (s : State World) :
    (reaplanConnClose out opts i s).ctx.evs = s.ctx.evs := by
  unfold reaplanConnClose
  cases opts.onDone with
  | true => rfl
  | false => rfl

theorem openSlots_reaplanConnClose (i : ℕ) (s : State World) :
    openSlots opts (reaplanConnClose out opts i s) = (openSlots opts s).erase i := by
  ext j
  rw [mem_openSlots, Finset.mem_erase, mem_openSlots, reaplanConnClose_fd]
  by_cases hj : j = i
  · simp [hj]
  · simp [hj]

theorem Accounted.reaplanConnClose (h : Accounted opts s)
    (hi : i ∈ openSlots opts s) : Accounted opts (reaplanConnClose out opts i s) := by
  have hle : i ≤ s.ctx.ids.lastId := ((h.inUse i).mpr hi).1
  obtain ⟨hwf, hlast, hinUse⟩ := idsetClear_spec h.wellFormed hle
  refine ⟨?_, ?_, ?_, ?_, ?_, ?_⟩
  · rw [reaplanConnClose_ids]
    exact hwf
  · rw [reaplanConnClose_ids, hlast]
    exact h.lastId
  · intro j
    rw [reaplanConnClose_ids, hinUse, h.inUse, openSlots_reaplanConnClose, Finset.mem_erase]
    exact and_comm
  · have hpos : 0 < (openSlots opts s).card := Finset.card_pos.mpr ⟨i, hi⟩
    rw [reaplanConnClose_activeConns, openSlots_reaplanConnClose, Finset.card_erase_of_mem hi,
      h.active]
    omega
  · rw [reaplanConnClose_evs]
    exact h.evs_length
  · intro j
    rw [reaplanConnClose_log]
    by_cases hj : j = i
    · subst hj
      rw [history_append_self]
      refine (h.inTurns j).close hi ?_
      rw [openSlots_reaplanConnClose]
      exact Finset.notMem_erase j _
    · rw [history_append_other hj]
      refine (h.inTurns j).congr ?_
      rw [openSlots_reaplanConnClose, Finset.mem_erase]
      exact and_iff_right hj

/-- Each connection of the queue is open and queued once, so that none of them
is closed twice. The induction is on the queue. -/
theorem Accounted.closeConns {queue : List ℕ} : ∀ {s : State World}, Accounted opts s →
    queue.Nodup → (∀ i ∈ queue, i ∈ openSlots opts s) →
    Accounted opts (queue.foldl (fun s i => Reaplan.reaplanConnClose out opts i s) s) := by
  induction queue with
  | nil => exact fun h _ _ => h
  | cons i queue ih =>
    intro s h hnodup hopen
    rw [List.nodup_cons] at hnodup
    refine ih (h.reaplanConnClose (hopen i List.mem_cons_self)) hnodup.2 fun j hj => ?_
    rw [openSlots_reaplanConnClose, Finset.mem_erase]
    exact ⟨fun heq => hnodup.1 (heq ▸ hj), hopen j (List.mem_cons_of_mem _ hj)⟩

theorem Accounted.closeExpired (h : Accounted opts s) (now : ℤ) :
    Accounted opts (closeExpired out opts now s) := by
  refine List.foldlRecOn _ _ h fun s h i hi => ?_
  split
  · rename_i hexpired
    exact h.reaplanConnClose (mem_openSlots.mpr ⟨List.mem_range.mp hi, hexpired.2.1⟩)
  · exact h

theorem Accounted.checkExpired (h : Accounted opts s) :
    Accounted opts (checkExpired out opts s) := by
  have hclock : Accounted opts { s with world := (out.clock s.world).2 } :=
    h.of_same ⟨rfl, fun _ => rfl, rfl, rfl, rfl⟩
  unfold Reaplan.checkExpired
  split
  · dsimp only
    split
    · exact (hclock.closeExpired _).of_same ⟨rfl, fun _ => rfl, rfl, rfl, rfl⟩
    · exact hclock
  · exact h

/-! The timer, and the events of a new connection -/

variable {index : ℕ}

theorem evSet_ends (ev : Kevent) (h : index < s.ctx.evs.length) :
    Ends (· ≠ .overrun) (SameAccounts s) (evSet index ev s) := by
  rw [evSet, if_pos h]
  exact ⟨rfl, fun _ => rfl, rfl, List.length_set, rfl⟩

theorem reaplanUpdateTimer_ends (h : Accounted opts s) :
    Ends (· ≠ .overrun) (fun result => Accounted opts result.2)
      (reaplanUpdateTimer out opts s) := by
  have hchecked : Accounted opts (checkExpired out opts s) := h.checkExpired
  have hstart : ∀ ev, Ends (· ≠ .overrun) (fun result : Bool × State World =>
      Accounted opts result.2) (do
        let s ← evSet 0 ev (checkExpired out opts s)
        return (true, { s with ctx := { s.ctx with timerActive := true } })) := by
    intro ev
    have hroom : 0 < (checkExpired out opts s).ctx.evs.length := by
      rw [hchecked.evs_length]
      exact Nat.succ_pos _
    refine Ends.bind (evSet_ends ev hroom) fun after hsame => ?_
    exact hchecked.of_same (hsame.trans ⟨rfl, fun _ => rfl, rfl, rfl, rfl⟩)
  unfold reaplanUpdateTimer
  split
  · exact h
  · dsimp only
    split
    · exact hstart _
    · split
      · exact hchecked
      · exact hstart _

theorem addEvent_ends (requested : Bool) (ev : Kevent)
    (h : index < s.ctx.evs.length) :
    Ends (· ≠ .overrun) (fun result => SameAccounts s result.2 ∧ result.1 ≤ index + 1)
      (addEvent requested index ev s) := by
  unfold addEvent
  split
  · have hset := evSet_ends ev h
    cases hresult : evSet index ev s with
    | ok after => exact ⟨hset.of_ok hresult, le_refl _⟩
    | error fault => exact hset.of_error hresult
  · exact ⟨.refl s, Nat.le_succ index⟩

theorem setEvents_ends (i : ℕ)
    (hroom : index + 1 < s.ctx.evs.length) :
    Ends (· ≠ .overrun) (fun result => SameAccounts s result.2) (setEvents index i s) := by
  unfold setEvents
  dsimp only
  generalize hflags : (if (s.ctx.conns i).ssl = true then _ else _ : ConnFlags) = flags
  have hset : SameAccounts s (setConn i { s.ctx.conns i with flags := flags } s) :=
    (SameAccounts.refl s).setConn rfl
  refine Ends.bind (addEvent_ends _ _ (Nat.lt_of_succ_lt hroom)) ?_
  rintro ⟨next, s₁⟩ ⟨hread, hnext⟩
  have hread : SameAccounts s s₁ := hset.trans hread
  refine Ends.mono (addEvent_ends _ _ ?_) fun result hwrite => hread.trans hwrite.1
  rw [hread.evs_length]
  omega

theorem connectSlot_spec (out : Outside World) (id : ℕ) (s : State World) :
    let result := connectSlot out id s
    result.1 = (out.onConnect id s.world).1 ∧ result.2.ctx.ids = s.ctx.ids ∧
      (result.2.ctx.conns id).fd = result.1.fd ∧
      (∀ j ≠ id, (result.2.ctx.conns j).fd = (s.ctx.conns j).fd) ∧
      result.2.ctx.activeConns = s.ctx.activeConns ∧ result.2.ctx.evs = s.ctx.evs ∧
      result.2.log = s.log := by
  refine ⟨rfl, rfl, ?_, ?_, rfl, rfl, rfl⟩
  · simp [connectSlot, setConn, connectedConn]
  · intro j hj
    simp [connectSlot, setConn, hj]

theorem Accounted.connectSlot (laws : out.Lawful opts) {id : ℕ}
    {ids : IdsetCtx} {connected : Connected} (h : Accounted opts s)
    (huse : idsetUseNext s.ctx.ids = (some id, ids))
    (hconnect : connectSlot out id (setIds ids s) = (connected, s')) :
    ((connected.code ≠ reaplancOk ∨ connected.fd < 0) →
        Accounted opts (setIds (idsetClear s'.ctx.ids id) s')) ∧
      (0 ≤ connected.fd → Accounted opts (countConnected id s') ∧
        id ∈ openSlots opts (countConnected id s')) := by
  have hslot := connectSlot_spec out id (setIds ids s)
  simp only [hconnect] at hslot
  obtain ⟨hreply, hids, hfd, hother, hactive, hevs, hlog⟩ := hslot
  have hspec := idsetUseNext_spec h.wellFormed
  simp only [huse] at hspec
  obtain ⟨hwf, hlast, hle, hunused, -, hinUse⟩ := hspec
  have hclosed : id ∉ openSlots opts s := fun hopen => hunused ((h.inUse id).mpr hopen)
  constructor
  · intro hfailed
    have hneg : (s'.ctx.conns id).fd < 0 := by
      rw [hfd]
      by_contra hopen
      rw [not_lt] at hopen
      cases hfailed with
      | inl hcode => exact hcode (hreply ▸ laws.connected id _ (hreply ▸ hopen))
      | inr hneg => exact absurd hopen (not_le.mpr hneg)
    have hsame : openSlots opts (setIds (idsetClear s'.ctx.ids id) s') = openSlots opts s := by
      ext j
      by_cases hj : j = id
      · subst hj
        refine iff_of_false ?_ hclosed
        rw [mem_openSlots, not_and, not_le]
        exact fun _ => hneg
      · rw [mem_openSlots, mem_openSlots]
        exact and_congr_right fun _ => iff_of_eq (congrArg _ (hother j hj))
    have hids : s'.ctx.ids = ids := hids
    obtain ⟨hwf', hlast', hinUse'⟩ := idsetClear_spec hwf (hle.trans_eq hlast.symm)
    rw [hids] at hsame ⊢
    refine ⟨hwf', ?_, ?_, ?_, ?_, ?_⟩
    · exact (congrArg (· + 1) (hlast'.trans hlast)).trans h.lastId
    · intro j
      rw [hsame, ← h.inUse]
      refine (hinUse' j).trans ?_
      rw [hinUse]
      constructor
      · rintro ⟨hj | hj, hne⟩
        · exact hj
        · exact absurd hj hne
      · intro hj
        exact ⟨.inl hj, fun heq => hunused (heq ▸ hj)⟩
    · rw [hsame]
      exact hactive.trans h.active
    · exact (congrArg List.length hevs).trans h.evs_length
    · intro j
      have hlog : (setIds (idsetClear ids id) s').log = s.log := hlog
      rw [hsame, hlog]
      exact h.inTurns j
  · intro hopen
    have hlt : id < opts.maxClients.toNat := by
      rw [← h.lastId]
      exact Nat.lt_succ_of_le hle
    have hinsert : openSlots opts (countConnected id s') = insert id (openSlots opts s) := by
      ext j
      rw [mem_openSlots, Finset.mem_insert, mem_openSlots]
      by_cases hj : j = id
      · subst hj
        exact iff_of_true ⟨hlt, hfd ▸ hopen⟩ (.inl rfl)
      · rw [or_iff_right hj]
        exact and_congr_right fun _ => iff_of_eq (congrArg _ (hother j hj))
    have htaken : id ∈ openSlots opts (countConnected id s') := by
      rw [hinsert]
      exact Finset.mem_insert_self id _
    refine ⟨⟨?_, ?_, ?_, ?_, ?_, ?_⟩, htaken⟩
    · exact hids ▸ hwf
    · exact (congrArg (fun ids => ids.lastId + 1) hids).trans
        ((congrArg (· + 1) hlast).trans h.lastId)
    · intro j
      rw [hinsert, Finset.mem_insert, ← h.inUse, or_comm]
      exact hids ▸ hinUse j
    · rw [hinsert, Finset.card_insert_of_notMem hclosed, Int.natCast_add, ← h.active]
      exact congrArg (· + 1) hactive
    · exact (congrArg List.length hevs).trans h.evs_length
    · intro j
      have hlog : (countConnected id s').log = s.log ++ [Action.connected].map (·, id) :=
        congrArg (· ++ [(Action.connected, id)]) hlog
      rw [hlog]
      by_cases hj : j = id
      · subst hj
        rw [history_append_self]
        exact (h.inTurns j).connect hclosed htaken
      · rw [history_append_other hj]
        refine (h.inTurns j).congr ?_
        rw [hinsert, Finset.mem_insert]
        exact or_iff_right hj

/-- The induction is on the rounds: each of them takes a slot, gives it back or
closes it again. -/
theorem setupConnections_ends (laws : out.Lawful opts) (haccepted : Accepted opts) {base : ℕ}
    (hbase : base ≤ 1) (expires : ℤ) (rounds : ℕ) : ∀ {i : ℕ} {result : ℤ} {s : State World},
      Accounted opts s → Ends (· ≠ .overrun) (fun after => Accounted opts after.2.2)
        (setupConnections out opts base (opts.connectsPerTick * 2).toNat expires rounds i result
          s) := by
  induction rounds with
  | zero =>
    intro i result s h
    unfold setupConnections
    split
    · exact Fault.noConfusion
    · exact h
  | succ rounds ih =>
    intro i result s h
    rw [setupConnections]
    split
    · rename_i hi
      split
      · rename_i ids hnone
        have hspec := idsetUseNext_spec h.wellFormed
        simp only [hnone] at hspec
        obtain ⟨hwf, hlast, -, hinUse⟩ := hspec
        exact ⟨hwf, hlast ▸ h.lastId, fun j => (hinUse j).trans (h.inUse j), h.active,
          h.evs_length, h.inTurns⟩
      · rename_i id ids hsome
        cases hconnect : connectSlot out id (setIds ids s) with
        | mk connected s' =>
          obtain ⟨hback, htaken⟩ := h.connectSlot laws hsome hconnect
          dsimp only
          split
          · rename_i hfailed
            exact hback hfailed
          · rename_i hconnected
            rw [not_or, not_lt] at hconnected
            obtain ⟨htaken, hopen⟩ := htaken hconnected.2
            split
            · exact ih (htaken.reaplanConnClose hopen)
            · have hset : SameAccounts (countConnected id s')
                  (setExpires id expires (countConnected id s')) :=
                (SameAccounts.refl _).setConn rfl
              have hroom : base + i + 1 <
                  (setExpires id expires (countConnected id s')).ctx.evs.length := by
                have hdouble := haccepted.toNat_double
                have hpos := haccepted.connects_pos
                rw [hset.evs_length, htaken.evs_length]
                omega
              have hevents := setEvents_ends id hroom
              split
              · rename_i fault hresult
                exact hevents.of_error hresult
              · rename_i next s'' hresult
                exact ih (htaken.of_same (hset.trans (hevents.of_ok hresult)))
    · exact h

/-- During a batch nothing is closed: what will be is queued, once and with the
descriptor open. -/
structure Handling (opts : ReaplanOpts) (s s' : State World) : Prop where
  same : SameAccounts s s'
  nodup : s'.ctx.closeconns.Nodup
  length_le : s'.ctx.closeconns.length ≤ opts.connectsPerTick.toNat
  isOpen : ∀ i ∈ s'.ctx.closeconns, i ∈ openSlots opts s

section

variable (h : Handling opts s s')

include h

theorem enqueueCloseConn_ends (hi : i ∈ openSlots opts s) :
    Ends (· ≠ .overrun) (Handling opts s) (enqueueCloseConn opts i s') := by
  unfold enqueueCloseConn
  split
  · exact h
  · rename_i hroom
    split
    · exact h
    · rename_i hnew
      have hlt := lt_of_le_of_ne h.length_le hroom
      rw [if_pos hlt]
      refine ⟨⟨h.same.ids, h.same.fd, h.same.activeConns, h.same.evs_length, h.same.log⟩, ?_, ?_, ?_⟩
      · rw [List.nodup_append_comm]
        exact List.nodup_cons.mpr ⟨hnew, h.nodup⟩
      · rw [List.length_append]
        exact hlt
      · intro j hj
        cases List.mem_append.mp hj with
        | inl hj => exact h.isOpen j hj
        | inr hj => exact List.mem_singleton.mp hj ▸ hi

theorem Handling.setWorld (world : World) :
    Handling opts s { s' with world := world } :=
  ⟨⟨h.same.ids, h.same.fd, h.same.activeConns, h.same.evs_length, h.same.log⟩, h.nodup,
    h.length_le, h.isOpen⟩

theorem afterCallback_ends (hi : i ∈ openSlots opts s) (reply : Reply) :
    Ends (· ≠ .overrun) (Handling opts s) (afterCallback opts i reply s') := by
  unfold afterCallback
  split
  · exact enqueueCloseConn_ends h hi
  · exact h

theorem handleTlsHandshake_ends (hi : i ∈ openSlots opts s) :
    Ends (· ≠ .overrun) (Handling opts s) (handleTlsHandshake out opts i s') := by
  unfold handleTlsHandshake
  dsimp only
  split
  · exact Fault.noConfusion
  · have hworld := h.setWorld (out.sslConnect i s'.world).2
    cases (out.sslConnect i s'.world).1 with
    | wantWrite => exact hworld
    | wantRead => exact hworld
    | failure => exact enqueueCloseConn_ends hworld hi
    | shutdown => exact enqueueCloseConn_ends hworld hi
    | done =>
      dsimp only
      split
      · exact Fault.noConfusion
      · exact ⟨hworld.same.setConn rfl, h.nodup, h.length_le, h.isOpen⟩

theorem handleEvent_ends {ev : Kevent}
    (hopen : ev.filter ≠ .timer → ev.udata ∈ openSlots opts s) :
    Ends (· ≠ .overrun) (Handling opts s) (handleEvent out opts s' ev) := by
  unfold handleEvent
  dsimp only
  split
  · rename_i herror
    refine enqueueCloseConn_ends h (hopen fun htimer => ?_)
    rw [htimer] at herror
    cases herror.2 <;> contradiction
  · cases hfilter : ev.filter with
    | read =>
      have hi := hopen (by rw [hfilter]; exact Filter.noConfusion)
      have heof : Ends (· ≠ .overrun) (Handling opts s) (enqueueOnEof opts ev s') := by
        unfold enqueueOnEof
        split
        · exact enqueueCloseConn_ends h hi
        · exact h
      refine Ends.bind heof fun s'' h => ?_
      split
      · exact handleTlsHandshake_ends h hi
      · split
        · exact afterCallback_ends (h.setWorld _) hi _
        · exact h
    | write =>
      have hi := hopen (by rw [hfilter]; exact Filter.noConfusion)
      dsimp only
      split
      · exact enqueueCloseConn_ends h hi
      · split
        · exact handleTlsHandshake_ends h hi
        · exact afterCallback_ends (h.setWorld _) hi _
    | timer =>
      dsimp only
      split
      · exact ⟨⟨h.same.ids, h.same.fd, h.same.activeConns, h.same.evs_length, h.same.log⟩,
          h.nodup, h.length_le, h.isOpen⟩
      · exact h

end

theorem reaplanHandleEvents_ends (h : Accounted opts s) {evs : List Kevent}
    (hopen : ∀ ev ∈ evs, ev.filter ≠ .timer → ev.udata ∈ openSlots opts s) :
    Ends (· ≠ .overrun) (Accounted opts) (reaplanHandleEvents out opts evs s) := by
  have hstart : Handling opts s { s with ctx := { s.ctx with closeconns := [] } } :=
    ⟨⟨rfl, fun _ => rfl, rfl, rfl, rfl⟩, List.nodup_nil, Nat.zero_le _, nofun⟩
  refine Ends.bind (Ends.foldlM (fun _ ev hev h => handleEvent_ends h (hopen ev hev)) hstart) ?_
  intro s' h'
  refine (h.of_same h'.same).closeConns h'.nodup fun i hi => ?_
  rw [h'.same.openSlots]
  exact h'.isOpen i hi

def Run.Accounted (opts : ReaplanOpts) (r : Run World) : Prop :=
  Reaplan.Accounted opts r.state ∧ (r.point = .head → r.nevs ≤ 1)

theorem armedNevs_le (armed : Bool) : (if armed then 1 else 0) ≤ 1 := by
  cases armed <;> decide

theorem runStart_ends (pending : Bool) (h : Accounted opts s) :
    Ends (· ≠ .overrun) (Run.Accounted opts) (runStart out opts pending s) := by
  have hreset : Accounted opts
      { s with ctx := { s.ctx with timerActive := false, connectDone := false } } :=
    h.of_same ⟨rfl, fun _ => rfl, rfl, rfl, rfl⟩
  refine Ends.bind (reaplanUpdateTimer_ends hreset) ?_
  rintro ⟨armed, s'⟩ h'
  exact ⟨h', fun _ => armedNevs_le armed⟩

variable {r : Run World}

theorem toKevent_accounted (h : Accounted opts r.state) :
    (toKevent opts r).Accounted opts :=
  ⟨h, nofun⟩

theorem runHead_ends (laws : out.Lawful opts) (haccepted : Accepted opts) (rounds : ℕ)
    (h : Accounted opts r.state) (hnevs : r.nevs ≤ 1) :
    Ends (· ≠ .overrun) (Run.Accounted opts) (runHead out opts rounds r) := by
  unfold runHead
  dsimp only
  split
  · exact ⟨h, nofun⟩
  · split
    · have hexpires : Accounted opts (nextExpires out opts r.expires r.state).2 := by
        unfold nextExpires
        split
        · exact h.of_same ⟨rfl, fun _ => rfl, rfl, rfl, rfl⟩
        · exact h
      refine Ends.bind (setupConnections_ends laws haccepted hnevs _ rounds hexpires) ?_
      rintro ⟨ret, newNevs, s⟩ hsetup
      dsimp only
      split
      · exact ⟨hsetup, nofun⟩
      · exact toKevent_accounted (hsetup.of_same ⟨rfl, fun _ => rfl, rfl, rfl, rfl⟩)
    · exact toKevent_accounted h

theorem runKevent_ends (laws : out.Lawful opts) (wait : Bool)
    (hpoint : r.point = .kevent wait) (h : Accounted opts r.state) :
    Ends (· ≠ .overrun) (Run.Accounted opts) (runKevent out opts wait r) := by
  unfold runKevent
  split
  · refine ⟨h.of_same ⟨rfl, fun _ => rfl, rfl, rfl, rfl⟩, fun hhead => ?_⟩
    rw [hpoint] at hhead
    cases hhead
  · exact ⟨h.of_same ⟨rfl, fun _ => rfl, rfl, rfl, rfl⟩, nofun⟩
  · rename_i evs world hkevent
    have hlength := laws.events_length hkevent
    have hread : SameAccounts r.state ⟨{ r.state.ctx with
        evs := evs ++ r.state.ctx.evs.drop evs.length }, r.state.log, world⟩ := by
      refine ⟨rfl, fun _ => rfl, rfl, ?_, rfl⟩
      have hevs := h.evs_length
      rw [List.length_append, List.length_drop]
      omega
    refine Ends.bind (reaplanHandleEvents_ends (h.of_same hread) fun ev hev hfilter => ?_) ?_
    · exact mem_openSlots.mpr (laws.events_open hkevent ev hev hfilter)
    · intro s hhandled
      refine Ends.bind (reaplanUpdateTimer_ends hhandled) ?_
      rintro ⟨armed, s'⟩ h'
      exact ⟨h', fun _ => armedNevs_le armed⟩

theorem step_ends (laws : out.Lawful opts) (haccepted : Accepted opts) (rounds : ℕ)
    (h : r.Accounted opts) :
    Ends (· ≠ .overrun) (Run.Accounted opts) (step out opts rounds r) := by
  unfold step
  split
  · rename_i hpoint
    exact runHead_ends laws haccepted rounds h.1 (h.2 hpoint)
  · rename_i wait hpoint
    exact runKevent_ends laws wait hpoint h.1
  · exact runStart_ends r.pending h.1

/-- Before the first call of `reaplan_run`. -/
def Run.fresh (ctx : ReaplanCtx) (world : World) : Run World :=
  ⟨.returned, 0, 0, false, ⟨ctx, [], world⟩⟩

/-- The runs of `reaplan_run` with a context, from one call of it to the next
one, and with any number of rounds in each loop that sets up connections. -/
def Runs (out : Outside World) (opts : ReaplanOpts) (ctx : ReaplanCtx) (world : World) :
    Run World → Prop :=
  Reachable (· = Run.fresh ctx world) (fun _ _ => True)
    fun before rounds after => step out opts rounds before = .ok after

theorem Runs.next {world : World} {before after : Run World} (rounds : ℕ)
    (h : Runs out opts ctx world before) (hstep : step out opts rounds before = .ok after) :
    Runs out opts ctx world after :=
  Reachable.step h trivial hstep

theorem Runs.accounted (hinit : reaplanInit opts = some ctx)
    (laws : out.Lawful opts) {world : World} (h : Runs out opts ctx world r) :
    r.Accounted opts := by
  obtain ⟨haccepted, hfresh⟩ := reaplanInit_spec hinit world
  refine Reachable.invariant ?_ ?_ h
  · rintro r rfl
    exact ⟨hfresh, nofun⟩
  · intro before rounds after hbefore _ hstep
    exact (step_ends laws haccepted rounds hbefore).of_ok hstep

theorem connections_accounted {ctx : ReaplanCtx} (hinit : reaplanInit opts = some ctx)
    (laws : out.Lawful opts) {world : World} {r : Run World} (h : Runs out opts ctx world r) :
    (r.state.ctx.activeConns = (openSlots opts r.state).card ∧
      r.state.ctx.activeConns = (idsInUse r.state).card ∧
      r.state.ctx.activeConns ≤ opts.maxClients.toNat) ∧
    (∀ i, InTurns opts (i ∈ openSlots opts r.state) (history i r.state.log)) ∧
    ∀ rounds, step out opts rounds r ≠ .error .overrun := by
  have haccounted := (Runs.accounted hinit laws h).1
  have hids : idsInUse r.state = openSlots opts r.state := by
    ext i
    rw [idsInUse, Finset.mem_filter, haccounted.inUse, and_iff_right_of_imp]
    intro hi
    rw [Finset.mem_range, haccounted.lastId]
    exact (mem_openSlots.mp hi).1
  refine ⟨⟨haccounted.active, ?_, ?_⟩, haccounted.inTurns, fun rounds heq => ?_⟩
  · rw [hids]
    exact haccounted.active
  · have hcard : (openSlots opts r.state).card ≤ opts.maxClients.toNat :=
      (Finset.card_filter_le _ _).trans_eq (Finset.card_range _)
    rw [haccounted.active]
    omega
  · exact (step_ends laws (reaplanInit_spec hinit world).1 rounds
      (Runs.accounted hinit laws h)).of_error heq rfl

def sampleOutside : Outside ℕ where
  onConnect _ world :=
    if world = 0 then (⟨reaplancOk, 5, true, false, false⟩, 1)
    else (⟨reaplancDone, -1, false, false, false⟩, world)
  onReadable _ world := (⟨0, false⟩, world)
  onWritable _ world := (⟨0, false⟩, world)
  onDone _ world := world
  sslConnect _ world := (.failure, world)
  clock world := (some 100, world)
  kevent ctx _ world :=
    if 0 ≤ (ctx.conns 0).fd then
      (.events [⟨(ctx.conns 0).fd, .read, false, false, false, .none, 1, 0⟩], world)
    else (.failure, world)

def sampleOpts : ReaplanOpts := ⟨true, true, 10, 2, 1, 0, false⟩

def sampleCtx : ReaplanCtx :=
  ⟨List.replicate 3 zeroKevent, ⟨false, 1, [BitVec.allOnes 32]⟩, fun _ => zeroConn, [], 0, 0,
    false, false, false⟩

theorem sampleOutside_lawful : sampleOutside.Lawful sampleOpts := by
  refine ⟨?_, ?_, ?_⟩
  · intro i world
    simp only [sampleOutside]
    split <;> simp [reaplancOk]
  · intro ctx wait world evs world' h
    simp only [sampleOutside] at h
    split at h
    · cases h
      exact le_refl 1
    · cases h
  · intro ctx wait world evs world' h ev hev hfilter
    simp only [sampleOutside] at h
    split at h
    · rename_i hopen
      cases h
      rw [List.mem_singleton] at hev
      subst hev
      exact ⟨Nat.two_pos, hopen⟩
    · cases h

theorem connections_accounted_sample : ∃ r : Run ℕ,
    r.state.log = [(.connected, 0), (.closed, 0), (.done, 0)] ∧
      (r.state.ctx.activeConns = (openSlots sampleOpts r.state).card ∧
        r.state.ctx.activeConns = (idsInUse r.state).card ∧
        r.state.ctx.activeConns ≤ sampleOpts.maxClients.toNat) ∧
      (∀ i, InTurns sampleOpts (i ∈ openSlots sampleOpts r.state) (history i r.state.log)) ∧
      ∀ rounds, step sampleOutside sampleOpts rounds r ≠ .error .overrun := by
  have hstart : Runs sampleOutside sampleOpts sampleCtx 0 _ := Runs.next 0 (.initial rfl) rfl
  have hhead : Runs sampleOutside sampleOpts sampleCtx 0 _ := Runs.next 3 hstart rfl
  have hkevent : Runs sampleOutside sampleOpts sampleCtx 0 _ := Runs.next 0 hhead rfl
  exact ⟨_, rfl, connections_accounted rfl sampleOutside_lawful hkevent⟩

end Yans.Net.Reaplan
