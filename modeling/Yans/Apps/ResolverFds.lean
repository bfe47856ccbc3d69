import Yans.Apps.Resolver

/-! What the descriptors of the clients have been opened for, and when the
resolver closes its own ones only. -/
namespace Yans.Apps.Resolver

open Library.Handles Library.Runs

inductive Place where
  | slot (i : ℤ)
  | request (r : ℕ)
  | other

def Owner.place : Owner → Place
  | .socket i | .result i | .resultFile i => .slot i
  | .closefd _ (.first i) | .closefd _ (.second i) => .slot i
  | .closefd _ (.request r) | .requestFile r => .request r
  | .other => .other

/-- The descriptors in the slot `i`, with its client. -/
structure SlotInv (table : Table ℤ Owner) (i : ℤ) (current : Option (ℕ × Handler))
    (ecli : ResolverCli) (paired : Bool) : Prop where
  socket : ∀ client handler, current = some (client, handler) → table i = some (.socket i)
  unpaired : paired = false → ecli.closefds = (0, 0) ∧
    ∀ client, current ≠ some (client, .onSendclosefd)
  idle : paired = true → current = none → ecli.closefds.1 < 0 ∧ ecli.closefds.2 < 0
  first : paired = true → ∀ client handler, current = some (client, handler) →
    ecli.closefds.1 < 0 ∨ table ecli.closefds.1 = some (.closefd client (.first i))
  second : paired = true → ∀ client handler, current = some (client, handler) →
    ecli.closefds.2 < 0 ∨ table ecli.closefds.2 = some (.closefd client (.second i))
  sending : ∀ client, current = some (client, .onSendclosefd) →
    table ecli.closefds.1 = some (.closefd client (.first i)) ∧
      table ecli.closefds.2 = some (.closefd client (.second i))
  result : ∀ client, current = some (client, .onReadreq) → table ecli.resfd = some (.result i)
  file : ∀ fd, ecli.resfile = some fd → table fd = some (.resultFile i)

structure RequestInv (table : Table ℤ Owner) (r : ℕ) (resdata : ResolverData) : Prop where
  closefd : table resdata.closefd = some (.closefd resdata.client (.request r))
  file : ∀ fd, resdata.resfile = some fd → table fd = some (.requestFile r)

structure Inv (s : State) : Prop where
  slots : ∀ i, SlotInv s.table i (s.clients i) (s.slots i) (s.paired i)
  requests : ∀ r resdata, s.requests r = some resdata → RequestInv s.table r resdata
  closes : ∀ close ∈ s.closes, close.2 = true

section

variable {table table' : Table ℤ Owner} {i : ℤ} {current : Option (ℕ × Handler)}
  {ecli : ResolverCli} {paired : Bool}

theorem SlotInv.mono (h : SlotInv table i current ecli paired)
    (hkept : ∀ fd owner, owner.place = .slot i → owner ≠ .result i → table fd = some owner →
      table' fd = some owner)
    (hresult : ∀ client, current = some (client, .onReadreq) →
      table' ecli.resfd = some (.result i)) : SlotInv table' i current ecli paired := by
  refine ⟨fun client handler hcurrent => ?_, h.unpaired, h.idle,
    fun hpaired client handler hcurrent => ?_, fun hpaired client handler hcurrent => ?_,
    fun client hcurrent => ?_, hresult, fun fd hfd => ?_⟩
  · exact hkept _ _ rfl nofun (h.socket client handler hcurrent)
  · exact (h.first hpaired client handler hcurrent).imp_right (hkept _ _ rfl nofun)
  · exact (h.second hpaired client handler hcurrent).imp_right (hkept _ _ rfl nofun)
  · exact (h.sending client hcurrent).imp (hkept _ _ rfl nofun) (hkept _ _ rfl nofun)
  · exact hkept _ _ rfl nofun (h.file fd hfd)

theorem SlotInv.kept (h : SlotInv table i current ecli paired) {here : Place}
    (hkept : Kept Owner.place here table table') (hne : .slot i ≠ here) :
    SlotInv table' i current ecli paired := by
  refine h.mono (fun fd owner hplace _ => hkept fd owner (hplace ▸ hne)) fun client hcurrent => ?_
  exact hkept _ _ hne (h.result client hcurrent)

theorem RequestInv.kept {r : ℕ} {resdata : ResolverData} (h : RequestInv table r resdata)
    {here : Place} (hkept : Kept Owner.place here table table') (hne : .request r ≠ here) :
    RequestInv table' r resdata :=
  ⟨hkept _ _ hne h.closefd, fun fd hfd => hkept _ _ hne (h.file fd hfd)⟩

theorem SlotInv.next {client : ℕ} {handler handler' : Handler} {ecli' : ResolverCli}
    (h : SlotInv table i (some (client, handler)) ecli paired)
    (hclosefds : ecli'.closefds = ecli.closefds)
    (hfile : ∀ fd, ecli'.resfile = some fd → table fd = some (.resultFile i))
    (hresult : handler' = .onReadreq → table ecli'.resfd = some (.result i))
    (hsend : handler' ≠ .onSendclosefd) :
    SlotInv table i (some (client, handler')) ecli' paired := by
  have hclient : ∀ client' handler'', some (client, handler') = some (client', handler'') →
      client = client' ∧ handler' = handler'' := fun client' handler'' heq =>
    Prod.mk.inj (Option.some.inj heq)
  refine ⟨fun _ _ _ => h.socket client handler rfl, fun hpaired => ⟨?_, fun client' heq => ?_⟩, nofun,
    fun hpaired client' handler'' heq => ?_, fun hpaired client' handler'' heq => ?_,
    fun client' heq => absurd (hclient _ _ heq).2 hsend,
    fun client' heq => hresult (hclient _ _ heq).2, hfile⟩
  · rw [hclosefds]
    exact (h.unpaired hpaired).1
  · exact hsend (hclient _ _ heq).2
  · rw [hclosefds, ← (hclient _ _ heq).1]
    exact h.first hpaired client handler rfl
  · rw [hclosefds, ← (hclient _ _ heq).1]
    exact h.second hpaired client handler rfl

end

variable {s : State}

theorem Inv.slot_step {s' : State} (h : Inv s) {i : ℤ}
    (hkept : Kept Owner.place (.slot i) s.table s'.table)
    (hothers : ∀ j ≠ i, s'.clients j = s.clients j ∧ s'.slots j = s.slots j ∧
      s'.paired j = s.paired j)
    (hslot : SlotInv s'.table i (s'.clients i) (s'.slots i) (s'.paired i))
    (hrequests : ∀ r resdata, s'.requests r = some resdata →
      s.requests r = some resdata ∨ RequestInv s'.table r resdata)
    (hcloses : ∀ close ∈ s'.closes, close.2 = true) : Inv s' := by
  refine ⟨fun j => ?_, fun r resdata hr => ?_, hcloses⟩
  · by_cases hj : j = i
    · rw [hj]
      exact hslot
    · obtain ⟨hclients, hslots, hpaired⟩ := hothers j hj
      rw [hclients, hslots, hpaired]
      exact (h.slots j).kept hkept fun heq => hj (Place.slot.inj heq)
  · obtain hold | hnew := hrequests r resdata hr
    · exact (h.requests r resdata hold).kept hkept Place.noConfusion
    · exact hnew

section

variable {s' : State} {i : ℤ} {client : ℕ} {outcome : Outcome}

@[simp] theorem clients_setHandler (handler : Handler) :
    (setHandler i client handler s).clients i = some (client, handler) := Function.update_self ..

theorem clients_setHandler_of_ne {j : ℤ} (hj : j ≠ i) (handler : Handler) :
    (setHandler i client handler s).clients j = s.clients j := Function.update_of_ne hj ..

@[simp] theorem slots_setSlot (ecli : ResolverCli) : (setSlot i ecli s).slots i = ecli :=
  Function.update_self ..

theorem slots_setSlot_of_ne {j : ℤ} (hj : j ≠ i) (ecli : ResolverCli) :
    (setSlot i ecli s).slots j = s.slots j := Function.update_of_ne hj ..

variable {handler : Handler}

theorem setHandler_inv (h : Inv s) {handler' : Handler}
    (hclient : s.clients i = some (client, handler)) (hreq : handler' ≠ .onReadreq)
    (hsend : handler' ≠ .onSendclosefd) : Inv (setHandler i client handler' s) := by
  refine h.slot_step .refl (fun j hj => ⟨clients_setHandler_of_ne hj _, rfl, rfl⟩) ?_
    (fun r resdata hr => .inl hr) h.closes
  rw [clients_setHandler]
  have hslot := h.slots i
  rw [hclient] at hslot
  exact hslot.next rfl hslot.file (fun heq => absurd heq hreq) hsend

theorem resolverOnReadable_inv (h : Inv s) (hclient : s.clients i = some (client, .onReadable))
    (hstep : resolverOnReadable i client outcome s = some s') : Inv s' := by
  unfold resolverOnReadable at hstep
  split at hstep <;> cases hstep
  · exact setHandler_inv h hclient nofun nofun
  · exact setHandler_inv h hclient nofun nofun

theorem onReadfd_inv (h : Inv s) (hclient : s.clients i = some (client, .onReadfd))
    (hstep : onReadfd i client outcome s = some s') : Inv s' := by
  unfold onReadfd at hstep
  split at hstep
  · cases hstep
    exact h
  · cases hstep
    exact setHandler_inv h hclient nofun nofun
  · split at hstep
    · rename_i hfree
      cases hstep
      have hslot := h.slots i
      rw [hclient] at hslot
      have hkept : Kept Owner.place .other s.table
          (give outcome.received (.result i) s.table) := .give_free hfree.2 _
      have hslot := hslot.kept hkept nofun
      refine h.slot_step (.give_free hfree.2 _)
        (fun j hj => ⟨clients_setHandler_of_ne hj _, slots_setSlot_of_ne hj _, rfl⟩) ?_
        (fun r resdata hr => .inl hr) h.closes
      rw [clients_setHandler]
      change SlotInv _ i _ ((setSlot i _ _).slots i) _
      rw [slots_setSlot]
      exact hslot.next rfl hslot.file (fun _ => give_self _) nofun
    · cases hstep

theorem failReadreq_inv (h : Inv s)
    (hclient : s.clients i = some (client, handler))
    (hresult : (s.slots i).resfd ≥ 0 → s.table (s.slots i).resfd = some (.result i)) :
    Inv (failReadreq i client s) := by
  unfold failReadreq
  dsimp only
  split
  · rename_i hfd
    have hkept : Kept id (.result i) s.table (take (s.slots i).resfd s.table) :=
      .take_owned (hresult hfd) rfl
    have hslot := h.slots i
    rw [hclient] at hslot
    refine h.slot_step (hkept.at_place rfl)
      (fun j hj => ⟨clients_setHandler_of_ne hj _, slots_setSlot_of_ne hj _, rfl⟩) ?_
      (fun r resdata hr => .inl hr) h.closes
    rw [clients_setHandler]
    change SlotInv _ i _ ((setSlot i _ _).slots i) _
    rw [slots_setSlot]
    have hnext : SlotInv s.table i (some (client, .cleared)) { s.slots i with resfd := -1 }
        (s.paired i) := hslot.next rfl hslot.file nofun nofun
    exact hnext.mono (fun fd owner _ => hkept fd owner) nofun
  · exact setHandler_inv h hclient nofun nofun

theorem setSlot_inv (h : Inv s) {ecli : ResolverCli}
    (hclosefds : ecli.closefds = (s.slots i).closefds)
    (hresfd : ecli.resfd = (s.slots i).resfd)
    (hfile : ∀ fd, ecli.resfile = some fd → s.table fd = some (.resultFile i)) :
    Inv (setSlot i ecli s) := by
  refine h.slot_step .refl (fun j hj => ⟨rfl, slots_setSlot_of_ne hj _, rfl⟩) ?_
    (fun r resdata hr => .inl hr) h.closes
  rw [slots_setSlot]
  obtain ⟨hsocket, hunpaired, hidle, hfirst, hsecond, hsending, hresult, -⟩ := h.slots i
  rw [← hclosefds] at hunpaired hidle hfirst hsecond hsending
  rw [← hresfd] at hresult
  exact ⟨hsocket, hunpaired, hidle, hfirst, hsecond, hsending, hresult, hfile⟩

def openResfile (i : ℤ) (s : State) : State :=
  setSlot i { s.slots i with resfile := some (s.slots i).resfd, resfd := -1 }
    { s with table := give (s.slots i).resfd (.resultFile i) s.table }

theorem openResfile_inv (h : Inv s) (hclient : s.clients i = some (client, .onReadreq)) :
    Inv (setHandler i client .cleared (openResfile i s)) := by
  have hslot := h.slots i
  rw [hclient] at hslot
  have hkept : Kept id (.result i) s.table (give (s.slots i).resfd (.resultFile i) s.table) :=
    .give_owned (hslot.result client rfl) rfl
  refine h.slot_step (hkept.at_place rfl)
    (fun j hj => ⟨clients_setHandler_of_ne hj _, slots_setSlot_of_ne hj _, rfl⟩) ?_
    (fun r resdata hr => .inl hr) h.closes
  rw [clients_setHandler]
  change SlotInv _ i _ ((setSlot i _ _).slots i) _
  rw [slots_setSlot]
  have hcleared : SlotInv s.table i (some (client, .cleared)) (s.slots i) (s.paired i) :=
    hslot.next rfl hslot.file nofun nofun
  refine (hcleared.mono (fun fd owner _ => hkept fd owner) nofun).next rfl (fun fd hfd => ?_)
    nofun nofun
  rw [← Option.some.inj hfd]
  exact give_self _

theorem pair_inv (h : Inv s) (hclient : s.clients i = some (client, handler))
    {a b : ℤ} (ha : Free s a) (hb : Free s b) (hne : a ≠ b) :
    Inv (setHandler i client .onSendclosefd
      (setSlot i { s.slots i with closefds := (a, b) }
        { s with
          paired := Function.update s.paired i true
          table := give a (.closefd client (.first i))
            (give b (.closefd client (.second i)) s.table) })) := by
  have hkept : ∀ here, Kept Owner.place here s.table
      (give a (.closefd client (.first i)) (give b (.closefd client (.second i)) s.table)) := by
    intro here
    refine (Kept.give_free hb.2 _).trans (.give_free ?_ _)
    rw [give_of_ne hne]
    exact ha.2
  refine h.slot_step (hkept _)
    (fun j hj => ⟨clients_setHandler_of_ne hj _, slots_setSlot_of_ne hj _,
      Function.update_of_ne hj ..⟩) ?_ (fun r resdata hr => .inl hr) h.closes
  rw [clients_setHandler]
  change SlotInv _ i _ ((setSlot i _ _).slots i) (Function.update s.paired i true i)
  rw [slots_setSlot, Function.update_self]
  have hslot := (h.slots i).kept (hkept .other) nofun
  rw [hclient] at hslot
  have hfirst : give a (.closefd client (.first i)) (give b (.closefd client (.second i)) s.table) a =
      some (.closefd client (.first i)) := give_self _
  have hsecond : give a (.closefd client (.first i))
      (give b (.closefd client (.second i)) s.table) b = some (.closefd client (.second i)) := by
    rw [give_of_ne hne.symm]
    exact give_self _
  have hsame : ∀ client' handler', some (client, Handler.onSendclosefd) = some (client', handler') →
      client = client' := fun client' handler' heq => (Prod.mk.inj (Option.some.inj heq)).1
  refine ⟨fun _ _ _ => hslot.socket client handler rfl, nofun, nofun,
    fun _ client' handler' heq => .inr ?_, fun _ client' handler' heq => .inr ?_,
    fun client' heq => ?_, nofun, hslot.file⟩
  · rw [← hsame _ _ heq]
    exact hfirst
  · rw [← hsame _ _ heq]
    exact hsecond
  · rw [← hsame _ _ heq]
    exact ⟨hfirst, hsecond⟩

theorem onReadreq_inv (h : Inv s) (hclient : s.clients i = some (client, .onReadreq))
    (hstep : onReadreq i client outcome s = some s') : Inv s' := by
  have hslot := h.slots i
  rw [hclient] at hslot
  unfold onReadreq at hstep
  split at hstep
  · cases hstep
    exact h
  · cases hstep
    exact failReadreq_inv h hclient fun _ => hslot.result client rfl
  · dsimp only at hstep
    split at hstep
    · cases hstep
      exact failReadreq_inv h hclient fun _ => hslot.result client rfl
    · split at hstep
      · cases hstep
        have hset : Inv (setSlot i { s.slots i with resfile := none } s) :=
          setSlot_inv h rfl rfl nofun
        refine failReadreq_inv hset hclient ?_
        rw [slots_setSlot]
        exact fun _ => hslot.result client rfl
      · have hopened := openResfile_inv h hclient
        split at hstep
        · have hfail : failReadreq i client (openResfile i s) =
              setHandler i client .cleared (openResfile i s) := by
            unfold failReadreq openResfile
            rw [slots_setSlot]
            rfl
          cases hstep
          change Inv (failReadreq i client (openResfile i s))
          rw [hfail]
          exact hopened
        · rename_i a b hpair
          split at hstep
          · rename_i hfree
            cases hstep
            have hpaired := pair_inv hopened (clients_setHandler _) hfree.1 hfree.2.1 hfree.2.2
            have hslots : (setHandler i client .cleared (openResfile i s)).slots i =
                { s.slots i with resfile := some (s.slots i).resfd, resfd := -1 } :=
              slots_setSlot ..
            rw [hslots] at hpaired
            simp only [setHandler, setSlot, openResfile, Function.update_idem] at hpaired ⊢
            exact hpaired
          · cases hstep

theorem ownedBy_closefd (c : ℕ) (holder : Holder) : ownedBy c (some (.closefd c holder)) = true :=
  decide_eq_true rfl

theorem mem_closes_closeClosefd {c : ℕ} {fd : ℤ} {holder : Holder}
    (h : ∀ close ∈ s.closes, close.2 = true) (howned : s.table fd = some (.closefd c holder)) :
    ∀ close ∈ (closeClosefd c fd s).closes, close.2 = true := by
  intro close hclose
  obtain hclose | hclose := List.mem_append.mp hclose
  · exact h close hclose
  · rw [List.mem_singleton.mp hclose, howned]
    exact ownedBy_closefd c holder

theorem unset_neg : (-1 : ℤ) < 0 := by decide

theorem handOver_of_owned {table : Table ℤ Owner} {fd : ℤ} {before after : Owner}
    (h : table fd = some before) : handOver fd before after table = give fd after table :=
  if_pos h

theorem sent_inv (h : Inv s) (hclient : s.clients i = some (client, .onSendclosefd)) :
    Inv (setHandler i client .cleared
      (setSlot i { s.slots i with closefds := ((s.slots i).closefds.1, -1) }
        (closeClosefd client (s.slots i).closefds.2 s))) := by
  have hslot := h.slots i
  rw [hclient] at hslot
  obtain ⟨hfirst, hsecond⟩ := hslot.sending client rfl
  have hkept : Kept id (.closefd client (.second i)) s.table
      (take (s.slots i).closefds.2 s.table) := .take_owned hsecond rfl
  refine h.slot_step (hkept.at_place rfl)
    (fun j hj => ⟨clients_setHandler_of_ne hj _, slots_setSlot_of_ne hj _, rfl⟩) ?_
    (fun r resdata hr => .inl hr) (mem_closes_closeClosefd h.closes hsecond)
  rw [clients_setHandler]
  change SlotInv _ i _ ((setSlot i _ _).slots i) (s.paired i)
  rw [slots_setSlot]
  refine ⟨fun _ _ _ => ?_, fun hpaired => absurd rfl ((hslot.unpaired hpaired).2 client), nofun,
    fun _ client' handler' heq => .inr ?_, fun _ _ _ _ => .inl unset_neg, nofun, nofun,
    fun fd hfd => ?_⟩
  · exact hkept _ _ nofun (hslot.socket client _ rfl)
  · rw [← (Prod.mk.inj (Option.some.inj heq)).1]
    exact hkept _ _ nofun hfirst
  · exact hkept _ _ nofun (hslot.file fd hfd)

theorem requested_inv (h : Inv s) {handler : Handler}
    (hclient : s.clients i = some (client, handler)) (hpaired : s.paired i = true) {r : ℕ}
    {fd : ℤ} (hfd : s.table fd = some (.closefd client (.first i))) :
    Inv (setHandler i client .onReadfd
      (setSlot i { s.slots i with closefds := (-1, -1), resfile := none }
        { s with
          table := match (s.slots i).resfile with
            | none => handOver fd (.closefd client (.first i)) (.closefd client (.request r)) s.table
            | some file => handOver file (.resultFile i) (.requestFile r)
                (handOver fd (.closefd client (.first i)) (.closefd client (.request r)) s.table)
          requests := Function.update s.requests r (some ⟨client, (s.slots i).resfile, fd⟩)
          nrequests := r + 1 })) := by
  have hslot := h.slots i
  rw [hclient] at hslot
  generalize htable : (match (s.slots i).resfile with
    | none => handOver fd (.closefd client (.first i)) (.closefd client (.request r)) s.table
    | some file => handOver file (.resultFile i) (.requestFile r)
        (handOver fd (.closefd client (.first i)) (.closefd client (.request r)) s.table)) = table
  have hgiven : Kept id (.closefd client (.first i)) s.table
      (give fd (.closefd client (.request r)) s.table) := .give_owned hfd rfl
  rw [handOver_of_owned hfd] at htable
  have hspec : Kept Owner.place (.slot i) s.table table ∧ table i = some (.socket i) ∧
      RequestInv table r ⟨client, (s.slots i).resfile, fd⟩ := by
    cases hfile : (s.slots i).resfile with
    | none =>
      rw [hfile] at htable
      rw [← htable]
      exact ⟨hgiven.at_place rfl, hgiven _ _ nofun (hslot.socket client _ rfl), give_self _, nofun⟩
    | some file =>
      have howned := hgiven file (.resultFile i) nofun (hslot.file file hfile)
      have hkept : Kept id (.resultFile i) (give fd (.closefd client (.request r)) s.table)
          (give file (.requestFile r) (give fd (.closefd client (.request r)) s.table)) :=
        .give_owned howned rfl
      rw [hfile] at htable
      dsimp only at htable
      rw [handOver_of_owned howned] at htable
      rw [← htable]
      refine ⟨(hgiven.at_place rfl).trans (hkept.at_place rfl),
        hkept _ _ nofun (hgiven _ _ nofun (hslot.socket client _ rfl)),
        hkept _ _ nofun (give_self _), fun found hfound => ?_⟩
      rw [← Option.some.inj hfound]
      exact give_self _
  obtain ⟨hkept, hsocket, hrequest⟩ := hspec
  refine h.slot_step hkept
    (fun j hj => ⟨clients_setHandler_of_ne hj _, slots_setSlot_of_ne hj _, rfl⟩) ?_
    (fun q resdata hq => ?_) h.closes
  · rw [clients_setHandler]
    change SlotInv _ i _ ((setSlot i _ _).slots i) (s.paired i)
    rw [slots_setSlot]
    refine ⟨fun _ _ _ => hsocket, fun hunpaired => ?_, nofun, fun _ _ _ _ => .inl unset_neg,
      fun _ _ _ _ => .inl unset_neg, nofun, nofun, nofun⟩
    rw [hpaired] at hunpaired
    cases hunpaired
  · change Function.update s.requests r _ q = some resdata at hq
    by_cases heq : q = r
    · rw [heq, Function.update_self] at hq
      rw [heq, ← Option.some.inj hq]
      exact .inr hrequest
    · rw [Function.update_of_ne heq] at hq
      exact .inl hq

theorem onSendclosefd_inv (h : Inv s) (hclient : s.clients i = some (client, .onSendclosefd))
    (hstep : onSendclosefd i client outcome s = some s') : Inv s' := by
  have hslot := h.slots i
  rw [hclient] at hslot
  obtain ⟨hfirst, hsecond⟩ := hslot.sending client rfl
  unfold onSendclosefd at hstep
  split at hstep
  · cases hstep
    exact h
  · cases hstep
    exact setHandler_inv h hclient nofun nofun
  · have hsent := sent_inv h hclient
    split at hstep
    · cases hstep
      exact hsent
    · cases hstep
      have hpaired : s.paired i = true := by
        by_contra hunpaired
        exact (hslot.unpaired (Bool.eq_false_of_not_eq_true hunpaired)).2 client rfl
      have hkept : Kept id (.closefd client (.second i)) s.table
          (take (s.slots i).closefds.2 s.table) := .take_owned hsecond rfl
      have hrequested := @requested_inv _ i client hsent _ (clients_setHandler _) hpaired s.nrequests
        (s.slots i).closefds.1 (hkept _ _ nofun hfirst)
      have hslots : (setHandler i client .cleared
          (setSlot i { s.slots i with closefds := ((s.slots i).closefds.1, -1) }
            (closeClosefd client (s.slots i).closefds.2 s))).slots i =
          { s.slots i with closefds := ((s.slots i).closefds.1, -1) } := slots_setSlot ..
      rw [hslots] at hrequested
      simp only [setHandler, setSlot, Function.update_idem] at hrequested ⊢
      exact hrequested

theorem closeClosefd_spec {fd : ℤ} {holder : Holder} (h : ∀ close ∈ s.closes, close.2 = true)
    (howned : fd < 0 ∨ s.table fd = some (.closefd client holder)) :
    ∃ table closes, (if fd ≥ 0 then closeClosefd client fd s else s) =
        { s with table := table, closes := closes } ∧
      Kept id (.closefd client holder) s.table table ∧ ∀ close ∈ closes, close.2 = true := by
  split
  · rename_i hge
    have howned := howned.resolve_left (not_lt.mpr hge)
    exact ⟨_, _, rfl, .take_owned howned rfl, mem_closes_closeClosefd h howned⟩
  · exact ⟨s.table, s.closes, rfl, .refl, h⟩

theorem unset_lt (fd : ℤ) : (if fd ≥ 0 then -1 else fd) < 0 := by
  split <;> omega

theorem resolverCliCleanup_spec (h : Inv s)
    (hclient : s.clients i = some (client, handler)) (hpaired : s.paired i = true) :
    ∃ table closes ecli, resolverCliCleanup i client s =
        setSlot i ecli { s with table := table, closes := closes } ∧
      Kept Owner.place (.slot i) s.table table ∧ table i = some (.socket i) ∧
      (∀ close ∈ closes, close.2 = true) ∧ ecli.closefds.1 < 0 ∧ ecli.closefds.2 < 0 ∧
      ecli.resfile = none := by
  have hslot := h.slots i
  rw [hclient] at hslot
  obtain ⟨table₁, closes₁, hclose₁, hkept₁, hgood₁⟩ :=
    closeClosefd_spec h.closes (hslot.first hpaired client handler rfl)
  obtain ⟨table₂, closes₂, hclose₂, hkept₂, hgood₂⟩ :=
    @closeClosefd_spec { s with table := table₁, closes := closes₁ } client (s.slots i).closefds.2
      (.second i) hgood₁ ((hslot.second hpaired client handler rfl).imp_right (hkept₁ _ _ nofun))
  have hkept : Kept Owner.place (.slot i) s.table table₂ :=
    (hkept₁.at_place rfl).trans (hkept₂.at_place rfl)
  have hsocket := hkept₂ i (.socket i) nofun
    (hkept₁ i (.socket i) nofun (hslot.socket client handler rfl))
  unfold resolverCliCleanup
  simp only [hclose₁, hclose₂]
  cases hfile : (s.slots i).resfile with
  | none =>
    exact ⟨table₂, closes₂, _, rfl, hkept, hsocket, hgood₂, unset_lt _, unset_lt _, rfl⟩
  | some file =>
    have hfile := hkept₂ file (.resultFile i) nofun
      (hkept₁ file (.resultFile i) nofun (hslot.file file hfile))
    have htaken : Kept id (.resultFile i) table₂ (take file table₂) := .take_owned hfile rfl
    exact ⟨take file table₂, closes₂, _, rfl, hkept.trans (htaken.at_place rfl),
      htaken _ _ nofun hsocket, hgood₂, unset_lt _, unset_lt _, rfl⟩

theorem removeClient_inv (h : Inv s)
    (hclient : s.clients i = some (client, handler)) (hpaired : s.paired i = true) :
    Inv (removeClient i client s) := by
  obtain ⟨table, closes, ecli, hcleanup, hkept, hsocket, hgood, hfirst, hsecond, hfile⟩ :=
    resolverCliCleanup_spec h hclient hpaired
  unfold removeClient
  rw [hcleanup]
  have htaken : Kept Owner.place (.slot i) table (take i table) := .take_owned hsocket rfl
  refine h.slot_step (hkept.trans htaken)
    (fun j hj => ⟨Function.update_of_ne hj .., slots_setSlot_of_ne hj _, rfl⟩) ?_
    (fun r resdata hr => .inl hr) hgood
  change SlotInv _ i (Function.update s.clients i none i) ((setSlot i _ _).slots i) (s.paired i)
  rw [Function.update_self, slots_setSlot]
  refine ⟨nofun, fun hunpaired => ?_, fun _ _ => ⟨hfirst, hsecond⟩, nofun, nofun, nofun, nofun, ?_⟩
  · rw [hpaired] at hunpaired
    cases hunpaired
  · rw [hfile]
    exact nofun

end

theorem resOnDone_inv (h : Inv s) {r : ℕ} {resdata : ResolverData}
    (hr : s.requests r = some resdata) : Inv (resOnDone r resdata s) := by
  obtain ⟨hclosefd, hfile⟩ := h.requests r resdata hr
  have hspec : ∃ table closes, resOnDone r resdata s =
      { s with table := table, closes := closes, requests := Function.update s.requests r none } ∧
      Kept Owner.place (.request r) s.table table ∧ ∀ close ∈ closes, close.2 = true := by
    unfold resOnDone
    cases hresfile : resdata.resfile with
    | none =>
      exact ⟨_, _, rfl, .take_owned hclosefd rfl,
        mem_closes_closeClosefd h.closes hclosefd⟩
    | some file =>
      have htaken : Kept id (.requestFile r) s.table (take file s.table) :=
        .take_owned (hfile file hresfile) rfl
      have howned := htaken _ (.closefd resdata.client (.request r)) nofun hclosefd
      refine ⟨_, _, rfl, (htaken.at_place rfl).trans (.take_owned howned rfl), ?_⟩
      exact @mem_closes_closeClosefd (closeFd file s) _ _ _ h.closes howned
  obtain ⟨table, closes, heq, hkept, hgood⟩ := hspec
  rw [heq]
  refine ⟨fun i => (h.slots i).kept hkept nofun, fun q other hq => ?_, hgood⟩
  change Function.update s.requests r none q = some other at hq
  by_cases hqr : q = r
  · rw [hqr, Function.update_self] at hq
    cases hq
  · rw [Function.update_of_ne hqr] at hq
    exact (h.requests q other hq).kept hkept fun heq => hqr (Place.request.inj heq)

theorem Inv.elsewhere (h : Inv s) {table : Table ℤ Owner}
    (hkept : Kept Owner.place .other s.table table) : Inv { s with table := table } :=
  ⟨fun i => (h.slots i).kept hkept nofun,
    fun r resdata hr => (h.requests r resdata hr).kept hkept nofun, h.closes⟩

theorem accept_inv (h : Inv s) {fd : ℤ} (hfree : Free s fd) :
    Inv { s with
      table := give fd (.socket fd) s.table
      clients := Function.update s.clients fd (some (s.nclients, .onReadable))
      nclients := s.nclients + 1 } := by
  refine h.slot_step (.give_free hfree.2 _) (fun j hj => ⟨Function.update_of_ne hj .., rfl, rfl⟩) ?_
    (fun r resdata hr => .inl hr) h.closes
  change SlotInv _ fd (Function.update s.clients fd _ fd) _ _
  rw [Function.update_self]
  have hslot := h.slots fd
  have hnone : s.clients fd = none := by
    cases hclient : s.clients fd with
    | none => rfl
    | some client =>
      have hsocket := hslot.socket client.1 client.2 hclient
      rw [hfree.2] at hsocket
      cases hsocket
  have hkept : Kept Owner.place .other s.table (give fd (.socket fd) s.table) :=
    .give_free hfree.2 _
  refine ⟨fun _ _ _ => give_self _, fun hunpaired => ⟨(hslot.unpaired hunpaired).1, nofun⟩, nofun,
    fun hpaired _ _ _ => .inl (hslot.idle hpaired hnone).1,
    fun hpaired _ _ _ => .inl (hslot.idle hpaired hnone).2, nofun, nofun,
    fun file hfile => hkept _ _ nofun (hslot.file file hfile)⟩

theorem callback_inv {s' : State} (h : Inv s) {slot : ℤ} {outcome : Outcome}
    (hstep : callback slot outcome s = some s') : Inv s' := by
  unfold callback at hstep
  split at hstep
  · rename_i hclient
    exact resolverOnReadable_inv h hclient hstep
  · rename_i hclient
    exact onReadfd_inv h hclient hstep
  · rename_i hclient
    exact onReadreq_inv h hclient hstep
  · rename_i hclient
    exact onSendclosefd_inv h hclient hstep
  · cases hstep

theorem step_inv {s' : State} {event : Event} (h : Inv s) (hpaired : Paired s event)
    (hstep : step s event = some s') : Inv s' := by
  cases event with
  | accept fd =>
    simp only [step] at hstep
    split at hstep
    · rename_i hfree
      cases hstep
      exact accept_inv h hfree
    · cases hstep
  | callback slot outcome => exact callback_inv h hstep
  | remove slot =>
    simp only [step] at hstep
    split at hstep
    · rename_i client hclient
      cases hstep
      exact removeClient_inv h hclient (hpaired slot rfl)
    · cases hstep
  | done r =>
    obtain ⟨resdata, hr, rfl⟩ := Option.map_eq_some_iff.mp hstep
    exact resOnDone_inv h hr
  | opened fd =>
    simp only [step] at hstep
    split at hstep
    · rename_i hfree
      cases hstep
      exact h.elsewhere (.give_free hfree.2 _)
    · cases hstep
  | closed fd =>
    simp only [step] at hstep
    split at hstep
    · rename_i hother
      cases hstep
      exact h.elsewhere (.take_owned hother rfl)
    · cases hstep

theorem started_inv (opened : Finset ℤ) : Inv (started opened) :=
  ⟨fun _ => ⟨nofun, fun _ => ⟨rfl, nofun⟩, nofun, nofun, nofun, nofun, nofun, nofun⟩, nofun,
    nofun⟩

theorem Run.inv (h : Run Paired s) : Inv s := by
  refine Reachable.invariant ?_ ?_ h
  · rintro s ⟨opened, rfl⟩
    exact started_inv opened
  · exact fun before event after hbefore hpaired hstep => step_inv hbefore hpaired hstep

theorem unpaired_end {s' : State} (h : Inv s) {slot : ℤ} (hunpaired : s.paired slot = false)
    (hstep : step s (.remove slot) = some s') : (0, false) ∈ s'.closes := by
  simp only [step] at hstep
  split at hstep
  · rename_i client hclient
    cases hstep
    have hzero := ((h.slots slot).unpaired hunpaired).1
    have hcloses : ((0 : ℤ), false) ∈ (closeClosefd client 0 (closeClosefd client 0 s)).closes := by
      refine List.mem_append_right _ (List.mem_singleton.mpr ?_)
      change (0, false) = (0, ownedBy client (take 0 s.table 0))
      rw [take_self]
      rfl
    unfold removeClient resolverCliCleanup
    simp only [hzero, ge_iff_le, le_refl, if_true]
    cases (s.slots slot).resfile with
    | none => exact hcloses
    | some file => exact hcloses
  · cases hstep

/-- The resolver closes its own descriptors only, in every run in which no client
ends in a slot in which no socket pair has been made; the first client that does
so has the descriptor 0 closed twice. -/
theorem closes_own {s : State} (h : Run Paired s) :
    (∀ close ∈ s.closes, close.2 = true) ∧
      ∀ event s', step s event = some s' →
        ((∀ close ∈ s'.closes, close.2 = true) ↔ Paired s event) := by
  have hinv := Run.inv h
  refine ⟨hinv.closes, fun event s' hstep => ⟨fun hcloses slot hevent => ?_, fun hpaired => ?_⟩⟩
  · by_contra hunpaired
    rw [hevent] at hstep
    have hbad := hcloses _ (unpaired_end hinv (Bool.eq_false_of_not_eq_true hunpaired) hstep)
    cases hbad
  · exact (step_inv hinv hpaired hstep).closes

def plain : Outcome := ⟨.ok, 5, true, true, some (6, 7), true⟩

def serving : List Event :=
  [.accept 4, .callback 4 plain, .callback 4 plain, .callback 4 plain, .callback 4 plain, .done 0,
    .callback 4 { plain with status := .failure }]

theorem serving_paired : ∀ event ∈ serving, ∀ s, Paired s event := by
  intro event hevent s slot heq
  rw [heq] at hevent
  exact absurd hevent (by simp [serving])

theorem closes_own_sample : ∃ s : State, s.closes = [(7, true), (6, true)] ∧
    ∀ close ∈ s.closes, close.2 = true := by
  have hsteps : serving.foldlM step (started {0, 1, 2, 3}) = some _ := rfl
  have hserved : Run Paired _ :=
    Reachable.foldlM (fun _ _ _ hnext => hnext) serving_paired (.initial ⟨_, rfl⟩) hsteps
  have hremoved : Run Paired _ :=
    @Reachable.step _ _ _ _ _ _ _ (.remove 4) hserved (fun _ heq => by cases heq; rfl) rfl
  exact ⟨_, by decide, (closes_own hremoved).1⟩

def leaving : List Event :=
  [.accept 4, .callback 4 plain, .callback 4 { plain with status := .failure }, .remove 4]

theorem closes_descriptor_zero : ¬ ∀ s, Run (fun _ _ => True) s →
    ∀ close ∈ s.closes, close.2 = true := by
  intro hown
  have hsteps : leaving.foldlM step (started {0, 1, 2, 3}) = some _ := rfl
  have hrun : Run (fun _ _ => True) _ :=
    Reachable.foldlM (fun _ _ _ hnext => hnext) (fun _ _ _ => trivial) (.initial ⟨_, rfl⟩) hsteps
  exact absurd (hown _ hrun) (by decide)

end Yans.Apps.Resolver
