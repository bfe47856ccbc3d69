import Mathlib.Data.Finset.Card
import Mathlib.Data.Finset.Range
import Mathlib.Logic.Function.Basic

/-! `lib/util/eds.c`: accepting and removing clients in the event loop. The
kernel hands out the lowest unused descriptor number; callbacks and tickers
appear through the clients they remove. -/
namespace Yans.Util.Eds

/-- The service fields the loop reads. `eds_service_init` replaces zero by
`FD_SETSIZE` and refuses more. -/
structure EdsService where
  nfds : ℕ
  cmdfd : ℕ
  onReadable : Bool
  onWritable : Bool
  nfds_pos : 0 < nfds

/-- The flags of an `eds_client`. -/
structure EdsClient where
  externalFd : Bool
  removed : Bool
  inUse : Bool
deriving DecidableEq

/-- The listener with the table of open descriptors beside it. -/
structure Listener where
  maxfd : ℕ
  rfds : Finset ℕ
  wfds : Finset ℕ
  cdata : ℕ → EdsClient
  opened : Finset ℕ

/-- The state before the first `select`. -/
def Listener.init (svc : EdsService) (opened : Finset ℕ) : Listener where
  maxfd := svc.cmdfd
  rfds := {svc.cmdfd}
  wfds := ∅
  cdata _ := ⟨false, false, false⟩
  opened := opened

def lowestUnused (opened : Finset ℕ) : ℕ :=
  ((List.range (opened.card + 1)).find? fun fd => fd ∉ opened).getD 0

def edsServiceAddClient (svc : EdsService) (l : Listener) (fd : ℕ) : Listener :=
  let maxfd := if fd > l.maxfd then fd else l.maxfd
  let rfds := if svc.onReadable then insert fd l.rfds else l.rfds
  let wfds := if svc.onWritable then insert fd l.wfds else l.wfds
  -- accepting stops when the last descriptor of the client array is taken
  let rfds := if fd ≥ svc.nfds - 1 then rfds.erase svc.cmdfd else rfds
  { l with
    maxfd := maxfd
    rfds := rfds
    wfds := wfds
    cdata := Function.update l.cdata fd ⟨false, false, true⟩ }

def edsServiceRemoveClient (svc : EdsService) (l : Listener) (fd : ℕ) : Listener :=
  if (l.cdata fd).removed then l
  else
    { l with
      rfds := insert svc.cmdfd (l.rfds.erase fd)
      wfds := l.wfds.erase fd
      cdata := Function.update l.cdata fd ⟨true, true, false⟩
      opened := if (l.cdata fd).externalFd then l.opened else l.opened.erase fd }

/-- What `select` and `accept4` find at the listening socket. -/
inductive CmdfdEvent where
  | quiet
  | aborted
  | connection
deriving DecidableEq

/-- One round of the loop: the listening socket, then the clients removed by
callbacks and tickers, in order. -/
structure Iteration where
  cmdfd : CmdfdEvent
  removals : List ℕ
deriving DecidableEq

/-- Callbacks can only name slots that were handed to them. -/
def runCallbacks (svc : EdsService) (l : Listener) : List ℕ → Listener
  | [] => l
  | fd :: rest =>
    if (l.cdata fd).inUse ∨ (l.cdata fd).removed then
      runCallbacks svc (edsServiceRemoveClient svc l fd) rest
    else runCallbacks svc l rest

def acceptClient (svc : EdsService) (l : Listener) : Listener :=
  let fd := lowestUnused l.opened
  edsServiceAddClient svc { l with opened := insert fd l.opened } fd

/-- One pass from `select` to `select`, with the descriptor passed to
`eds_service_add_client`, if any. -/
def mainloopIteration (svc : EdsService) (l : Listener) (it : Iteration) :
    Option ℕ × Listener :=
  if svc.cmdfd ∈ l.rfds then
    match it.cmdfd with
    | .quiet => (none, runCallbacks svc l it.removals)
    | .aborted => (none, l)
    | .connection =>
      (some (lowestUnused l.opened), runCallbacks svc (acceptClient svc l) it.removals)
  else (none, runCallbacks svc l it.removals)

/-- The descriptors passed on over a whole run, in order. -/
def edsServeSingleMainloop (svc : EdsService) (l : Listener) : List Iteration → List ℕ × Listener
  | [] => ([], l)
  | it :: rest =>
    let (accepted, l) := mainloopIteration svc l it
    let (more, l) := edsServeSingleMainloop svc l rest
    (accepted.toList ++ more, l)

theorem lowestUnused_spec (opened : Finset ℕ) :
    lowestUnused opened ∉ opened ∧ ∀ fd < lowestUnused opened, fd ∈ opened := by
  obtain ⟨free, hfree, hunused⟩ : ∃ free ∈ Finset.range (opened.card + 1), free ∉ opened := by
    apply Finset.exists_mem_notMem_of_card_lt_card
    rw [Finset.card_range]
    exact Nat.lt_succ_self _
  unfold lowestUnused
  cases hfind : (List.range (opened.card + 1)).find? fun fd => fd ∉ opened with
  | none =>
    have hall := List.find?_range_eq_none.mp hfind free (Finset.mem_range.mp hfree)
    simp [hunused] at hall
  | some fd =>
    obtain ⟨hfd, -, hlow⟩ := List.find?_range_eq_some.mp hfind
    refine ⟨by simpa using hfd, ?_⟩
    intro other hother
    simpa using hlow other hother

/-- The descriptors of the client array that are not in use. -/
def freeBelow (svc : EdsService) (l : Listener) : Finset ℕ :=
  (Finset.range svc.nfds).filter fun fd => fd ∉ l.opened

theorem mem_freeBelow {svc : EdsService} {l : Listener} {fd : ℕ} :
    fd ∈ freeBelow svc l ↔ fd < svc.nfds ∧ fd ∉ l.opened := by
  simp [freeBelow]

/-- The invariant of the loop. While the listening socket is watched, some
descriptor below `nfds` is free; every client in use owns an open one. -/
structure Inv (svc : EdsService) (l : Listener) : Prop where
  room : svc.cmdfd ∈ l.rfds → (freeBelow svc l).Nonempty
  client : ∀ fd, (l.cdata fd).inUse = true →
    (l.cdata fd).removed = false ∧ (l.cdata fd).externalFd = false ∧ fd < svc.nfds

variable {svc : EdsService} {l : Listener}

theorem Inv.remove (inv : Inv svc l) (fd : ℕ)
    (hclient : (l.cdata fd).inUse ∨ (l.cdata fd).removed) :
    Inv svc (edsServiceRemoveClient svc l fd) := by
  unfold edsServiceRemoveClient
  split
  · exact inv
  · rename_i hlive
    have hinUse : (l.cdata fd).inUse = true := by simpa [hlive] using hclient
    obtain ⟨-, hexternal, hbelow⟩ := inv.client fd hinUse
    refine ⟨fun _ => ⟨fd, mem_freeBelow.mpr ⟨hbelow, ?_⟩⟩, ?_⟩
    · simp [hexternal]
    · intro other hother
      dsimp only at hother ⊢
      by_cases heq : other = fd
      · subst heq
        simp at hother
      · rw [Function.update_of_ne heq] at hother ⊢
        exact inv.client other hother

theorem Inv.callbacks (removals : List ℕ) :
    ∀ {l : Listener}, Inv svc l → Inv svc (runCallbacks svc l removals) := by
  induction removals with
  | nil => exact fun inv => inv
  | cons fd rest ih =>
    intro l inv
    unfold runCallbacks
    split
    · rename_i hclient
      exact ih (inv.remove fd hclient)
    · exact ih inv

/-- A connection is not taken by the last free descriptor below `nfds`, unless
that is the one whose use stops the accepting. -/
def AcceptMeets (svc : EdsService) (l : Listener) : Prop :=
  (freeBelow svc l).card = 1 → svc.nfds - 1 ∈ freeBelow svc l

instance : Decidable (AcceptMeets svc l) :=
  inferInstanceAs (Decidable (_ → _))

theorem Inv.lowestUnused_lt (inv : Inv svc l) (hwatched : svc.cmdfd ∈ l.rfds) :
    lowestUnused l.opened < svc.nfds := by
  obtain ⟨free, hfree⟩ := inv.room hwatched
  obtain ⟨hlt, hunused⟩ := mem_freeBelow.mp hfree
  by_contra hle
  exact hunused ((lowestUnused_spec l.opened).2 free (by omega))

theorem freeBelow_accept : freeBelow svc (acceptClient svc l) =
    (freeBelow svc l).erase (lowestUnused l.opened) := by
  ext fd
  rw [Finset.mem_erase, mem_freeBelow, mem_freeBelow]
  simp only [acceptClient, edsServiceAddClient, Finset.mem_insert, not_or]
  tauto

/-- Accepting: the descriptor lies below `nfds`, and either it is the last one
and the socket is no longer watched, or another one is still free. -/
theorem Inv.accept (inv : Inv svc l) (hwatched : svc.cmdfd ∈ l.rfds)
    (hmeets : AcceptMeets svc l) : Inv svc (acceptClient svc l) := by
  have hlt := inv.lowestUnused_lt hwatched
  obtain ⟨hunused, hlow⟩ := lowestUnused_spec l.opened
  have hmem : lowestUnused l.opened ∈ freeBelow svc l := mem_freeBelow.mpr ⟨hlt, hunused⟩
  refine ⟨?_, ?_⟩
  · intro hstill
    rw [freeBelow_accept, ← Finset.card_pos, Finset.card_erase_of_mem hmem]
    have hpos := Finset.card_pos.mpr ⟨_, hmem⟩
    by_contra hfull
    -- the only free descriptor was the last one, so the socket was cleared
    have hone : (freeBelow svc l).card = 1 := by omega
    obtain ⟨only, honly⟩ := Finset.card_eq_one.mp hone
    have hlast := hmeets hone
    rw [honly, Finset.mem_singleton] at hmem hlast
    have hge : lowestUnused l.opened ≥ svc.nfds - 1 := by omega
    unfold acceptClient edsServiceAddClient at hstill
    dsimp only at hstill
    rw [if_pos hge] at hstill
    exact absurd rfl (Finset.ne_of_mem_erase hstill)
  · intro other hother
    by_cases heq : other = lowestUnused l.opened
    · subst heq
      refine ⟨?_, ?_, hlt⟩ <;> simp [acceptClient, edsServiceAddClient]
    · have hsame : (acceptClient svc l).cdata other = l.cdata other := by
        simp [acceptClient, edsServiceAddClient, Function.update_of_ne heq]
      rw [hsame] at hother ⊢
      exact inv.client other hother

def IterationMeets (svc : EdsService) (l : Listener) (it : Iteration) : Prop :=
  svc.cmdfd ∈ l.rfds → it.cmdfd = .connection → AcceptMeets svc l

instance (it : Iteration) : Decidable (IterationMeets svc l it) :=
  inferInstanceAs (Decidable (_ → _ → _))

def RunMeets (svc : EdsService) (l : Listener) : List Iteration → Prop
  | [] => True
  | it :: rest => IterationMeets svc l it ∧ RunMeets svc (mainloopIteration svc l it).2 rest

theorem Inv.iteration (inv : Inv svc l) {it : Iteration} (hmeets : IterationMeets svc l it) :
    (∀ fd ∈ (mainloopIteration svc l it).1, fd < svc.nfds) ∧
      Inv svc (mainloopIteration svc l it).2 := by
  unfold mainloopIteration
  split
  · rename_i hwatched
    cases hevent : it.cmdfd with
    | quiet => exact ⟨by simp, inv.callbacks it.removals⟩
    | aborted => exact ⟨by simp, inv⟩
    | connection =>
      have haccept := inv.accept hwatched (hmeets hwatched hevent)
      exact ⟨by simpa using inv.lowestUnused_lt hwatched, haccept.callbacks it.removals⟩
  · exact ⟨by simp, inv.callbacks it.removals⟩

theorem Inv.mainloop (run : List Iteration) : ∀ {l : Listener}, Inv svc l → RunMeets svc l run →
    ∀ fd ∈ (edsServeSingleMainloop svc l run).1, fd < svc.nfds := by
  induction run with
  | nil => simp [edsServeSingleMainloop]
  | cons it rest ih =>
    intro l inv hmeets fd hfd
    obtain ⟨hbelow, hinv⟩ := inv.iteration hmeets.1
    simp only [edsServeSingleMainloop, List.mem_append, Option.mem_toList] at hfd
    obtain hnow | hlater := hfd
    · exact hbelow fd hnow
    · exact ih hinv hmeets.2 fd hlater

/-- In a run that starts with a free descriptor below `nfds` and never gives the
last free one to a client while `nfds - 1` is in use, every accepted descriptor
lies in the client array. -/
theorem accepted_below_nfds (svc : EdsService) (opened : Finset ℕ)
    (hroom : (freeBelow svc (Listener.init svc opened)).Nonempty) (run : List Iteration)
    (hrun : RunMeets svc (Listener.init svc opened) run) :
    ∀ fd ∈ (edsServeSingleMainloop svc (Listener.init svc opened) run).1, fd < svc.nfds := by
  have inv : Inv svc (Listener.init svc opened) :=
    ⟨fun _ => hroom, by intro fd h; simp [Listener.init] at h⟩
  exact inv.mainloop run hrun

/-- A service with two client slots, `4` and `5`, behind the listening socket. -/
def twoSlots : EdsService := ⟨6, 3, true, false, by decide⟩

/-- Fill the array, drain it from the top, fill it again. -/
theorem accepted_below_nfds_run :
    (edsServeSingleMainloop twoSlots (Listener.init twoSlots {0, 1, 2, 3})
        [⟨.connection, []⟩, ⟨.connection, [5]⟩, ⟨.quiet, [4]⟩, ⟨.connection, []⟩,
          ⟨.connection, []⟩, ⟨.connection, []⟩]).1 = [4, 5, 4, 5] ∧
      ∀ fd ∈ (edsServeSingleMainloop twoSlots (Listener.init twoSlots {0, 1, 2, 3})
        [⟨.connection, []⟩, ⟨.connection, [5]⟩, ⟨.quiet, [4]⟩, ⟨.connection, []⟩,
          ⟨.connection, []⟩, ⟨.connection, []⟩]).1, fd < twoSlots.nfds := by
  refine ⟨by decide, ?_⟩
  apply accepted_below_nfds twoSlots {0, 1, 2, 3} (by decide)
  simp only [RunMeets]
  decide

/-- The array is full, its lower client leaves and a new one takes the place:
the socket is still watched, and the next client gets descriptor `6`. -/
theorem accepted_beyond_nfds :
    ¬ ∀ fd ∈ (edsServeSingleMainloop twoSlots (Listener.init twoSlots {0, 1, 2, 3})
      [⟨.connection, []⟩, ⟨.connection, []⟩, ⟨.quiet, [4]⟩, ⟨.connection, []⟩,
        ⟨.connection, []⟩]).1, fd < twoSlots.nfds := by
  decide

end Yans.Util.Eds
