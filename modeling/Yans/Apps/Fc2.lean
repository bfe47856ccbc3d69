import Mathlib.Data.Fintype.Basic
import Mathlib.Data.Finset.Card
import Yans.Library.Handles
import Yans.Library.Runs

/-! The clients of `apps/fc2/fc2.c` in the slots of `lib/util/eds.c`, and the CGI
processes that are forked for them and killed. The data in a slot stays there for
the next client of the slot. -/
namespace Yans.Apps.Fc2

open Library.Handles Library.Runs

/-- `struct fc2_ctx`. In `struct fc2_cgi` the parent is where `child_cli` is here. -/
structure Fc2Ctx (nfds : ℕ) where
  exitStatus : ℤ
  childCli : Option (Fin nfds)
  cgiPid : ℤ
deriving DecidableEq

/-- The callback that a FastCGI client waits in: also the response to a request
that cannot be served, and no callback at all. -/
inductive Stage where
  | readable
  | readReq
  | fcgiMsg
  | response
  | cleared
deriving DecidableEq

/-- A slot serves a FastCGI client, which has a number, or a CGI process. -/
inductive Role where
  | fcgi (client : ℕ) (stage : Stage)
  | cgi
deriving DecidableEq

/-- `live` tells whether the process was forked for the client and has not been
reaped. -/
structure Kill where
  client : ℕ
  pid : ℤ
  live : Bool
deriving DecidableEq

/-- `processes` has the children that have not been reaped, with the clients they
were forked for. -/
structure State (nfds : ℕ) where
  processes : Table ℤ ℕ
  clients : Fin nfds → Option Role
  ctxs : Fin nfds → Fc2Ctx nfds
  maxfd : ℕ
  nclients : ℕ
  kills : List Kill

variable {nfds : ℕ}

/-- What becomes of a request: `fcgi_cli_readparams` waits or fails, there is no
such program, or it is forked. Memory may be short for the response or for the
output of the program. -/
inductive Outcome (nfds : ℕ) where
  | again
  | err
  | notFound
  | noResponse
  | forkFailure
  | forked (pid : ℤ) (procfd : Fin nfds)
  | noOutbuf (pid : ℤ) (procfd : Fin nfds)
deriving DecidableEq

inductive Event (nfds : ℕ) where
  | accept (fd : Fin nfds)
  | readable (i : Fin nfds)
  | readReq (i : Fin nfds) (outcome : Outcome nfds)
  /-- The end of a client by an error, by its last response or because it has no
  callback left. -/
  | remove (i : Fin nfds)
  | reap (pid status : ℤ)
deriving DecidableEq

def setCtx (i : Fin nfds) (ctx : Fc2Ctx nfds) (s : State nfds) : State nfds :=
  { s with ctxs := Function.update s.ctxs i ctx }

def setClient (i : Fin nfds) (role : Option Role) (s : State nfds) : State nfds :=
  { s with clients := Function.update s.clients i role }

def kill (client : ℕ) (pid : ℤ) (s : State nfds) : State nfds :=
  { s with kills := s.kills ++ [⟨client, pid, decide (s.processes pid = some client)⟩] }

/-- `eds_service_add_client`; it leaves the data in the slot alone. -/
def addClient (fd : Fin nfds) (role : Role) (s : State nfds) : State nfds :=
  setClient fd (some role) { s with maxfd := max s.maxfd fd }

/-- The kill in `on_done`. -/
def killCgi (i : Fin nfds) (client : ℕ) (s : State nfds) : State nfds :=
  if (s.ctxs i).cgiPid > 0 ∧ (s.ctxs i).exitStatus < 0 then kill client (s.ctxs i).cgiPid s else s

def inUse (s : State nfds) : Finset (Fin nfds) := Finset.univ.filter fun i => s.clients i ≠ none

@[simp] theorem clients_killCgi (i : Fin nfds) (client : ℕ) (s : State nfds) :
    (killCgi i client s).clients = s.clients := by
  unfold killCgi
  split
  · rfl
  · rfl

theorem inUse_setClient_none {i : Fin nfds} {s : State nfds} (h : s.clients i ≠ none) :
    (inUse (setClient i none s)).card < (inUse s).card := by
  apply Finset.card_lt_card
  refine Finset.ssubset_iff_subset_ne.mpr ⟨fun j hj => ?_, fun heq => ?_⟩
  · rw [inUse, Finset.mem_filter] at hj ⊢
    refine ⟨Finset.mem_univ j, ?_⟩
    by_cases hij : j = i
    · exact hij ▸ h
    · have hsame : (setClient i none s).clients j = s.clients j := Function.update_of_ne hij ..
      exact hsame ▸ hj.2
  · have hmem : i ∈ inUse s := Finset.mem_filter.mpr ⟨Finset.mem_univ i, h⟩
    rw [← heq] at hmem
    exact (Finset.mem_filter.mp hmem).2 (Function.update_self ..)

/-- `eds_service_remove_client`, with the callback of the client: `on_done`, or
`on_childproc_done`, which removes the parent. -/
def removeClient (i : Fin nfds) (s : State nfds) : State nfds :=
  match _hrole : s.clients i with
  | none => s
  | some .cgi =>
    let s' := setClient i none s
    match (s.ctxs i).childCli with
    | none => s'
    | some parent => removeClient parent s'
  | some (.fcgi client _) =>
    let s' := killCgi i client (setClient i none s)
    match (s.ctxs i).childCli with
    | none => s'
    | some child =>
      let s' := removeClient child s'
      setCtx i { s'.ctxs i with childCli := none } s'
termination_by (inUse s).card
decreasing_by
  · exact inUse_setClient_none (by simp [_hrole])
  · have hsame : inUse (killCgi i client (setClient i none s)) = inUse (setClient i none s) := by
      unfold inUse
      rw [clients_killCgi]
    rw [hsame]
    exact inUse_setClient_none (by simp [_hrole])

def CanFork (pid : ℤ) (procfd : Fin nfds) (s : State nfds) : Prop :=
  0 < pid ∧ s.processes pid = none ∧ s.clients procfd = none

instance (pid : ℤ) (procfd : Fin nfds) (s : State nfds) : Decidable (CanFork pid procfd s) :=
  inferInstanceAs (Decidable (_ ∧ _))

/-- From `fork_reqproc` to the setting of the parent. -/
def forkReqproc (i : Fin nfds) (client : ℕ) (pid : ℤ) (procfd : Fin nfds) (s : State nfds) :
    State nfds :=
  let s := addClient procfd .cgi { s with processes := give pid client s.processes }
  let s := setCtx i { s.ctxs i with childCli := some procfd } s
  setCtx procfd { s.ctxs procfd with childCli := some i } s

def onReadReq (i : Fin nfds) (client : ℕ) (s : State nfds) : Outcome nfds → Option (State nfds)
  | .again => some s
  | .err | .noResponse | .forkFailure => some (setClient i (some (.fcgi client .cleared)) s)
  | .notFound => some (setClient i (some (.fcgi client .response)) s)
  | .forked pid procfd =>
    if CanFork pid procfd s then
      let s := forkReqproc i client pid procfd s
      some (setClient i (some (.fcgi client .fcgiMsg))
        (setCtx i { s.ctxs i with cgiPid := pid } s))
    else none
  | .noOutbuf pid procfd =>
    if CanFork pid procfd s then
      some (setClient i (some (.fcgi client .cleared))
        (kill client pid (forkReqproc i client pid procfd s)))
    else none

/-- A child that has been waited for, and `on_cli_reaped_child` for the clients. -/
def reapChild (pid status : ℤ) (s : State nfds) : State nfds :=
  { s with
    processes := take pid s.processes
    ctxs := fun i =>
      if i.val < s.maxfd ∧ s.clients i ≠ none ∧ (s.ctxs i).cgiPid = pid then
        { s.ctxs i with exitStatus := status }
      else s.ctxs i }

def step (s : State nfds) : Event nfds → Option (State nfds)
  | .accept fd =>
    if s.clients fd = none then
      some (addClient fd (.fcgi s.nclients .readable) { s with nclients := s.nclients + 1 })
    else none
  | .readable i =>
    match s.clients i with
    | some (.fcgi client .readable) =>
      some (setClient i (some (.fcgi client .readReq))
        (setCtx i { s.ctxs i with exitStatus := -1 } s))
    | _ => none
  | .readReq i outcome =>
    match s.clients i with
    | some (.fcgi client .readReq) => onReadReq i client s outcome
    | _ => none
  | .remove i =>
    match s.clients i with
    | none | some (.fcgi _ .readable) | some (.fcgi _ .readReq) => none
    | _ => some (removeClient i s)
  | .reap pid status =>
    if s.processes pid ≠ none ∧ 0 ≤ status then some (reapChild pid status s) else none

/-- The service right after its start: `cdata` is zero. -/
def started (cmdfd : ℕ) : State nfds where
  processes := fun _ => none
  clients := fun _ => none
  ctxs := fun _ => ⟨0, none, 0⟩
  maxfd := cmdfd
  nclients := 0
  kills := []

abbrev Run (allowed : State nfds → Event nfds → Prop) (s : State nfds) : Prop :=
  Reachable (fun s => ∃ cmdfd, s = started cmdfd) allowed (fun s event s' => step s event = some s') s

end Yans.Apps.Fc2

/-! Whom `fc2` kills. A pid stays in a slot when its client has ended, and a client
in the slot of the highest descriptor is not told that its process was reaped. -/
namespace Yans.Apps.Fc2

open Library.Handles Library.Runs

variable {nfds : ℕ}

/-- The clients that end with the one in a slot: each end goes on to the slot that
the data of the slot leads to. -/
inductive Ends (s : State nfds) : Fin nfds → Fin nfds → Prop where
  | here (i : Fin nfds) : Ends s i i
  | next {i j k : Fin nfds} (inUse : s.clients i ≠ none) (link : (s.ctxs i).childCli = some j)
      (rest : Ends s j k) : Ends s i k

/-- If a client in this slot ended, no pid would be there but its own: it has
forked, or the slot has no pid, or the pid's end has been reported there. -/
def NoStalePid (s : State nfds) (i : Fin nfds) : Prop :=
  ∀ client stage, s.clients i = some (.fcgi client stage) →
    stage = .fcgiMsg ∨ (s.ctxs i).cgiPid ≤ 0 ∨ 0 ≤ (s.ctxs i).exitStatus

def Told (s : State nfds) (pid : ℤ) : Prop :=
  ∀ i client, s.clients i = some (.fcgi client .fcgiMsg) → (s.ctxs i).cgiPid = pid →
    s.processes pid = some client → i.val < s.maxfd

def Careful (s : State nfds) : Event nfds → Prop
  | .remove i => ∀ j, Ends s i j → NoStalePid s j
  | .reap pid _ => Told s pid
  | _ => True

structure Owns (s : State nfds) : Prop where
  running : ∀ i client, s.clients i = some (.fcgi client .fcgiMsg) →
    0 ≤ (s.ctxs i).exitStatus ∨ s.processes (s.ctxs i).cgiPid = some client
  kills : ∀ kill ∈ s.kills, kill.live = true

section

variable {s s' : State nfds} {i : Fin nfds} {client : ℕ}

theorem setClient_self (role : Option Role) : (setClient i role s).clients i = role :=
  Function.update_self ..

theorem setClient_of_ne {j : Fin nfds} (hne : j ≠ i) (role : Option Role) :
    (setClient i role s).clients j = s.clients j := Function.update_of_ne hne ..

theorem setCtx_self (ctx : Fc2Ctx nfds) : (setCtx i ctx s).ctxs i = ctx := Function.update_self ..

theorem setCtx_of_ne {j : Fin nfds} (hne : j ≠ i) (ctx : Fc2Ctx nfds) :
    (setCtx i ctx s).ctxs j = s.ctxs j := Function.update_of_ne hne ..

theorem Owns.mono (h : Owns s)
    (hclients : ∀ j client, s'.clients j = some (.fcgi client .fcgiMsg) →
      s.clients j = some (.fcgi client .fcgiMsg) ∧ (s'.ctxs j).exitStatus = (s.ctxs j).exitStatus ∧
        (s'.ctxs j).cgiPid = (s.ctxs j).cgiPid)
    (hprocesses : ∀ pid client, s.processes pid = some client → s'.processes pid = some client)
    (hkills : ∀ kill ∈ s'.kills, kill.live = true) : Owns s' := by
  refine ⟨fun j client hj => ?_, hkills⟩
  obtain ⟨hbefore, hstatus, hpid⟩ := hclients j client hj
  rw [hstatus, hpid]
  exact (h.running j client hbefore).imp_right (hprocesses _ _)

theorem Owns.setClient (h : Owns s) {role : Option Role}
    (hrole : ∀ client, role ≠ some (.fcgi client .fcgiMsg)) : Owns (setClient i role s) := by
  refine h.mono (fun j client hj => ?_) (fun _ _ hpid => hpid) h.kills
  by_cases hji : j = i
  · rw [hji, setClient_self] at hj
    exact absurd hj (hrole client)
  · rw [setClient_of_ne hji] at hj
    exact ⟨hj, rfl, rfl⟩

theorem Owns.setCtx (h : Owns s) {ctx : Fc2Ctx nfds}
    (hctx : (∃ client, s.clients i = some (.fcgi client .fcgiMsg)) →
      ctx.exitStatus = (s.ctxs i).exitStatus ∧ ctx.cgiPid = (s.ctxs i).cgiPid) :
    Owns (setCtx i ctx s) := by
  refine h.mono (fun j client hj => ⟨hj, ?_⟩) (fun _ _ hpid => hpid) h.kills
  by_cases hji : j = i
  · subst hji
    rw [setCtx_self]
    exact hctx ⟨client, hj⟩
  · rw [setCtx_of_ne hji]
    exact ⟨rfl, rfl⟩

theorem Owns.setChildCli (h : Owns s) (i : Fin nfds) (child : Option (Fin nfds)) :
    Owns (Fc2.setCtx i { s.ctxs i with childCli := child } s) := h.setCtx fun _ => ⟨rfl, rfl⟩

theorem Owns.kill (h : Owns s) {pid : ℤ} (hlive : s.processes pid = some client) :
    Owns (kill client pid s) := by
  refine h.mono (fun _ _ hj => ⟨hj, rfl, rfl⟩) (fun _ _ hpid => hpid) fun other hother => ?_
  cases List.mem_append.mp hother with
  | inl hold => exact h.kills other hold
  | inr hnew =>
    rw [List.mem_singleton.mp hnew]
    exact decide_eq_true hlive

theorem Ends.mono {j : Fin nfds} (hends : Ends s' i j)
    (hclients : ∀ k, s'.clients k ≠ none → s.clients k ≠ none) (hctxs : s'.ctxs = s.ctxs) :
    Ends s i j := by
  induction hends with
  | here => exact .here _
  | next hinUse hlink _ ih => exact .next (hclients _ hinUse) (hctxs ▸ hlink) ih

theorem ends_rest {next : Fin nfds} (hinUse : s.clients i ≠ none)
    (hlink : (s.ctxs i).childCli = some next) (hsafe : ∀ j, Ends s i j → NoStalePid s j)
    (hclients : s'.clients = (Fc2.setClient i none s).clients) (hctxs : s'.ctxs = s.ctxs) :
    ∀ j, Ends s' next j → NoStalePid s' j := by
  have hbefore : ∀ k role, s'.clients k = some role → s.clients k = some role := by
    intro k role hk
    rw [hclients] at hk
    by_cases hki : k = i
    · rw [hki, setClient_self] at hk
      cases hk
    · rwa [setClient_of_ne hki] at hk
  intro j hends
  have hends' : Ends s next j := by
    refine hends.mono (fun k hk => ?_) hctxs
    obtain ⟨role, hrole⟩ := Option.ne_none_iff_exists'.mp hk
    rw [hbefore k role hrole]
    exact Option.some_ne_none role
  intro client stage hj
  rw [hctxs]
  exact hsafe j (.next hinUse hlink hends') client stage (hbefore j _ hj)

theorem ctxs_killCgi : (killCgi i client s).ctxs = s.ctxs := by
  unfold killCgi
  split
  · rfl
  · rfl

theorem Owns.killCgi {stage : Stage} (h : Owns s) (hrole : s.clients i = some (.fcgi client stage))
    (hsafe : NoStalePid s i) : Owns (killCgi i client (Fc2.setClient i none s)) := by
  have hgone : Owns (Fc2.setClient i none s) := h.setClient nofun
  unfold Fc2.killCgi
  split
  · rename_i hkill
    refine hgone.kill ?_
    have hstage : stage = .fcgiMsg := by
      obtain hstage | hpid | hstatus := hsafe client stage hrole
      · exact hstage
      · exact absurd hkill.1 (not_lt.mpr hpid)
      · exact absurd hkill.2 (not_lt.mpr hstatus)
    rw [hstage] at hrole
    exact (h.running i client hrole).resolve_left (not_le.mpr hkill.2)
  · exact hgone

/-- The induction follows the ends of the clients. -/
theorem Owns.removeClient (h : Owns s) (hsafe : ∀ j, Ends s i j → NoStalePid s j) :
    Owns (removeClient i s) := by
  fun_induction Fc2.removeClient i s with
  | case1 => exact h
  | case2 i s hrole s' hlink => exact h.setClient nofun
  | case3 i s hrole s' parent hlink ih =>
    refine ih (h.setClient nofun) (ends_rest ?_ hlink hsafe rfl rfl)
    rw [hrole]
    exact Option.some_ne_none _
  | case4 i s client stage hrole s' hlink => exact h.killCgi hrole (hsafe i (.here i))
  | case5 i s client stage hrole s' child hlink s'' ih =>
    have hkilled := h.killCgi hrole (hsafe i (.here i))
    have hrest := ih hkilled (ends_rest (by simp [hrole]) hlink hsafe (clients_killCgi ..) ctxs_killCgi)
    exact hrest.setChildCli i none

theorem Owns.forkReqproc (h : Owns s) {pid : ℤ} {procfd : Fin nfds} (hcan : CanFork pid procfd s) :
    Owns (forkReqproc i client pid procfd s) := by
  have hgiven : ∀ other owner, s.processes other = some owner →
      give pid client s.processes other = some owner := by
    intro other owner hother
    rw [give_of_ne, hother]
    rintro rfl
    exact Option.some_ne_none _ (hother.symm.trans hcan.2.1)
  have hforked : Owns ({ s with processes := give pid client s.processes } : State nfds) :=
    h.mono (fun _ _ hj => ⟨hj, rfl, rfl⟩) hgiven h.kills
  have hadded : Owns (addClient procfd .cgi { s with processes := give pid client s.processes }) := by
    refine Owns.setClient ?_ nofun
    exact hforked.mono (fun _ _ hj => ⟨hj, rfl, rfl⟩) (fun _ _ hpid => hpid) hforked.kills
  exact (hadded.setChildCli i (some procfd)).setChildCli procfd (some i)

theorem processes_forkReqproc {pid : ℤ} {procfd : Fin nfds} :
    (Fc2.forkReqproc i client pid procfd s).processes pid = some client := give_self _

theorem Owns.setPid (h : Owns s) {pid : ℤ} (hlive : s.processes pid = some client) :
    Owns (Fc2.setClient i (some (.fcgi client .fcgiMsg))
      (Fc2.setCtx i { s.ctxs i with cgiPid := pid } s)) := by
  refine ⟨fun j client' hj => ?_, h.kills⟩
  change 0 ≤ ((Fc2.setCtx i _ s).ctxs j).exitStatus ∨
    s.processes ((Fc2.setCtx i _ s).ctxs j).cgiPid = some client'
  by_cases hji : j = i
  · subst hji
    rw [setClient_self] at hj
    cases hj
    rw [setCtx_self]
    exact .inr hlive
  · rw [setClient_of_ne hji] at hj
    rw [setCtx_of_ne hji]
    exact h.running j client' hj

theorem Owns.onReadReq (h : Owns s) {outcome : Outcome nfds} (hstep : onReadReq i client s outcome = some s') : Owns s' := by
  unfold Fc2.onReadReq at hstep
  split at hstep
  · cases hstep
    exact h
  · cases hstep
    exact h.setClient nofun
  · cases hstep
    exact h.setClient nofun
  · cases hstep
    exact h.setClient nofun
  · cases hstep
    exact h.setClient nofun
  · split at hstep
    · rename_i pid procfd hcan
      cases hstep
      exact (h.forkReqproc hcan).setPid processes_forkReqproc
    · cases hstep
  · split at hstep
    · rename_i pid procfd hcan
      cases hstep
      exact ((h.forkReqproc hcan).kill processes_forkReqproc).setClient nofun
    · cases hstep

theorem Owns.reapChild (h : Owns s) {pid status : ℤ} (htold : Told s pid) (hstatus : 0 ≤ status) :
    Owns (reapChild pid status s) := by
  refine ⟨fun j client hj => ?_, h.kills⟩
  have hrunning := h.running j client hj
  unfold Fc2.reapChild
  dsimp only
  by_cases hpid : (s.ctxs j).cgiPid = pid
  · have hreaped : 0 ≤ (s.ctxs j).exitStatus ∨ j.val < s.maxfd := by
      refine hrunning.imp_right fun howned => ?_
      rw [hpid] at howned
      exact htold j client hj hpid howned
    left
    split
    · exact hstatus
    · rename_i huntold
      have hinUse : s.clients j ≠ none := fun hnone => Option.some_ne_none _ (hj.symm.trans hnone)
      exact hreaped.resolve_right fun hlt => huntold ⟨hlt, hinUse, hpid⟩
  · rw [if_neg fun htold => hpid htold.2.2, take_of_ne hpid]
    exact hrunning

theorem Owns.step {event : Event nfds} (h : Owns s) (hcareful : Careful s event)
    (hstep : step s event = some s') : Owns s' := by
  cases event with
  | accept fd =>
    simp only [Fc2.step] at hstep
    split at hstep
    · cases hstep
      have hnumbered : Owns { s with nclients := s.nclients + 1, maxfd := max s.maxfd fd } :=
        h.mono (fun _ _ hj => ⟨hj, rfl, rfl⟩) (fun _ _ hpid => hpid) h.kills
      exact hnumbered.setClient nofun
    · cases hstep
  | readable i =>
    simp only [Fc2.step] at hstep
    split at hstep
    · rename_i client hclient
      cases hstep
      refine Owns.setClient (h.setCtx ?_) nofun
      rintro ⟨client', hrunning⟩
      rw [hclient] at hrunning
      cases hrunning
    · cases hstep
  | readReq i outcome =>
    simp only [Fc2.step] at hstep
    split at hstep
    · exact h.onReadReq hstep
    · cases hstep
  | remove i =>
    simp only [Fc2.step] at hstep
    split at hstep
    · cases hstep
    · cases hstep
    · cases hstep
    · cases hstep
      exact h.removeClient hcareful
  | reap pid status =>
    simp only [Fc2.step] at hstep
    split at hstep
    · rename_i hreaped
      cases hstep
      exact h.reapChild hcareful hreaped.2
    · cases hstep

end

/-- Where no client ends over the pid of an earlier one, and every client is told
of its process, only processes of their own are killed for the clients. -/
theorem kills_own {s : State nfds} (h : Run Careful s) : ∀ kill ∈ s.kills, kill.live = true := by
  have howns : Owns s := by
    refine Reachable.invariant ?_ ?_ h
    · rintro s ⟨cmdfd, rfl⟩
      exact ⟨nofun, nofun⟩
    · exact fun before event after howns hcareful hstep => howns.step hcareful hstep
  exact howns.kills

def starting : List (Event 8) := [.accept 5, .readable 5, .readReq 5 (.forked 100 6)]

theorem starting_careful : ∀ event ∈ starting, ∀ s, Careful s event := by
  intro event hevent s
  simp only [starting, List.mem_cons, List.not_mem_nil, or_false] at hevent
  obtain rfl | rfl | rfl := hevent
  · trivial
  · trivial
  · trivial

theorem noStalePid_of_mem {s : State nfds} {client : ℕ}
    (h : ∀ i, s.clients i ∈ [none, some .cgi, some (.fcgi client .fcgiMsg)]) (i : Fin nfds) :
    NoStalePid s i := by
  intro other stage hi
  have hmem := h i
  rw [hi] at hmem
  simp only [List.mem_cons, List.not_mem_nil, or_false, reduceCtorEq, false_or, Option.some.injEq,
    Role.fcgi.injEq] at hmem
  exact .inl hmem.2

theorem kills_own_sample : ∃ s : State 8, s.kills = [⟨0, 100, true⟩] ∧
    ∀ kill ∈ s.kills, kill.live = true := by
  have hsteps : starting.foldlM step (started 3) = some _ := rfl
  have hstarted : Run Careful _ :=
    Reachable.foldlM (fun _ _ _ hnext => hnext) starting_careful (.initial ⟨3, rfl⟩) hsteps
  have hremoved : Run Careful _ :=
    @Reachable.step _ _ _ _ _ _ _ (.remove 5) hstarted
      (fun j _ => @noStalePid_of_mem 8 _ 0 (by decide) j) rfl
  exact ⟨_, by decide +kernel, kills_own hremoved⟩

/-- The next client of the slot asks for what is not there. -/
def staying : List (Event 8) :=
  starting ++ [.reap 100 0, .remove 5, .accept 5, .readable 5, .readReq 5 .notFound, .remove 5]

theorem kills_stale_pid : ¬ ∀ (nfds : ℕ) (s : State nfds), Run (fun _ _ => True) s →
    ∀ kill ∈ s.kills, kill.live = true := by
  intro hown
  have hkills : (staying.foldlM step (started 3)).map (·.kills) = some [⟨1, 100, false⟩] := by
    decide +kernel
  obtain ⟨s, hsteps, hs⟩ := Option.map_eq_some_iff.mp hkills
  have hrun : Run (fun _ _ => True) s :=
    Reachable.foldlM (fun _ _ _ hnext => hnext) (fun _ _ _ => trivial) (.initial ⟨3, rfl⟩) hsteps
  have hlive := hown 8 s hrun
  rw [hs] at hlive
  exact absurd hlive (by decide)

end Yans.Apps.Fc2
