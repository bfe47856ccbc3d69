import Yans.Apps.StoredServing

/-! What one step does to the bytes a client has been sent, and how far the code is
from `select`. Nothing but a call of `ycl_recvmsg` or a byte that is sent keeps it
from getting there. -/
namespace Yans.Apps.Stored

open Library.Memory Util Ycl
open Util.EdsSend (EdsTransition Handler)

/-- How many places the event loop has left for this client. -/
def Loop.rank : Loop → ℕ
  | .select => 0
  | .unused => 1
  | .onWritable _ => 2
  | .onReadable _ _ => 3

/-- How many callbacks run until one reads or returns. -/
def Running.rank : Running → ℕ
  | .callback .storeOnReadable => 2
  | .callback .onPostEnterResponse => 2
  | .callback .onSentStoreList => 2
  | _ => 1

theorem Running.rank_le (running : Option Running) : (running.map Running.rank).getD 0 ≤ 2 := by
  cases running with
  | none => exact Nat.zero_le _
  | some running =>
    cases running with
    | onEdsClientSend => exact Nat.le_succ 1
    | callback cb =>
      cases cb with
      | storeOnReadable => exact le_rfl
      | onPostEnterResponse => exact le_rfl
      | onSentStoreList => exact le_rfl
      | _ => exact Nat.le_succ 1

theorem Running.rank_pos (running : Running) : 0 < running.rank := by
  cases running with
  | onEdsClientSend => exact Nat.one_pos
  | callback cb => cases cb <;> decide

def Choice.IsSelect : Choice → Prop
  | .select _ _ => True
  | _ => False

def Choice.Accepts : Choice → Prop
  | .write accepted => 0 < accepted.getD 0
  | .sendmsg accepted => accepted = true
  | _ => False

def Choice.IsWrite : Choice → Prop
  | .write _ => True
  | .sendmsg _ => True
  | _ => False

def Callback.IsReader (cb : Callback) : Prop := cb = .onReadreq ∨ cb = .onReadentered

variable {choice : Choice}

namespace Server

variable {World : Type} {out : Outside World} {s s' : Server World}

/-- A bound for the steps that lead to `select`. -/
def rank (s : Server World) : ℕ :=
  3 * (s.waiting + s.loop.rank) + (s.running.map Running.rank).getD 0

/-- The functions of the event loop that callbacks call change the client, and what
is run next. -/
structure Calls (running : Option Running) (s s' : Server World) : Prop where
  waiting_eq : s'.waiting = s.waiting
  loop_eq : s'.loop = s.loop
  running : s'.running = none ∨ s'.running = running

theorem setOnReadable_calls (cb : Option Callback) (s : Server World) :
    Calls (cb.map .callback) s (s.setOnReadable cb) := by
  refine ⟨rfl, rfl, ?_⟩
  have hcalled : (EdsSend.edsClientSetOnReadable s.client cb false).2 = none ∨
      (EdsSend.edsClientSetOnReadable s.client cb false).2 = cb := by
    unfold EdsSend.edsClientSetOnReadable
    split
    · exact .inl rfl
    · cases cb with
      | none => exact .inl rfl
      | some cb => exact .inr rfl
  exact hcalled.imp (congrArg (Option.map Running.callback))
    (congrArg (Option.map Running.callback))

theorem Calls.rank_le {running : Option Running} (h : Calls running s s') :
    s'.rank ≤ 3 * (s.waiting + s.loop.rank) + (running.map Running.rank).getD 0 := by
  unfold rank
  rw [h.waiting_eq, h.loop_eq]
  obtain hnone | hrunning := h.running
  · rw [hnone]
    exact Nat.add_le_add_left (Nat.zero_le _) _
  · rw [hrunning]

theorem sent_completed (s : Server World) : s.completed.sent = s.sent := by
  unfold completed
  dsimp only
  split <;> rfl

theorem sent_afterReadable (s : Server World) : s.afterReadable.sent = s.sent := by
  unfold afterReadable
  dsimp only
  split <;> rfl

theorem sent_onEdsClientSend (accepted : Option ℕ) (s : Server World) :
    (s.onEdsClientSend accepted).sent =
      s.sent ++ (s.client.wrdata.take (accepted.getD 0)).map .byte := by
  cases accepted with
  | none => exact (List.append_nil _).symm
  | some n =>
    unfold onEdsClientSend
    dsimp only
    split
    · exact sent_completed _
    · rfl

theorem sent_answerReq (response : Response) (s : Server World) :
    (s.answerReq response).sent = s.sent := by
  unfold answerReq
  cases response with
  | list errmsg entries => rfl
  | fd openFd openErrno => rfl
  | status okmsg errmsg =>
    dsimp only
    split <;> rfl

theorem sent_answerEntered (response : Response) (s : Server World) :
    (s.answerEntered response).sent = s.sent := by
  unfold answerEntered
  cases response with
  | list errmsg entries => rfl
  | fd openFd openErrno => rfl
  | status okmsg errmsg =>
    dsimp only
    split <;> rfl

theorem sent_receive {onMessage : Server World → Server World}
    (h : ∀ s, (onMessage s).sent = s.sent) (s : Server World) :
    (s.receive onMessage).sent = s.sent := by
  unfold receive
  dsimp only
  split
  · rfl
  · rfl
  · exact h _

theorem sent_serveReq (s : Server World) : (serveReq out s).sent = s.sent := sent_answerReq _ _

theorem sent_serveEntered (s : Server World) : (serveEntered out s).sent = s.sent :=
  sent_answerEntered _ _

theorem sent_loopStep (h : s.loopStep = some s') : s'.sent = s.sent := by
  unfold loopStep at h
  split at h
  · cases h
  · split at h <;> cases h <;> rfl
  · split at h <;> cases h <;> rfl
  · split at h <;> cases h <;> rfl

theorem sent_step (hstep : step out s choice = some s') :
    ∃ items, s'.sent = s.sent ++ items ∧ (choice.Accepts → items ≠ []) := by
  have hsame : s'.sent = s.sent → ¬ choice.Accepts →
      ∃ items, s'.sent = s.sent ++ items ∧ (choice.Accepts → items ≠ []) :=
    fun hsent hrefused => ⟨[], by rw [hsent, List.append_nil], fun h => absurd h hrefused⟩
  unfold step at hstep
  split at hstep
  case h_1 =>
    cases hstep
    exact hsame rfl id
  case h_2 =>
    cases hstep
    exact hsame (sent_receive sent_serveReq s) id
  case h_3 =>
    cases hstep
    exact hsame (sent_receive sent_serveEntered s) id
  case h_4 =>
    cases hstep
    exact hsame rfl id
  case h_5 =>
    cases hstep
    exact hsame rfl id
  case h_6 accepted _ =>
    cases hstep
    cases accepted with
    | false => exact hsame rfl Bool.false_ne_true
    | true =>
      exact ⟨[.fd s.store.cli.openFd s.store.cli.openErrno], rfl, fun _ => List.cons_ne_nil _ _⟩
  case h_7 accepted _ =>
    cases hstep
    cases accepted with
    | false => exact hsame rfl Bool.false_ne_true
    | true =>
      exact ⟨[.fd s.store.cli.openFd s.store.cli.openErrno], rfl, fun _ => List.cons_ne_nil _ _⟩
  case h_8 =>
    split at hstep
    · cases hstep
      exact hsame (sent_completed s) id
    · cases hstep
  case h_9 accepted _ =>
    split at hstep
    · rename_i hguard
      cases hstep
      refine ⟨_, sent_onEdsClientSend accepted s, fun haccepts hnil => ?_⟩
      have hlength := congrArg List.length hnil
      rw [List.length_map, List.length_take, List.length_nil] at hlength
      unfold Choice.Accepts at haccepts
      omega
    · cases hstep
  case h_10 =>
    split at hstep
    · cases hstep
      exact hsame (sent_afterReadable s) id
    · exact hsame (sent_loopStep hstep) id
  case h_11 =>
    split at hstep
    · cases hstep
      exact hsame rfl id
    · cases hstep
  case h_12 => cases hstep

/-- What a step does unless it brings the code nearer to `select`. -/
inductive Turns (s s' : Server World) (choice : Choice) : Prop where
  | select (select : choice.IsSelect)
  | reads {cb : Callback} (running : s.running = some (.callback cb)) (reader : cb.IsReader)
  | accepts (accepts : choice.Accepts)
  | sent (running : s.running = some .onEdsClientSend) (wrdata_eq : s.client.wrdata = [])
  | falls (rank_lt : s'.rank < s.rank)

theorem rank_of_running {running : Running} (hrunning : s.running = some running) :
    s.rank = 3 * (s.waiting + s.loop.rank) + running.rank := by
  unfold rank
  rw [hrunning]
  rfl

theorem rank_of_idle (hrunning : s.running = none) :
    s.rank = 3 * (s.waiting + s.loop.rank) := by
  unfold rank
  rw [hrunning]
  rfl

theorem turns_setOnReadable {running : Running} {cb : Callback}
    {before : Server World} (hwaiting : before.waiting = s.waiting) (hloop : before.loop = s.loop)
    (hreader : cb.IsReader) (hrunning : s.running = some running) (hrank : running.rank = 2) :
    Turns s (before.setOnReadable (some cb)) choice := by
  have hle := (setOnReadable_calls (some cb) before).rank_le
  have hone : (Option.map Running.rank ((some cb).map .callback)).getD 0 = 1 := by
    obtain rfl | rfl := hreader <;> rfl
  apply Turns.falls
  rw [rank_of_running hrunning]
  rw [hone, hwaiting, hloop] at hle
  omega

theorem turns_of_return {running : Running}
    (hrunning : s.running = some running) (hwaiting : s'.waiting = s.waiting)
    (hloop : s'.loop = s.loop) (hidle : s'.running = none) : Turns s s' choice := by
  apply Turns.falls
  rw [rank_of_running hrunning, rank_of_idle hidle, hwaiting, hloop]
  have hpos := running.rank_pos
  omega

theorem turns_afterReadable (hrunning : s.running = none)
    (hwaiting : 0 < s.waiting) : Turns s s.afterReadable choice := by
  have hcount : s.afterReadable.waiting = s.waiting - 1 ∧ s.afterReadable.loop = s.loop := by
    unfold afterReadable
    dsimp only
    split <;> exact ⟨rfl, rfl⟩
  have hle := Running.rank_le s.afterReadable.running
  apply Turns.falls
  rw [rank_of_idle hrunning]
  unfold rank
  rw [hcount.1, hcount.2]
  omega

theorem turns_loopStep (hrunning : s.running = none)
    (hstep : s.loopStep = some s') : Turns s s' choice := by
  have hfalls : ∀ {running : Option Running} {client loop}, loop.rank < s.loop.rank →
      Turns s { s with loop := loop, client := client, running := running } choice := by
    intro running client loop hrank
    have hle := Running.rank_le running
    apply Turns.falls
    rw [rank_of_idle hrunning]
    unfold rank
    dsimp only
    omega
  unfold loopStep at hstep
  split at hstep
  · cases hstep
  · rename_i hloop
    split at hstep <;> cases hstep <;> apply hfalls <;> simp [hloop, Loop.rank]
  · rename_i hloop
    split at hstep <;> cases hstep <;> apply hfalls <;> simp [hloop, Loop.rank]
  · rename_i hloop
    split at hstep <;> cases hstep <;> apply hfalls <;> simp [hloop, Loop.rank]

theorem turns_of_step (hstep : step out s choice = some s') :
    Turns s s' choice := by
  unfold step at hstep
  split at hstep
  case h_1 hrunning =>
    cases hstep
    exact turns_setOnReadable rfl rfl (.inl rfl) hrunning rfl
  case h_2 hrunning => exact .reads hrunning (.inl rfl)
  case h_3 hrunning => exact .reads hrunning (.inr rfl)
  case h_4 hrunning =>
    cases hstep
    exact turns_setOnReadable rfl rfl (.inr rfl) hrunning rfl
  case h_5 hrunning =>
    cases hstep
    exact turns_setOnReadable rfl rfl (.inl rfl) hrunning rfl
  case h_6 accepted hrunning =>
    cases hstep
    cases accepted with
    | false => exact turns_of_return hrunning rfl rfl rfl
    | true => exact .accepts rfl
  case h_7 accepted hrunning =>
    cases hstep
    cases accepted with
    | false => exact turns_of_return hrunning rfl rfl rfl
    | true => exact .accepts rfl
  case h_8 hrunning =>
    split at hstep
    · exact .sent hrunning (by assumption)
    · cases hstep
  case h_9 accepted hrunning =>
    split at hstep
    · rename_i hguard
      cases hstep
      cases accepted with
      | none => exact turns_of_return hrunning rfl rfl rfl
      | some n =>
        cases n with
        | zero =>
          have hreturn : s.onEdsClientSend (some 0) =
              { s with
                client := { s.client with wrdata := s.client.wrdata.drop 0 }
                sent := s.sent ++ (s.client.wrdata.take 0).map .byte
                running := none } := if_neg hguard.1
          rw [hreturn]
          exact turns_of_return hrunning rfl rfl rfl
        | succ n => exact .accepts (Nat.succ_pos n)
    · cases hstep
  case h_10 hrunning =>
    split at hstep
    · rename_i hwaiting
      cases hstep
      exact turns_afterReadable hrunning hwaiting
    · exact turns_loopStep hrunning hstep
  case h_11 => exact .select trivial
  case h_12 => cases hstep

/-! The steps that follow on a return of `select` -/

theorem idle_of_select (hselect : choice.IsSelect)
    (hstep : step out s choice = some s') :
    s.running = none ∧ s.waiting = 0 ∧ ∃ readable writable, choice = .select readable writable ∧
      s' = { s with loop := .onReadable readable writable } := by
  cases choice with
  | select readable writable =>
    cases hrunning : s.running with
    | some running =>
      cases running with
      | onEdsClientSend => simp [step, hrunning] at hstep
      | callback cb => cases cb <;> simp [step, hrunning] at hstep
    | none =>
      simp only [step, hrunning] at hstep
      split at hstep
      · rename_i hguard
        cases hstep
        exact ⟨rfl, hguard.1, _, _, rfl, by rw [← hrunning]⟩
      · cases hstep
  | go => exact absurd hselect id
  | write accepted => exact absurd hselect id
  | sendmsg accepted => exact absurd hselect id

theorem running_of_storeOnReadable
    (hrunning : s.running = some (.callback .storeOnReadable)) (hlive : s.client.removed = false)
    (hstep : step out s choice = some s') : s'.running = some (.callback .onReadreq) := by
  cases choice <;> simp only [step, hrunning, Option.some.injEq, reduceCtorEq] at hstep
  rw [← hstep]
  unfold storeOnReadable
  rw [setOnReadable_some (by exact hlive)]

section Loops

variable (hrunning : s.running = none) (hwaiting : s.waiting = 0)
  (hlive : s.client.removed = false) (hstep : step out s choice = some s')

include hrunning hwaiting hlive hstep

theorem step_onReadable {readable writable : Bool} (hloop : s.loop = .onReadable readable writable) :
    s' = { s with
      loop := .onWritable writable
      running := (if readable then s.client.onReadable else none).map .callback } := by
  cases choice <;>
    simp [step, hrunning, hwaiting, loopStep, hloop, hlive] at hstep
  rw [hwaiting]
  exact hstep.symm

theorem step_onWritable {writable : Bool} (hloop : s.loop = .onWritable writable) :
    s' = { s with
      loop := .unused
      running := (if writable then s.client.onWritable else none).map runningOf } := by
  cases choice <;>
    simp [step, hrunning, hwaiting, loopStep, hloop, hlive] at hstep
  rw [hwaiting]
  exact hstep.symm

end Loops

/-! Turns of the event loop that find nothing to do -/

structure Waits (s : Server World) : Prop where
  running : s.running = none
  waiting : s.waiting = 0
  loop : s.loop = .select
  live : s.client.removed = false
  onReadable : s.client.onReadable ≠ none

/-- Where the event loop is at some time, and what it does. -/
def idleLoop : ℕ → Loop × Choice
  | 0 => (.select, .select false false)
  | 1 => (.onReadable false false, .go)
  | 2 => (.onWritable false, .go)
  | 3 => (.unused, .go)
  | time + 4 => idleLoop time

theorem not_isWrite_idleLoop : ∀ time, ¬ (idleLoop time).2.IsWrite
  | 0 => id
  | 1 => id
  | 2 => id
  | 3 => id
  | time + 4 => not_isWrite_idleLoop time

theorem Waits.step (h : Waits s) : ∀ time,
    Server.step out { s with loop := (idleLoop time).1 } (idleLoop time).2 =
      some { s with loop := (idleLoop (time + 1)).1 }
  | 0 => by simp [Server.step, idleLoop, h.running, h.waiting]
  | 1 => by simp [Server.step, idleLoop, loopStep, h.running, h.waiting, h.live]
  | 2 => by simp [Server.step, idleLoop, loopStep, h.running, h.waiting, h.live]
  | 3 => by simp [Server.step, idleLoop, loopStep, h.running, h.waiting, h.onReadable]
  | time + 4 => h.step time

theorem Waits.meets (h : Waits s) : ∀ time,
    Meets { s with loop := (idleLoop time).1 } (idleLoop time).2
  | 0 => by simp [Meets, idleLoop, h.running]
  | 1 => by simp [Meets, idleLoop, h.running, h.waiting]
  | 2 => by simp [Meets, idleLoop, h.running, h.waiting]
  | 3 => by simp [Meets, idleLoop, h.running, h.waiting]
  | time + 4 => h.meets time

def Waits.endless (out : Outside World) (h : Waits s) :
    Library.Runs.Endless (· = s) Meets fun s choice s' => Server.step out s choice = some s' where
  state time := { s with loop := (idleLoop time).1 }
  event time := (idleLoop time).2
  start := by rw [show (idleLoop 0).1 = s.loop from h.loop.symm]
  allows := h.meets
  steps := h.step

end Server

end Yans.Apps.Stored
