import Yans.Apps.StoredProgress

/-! The answers of `stored`. In the runs whose steps meet the condition, a client
gets the answers of a daemon that serves one request at a time, however its bytes
are cut into reads and however much each write accepts. -/
namespace Yans.Apps.Stored

open Library.Memory Library.Strings Library.Runs Util Util.Netstring Ycl

variable {World : Type} {out : Outside World}

/-- A client with its requests, and the reads that these come with. The slot of
the descriptor is as its last client has left it. -/
structure Session (out : Outside World) where
  hasMsgbuf : Bool
  msgbuf : YclMsg
  cli : StoreCli
  world : World
  requests : List Bytes
  events : List ReadEvent
  length_lt : ∀ x ∈ requests, (encode x).length < 2 ^ 64
  wellFormed : WellFormed out (storeOnReadable cli world) requests
  delivers : ∀ event ∈ events, event.Delivers
  stream_eq : streamBytes events = encodings requests

namespace Session

open Server

def initial (session : Session out) : State World := storeOnReadable session.cli session.world

def start (session : Session out) : Server World :=
  Server.start session.hasMsgbuf session.msgbuf session.cli session.world session.events

/-- The answers that the requests get when each is sent alone. -/
def responses (session : Session out) : List Response :=
  (answers out session.initial session.requests).1

def items (session : Session out) : List Item := session.responses.flatMap Response.items

def Reached (session : Session out) : Server World → Prop :=
  Reachable (· = session.start) Meets fun s choice s' => Server.step out s choice = some s'

structure Ledger (session : Session out) (σ : State World) (served left : List Bytes)
    (s : Server World) : Prop where
  requests_eq : session.requests = served ++ left
  state_eq : (answers out session.initial served).2 = σ
  sent_eq : s.sent ++ s.owed = (answers out session.initial served).1.flatMap Response.items
  wellFormed : WellFormed out σ left
  mode : Mode σ left s

variable {session : Session out} {σ : State World} {served left : List Bytes}
  {s s' : Server World}

theorem Ledger.start (session : Session out) :
    session.Ledger session.initial [] session.requests session.start where
  requests_eq := rfl
  state_eq := rfl
  sent_eq := rfl
  wellFormed := session.wellFormed
  mode := by
    refine .fresh (.inl rfl) ⟨⟨rfl, rfl, rfl, ?_, ?_⟩, rfl, rfl, rfl, rfl, rfl, rfl,
      session.stream_eq, session.delivers⟩
    · exact fun htflwrite => absurd htflwrite Bool.false_ne_true
    · exact fun htflwrite => absurd htflwrite Bool.false_ne_true

inductive Progress (session : Session out) (agains : ℕ) (σ : State World)
    (served left : List Bytes) (s s' : Server World) : Prop where
  | same (ledger : session.Ledger σ served left s')
      (again_le : againCount s'.fd.events + agains ≤ againCount s.fd.events)
  | answered {x : Bytes} {xs : List Bytes} {σ' : State World} (left_eq : left = x :: xs)
      (ledger : session.Ledger σ' (served ++ [x]) xs s')
      (again_le : againCount s'.fd.events ≤ againCount s.fd.events)

theorem Ledger.advance (h : session.Ledger σ served left s) {agains : ℕ}
    (hadvances : Advances out agains σ left s s') :
    session.Progress agains σ served left s s' := by
  cases hadvances with
  | same mode sent_eq again_le =>
    exact .same { h with
      sent_eq := sent_eq.trans h.sent_eq
      mode := mode } again_le
  | @answered x xs response σ' left_eq step_eq mode sent_eq again_le =>
    have hwell := h.wellFormed
    subst left_eq
    have hanswers : answers out σ [x] = ([response], σ') := by
      simp only [answers, step_eq]
      rfl
    have happend : answers out session.initial (served ++ [x]) =
        ((answers out session.initial served).1 ++ [response], σ') := by
      rw [answers_append, h.state_eq, hanswers]
    refine .answered rfl ⟨?_, ?_, ?_, ?_, mode⟩ again_le
    · rw [h.requests_eq, List.append_assoc]
      rfl
    · rw [happend]
    · rw [happend, sent_eq, h.sent_eq, List.flatMap_append]
      simp
    · have hrest := hwell.2
      rwa [step_eq] at hrest

theorem Ledger.length_lt (h : session.Ledger σ served left s) :
    ∀ x ∈ left, (encode x).length < 2 ^ 64 := by
  intro x hx
  apply session.length_lt
  rw [h.requests_eq]
  exact List.mem_append_right _ hx

theorem Ledger.step (h : session.Ledger σ served left s) {choice : Choice}
    (hmeets : Meets s choice) (hstep : Server.step out s choice = some s') :
    session.Progress 0 σ served left s s' :=
  h.advance (h.mode.step h.length_lt h.wellFormed hmeets hstep)

theorem Reached.ledger (h : session.Reached s) :
    ∃ σ served left, session.Ledger σ served left s := by
  apply Reachable.invariant _ _ h
  · rintro _ rfl
    exact ⟨_, _, _, Ledger.start session⟩
  · rintro before choice after ⟨σ, served, left, hledger⟩ hmeets hstep
    cases hledger.step hmeets hstep with
    | same ledger _ => exact ⟨_, _, _, ledger⟩
    | answered _ ledger _ => exact ⟨_, _, _, ledger⟩

/-! What the client has received -/

theorem Ledger.items_eq (h : session.Ledger σ served left s) :
    session.items = s.sent ++ s.owed ++ (answers out σ left).1.flatMap Response.items := by
  unfold items responses
  rw [h.requests_eq, answers_append, h.state_eq, List.flatMap_append, h.sent_eq]

theorem Ledger.sent_isPrefix (h : session.Ledger σ served left s) : s.sent <+: session.items := by
  rw [h.items_eq, List.append_assoc]
  exact List.prefix_append _ _

theorem Ledger.sent_eq_items (h : session.Ledger σ served left s) (hleft : left = [])
    (howed : s.owed = []) : s.sent = session.items := by
  rw [h.items_eq, hleft, howed]
  simp [answers]

theorem encodings_ne_nil {x : Bytes} {xs : List Bytes} : encodings (x :: xs) ≠ [] := by
  simp [encodings, encode]

structure AtRest (s : Server World) : Prop where
  running : s.running = none
  owed_eq : s.owed = []
  stream_eq : streamBytes s.fd.events = []

section

variable (hmode : Mode σ left s)

include hmode

theorem waiting_of_idle (hrunning : s.running = none)
    (howed : s.owed = []) (hleft : left ≠ []) :
    s.client.removed = false ∧ s.client.rfd = true ∧ streamBytes s.fd.events ≠ [] ∧
      ∃ cb, s.client.onReadable = some cb ∧ (cb.IsReader ∨ cb = .storeOnReadable) := by
  cases hmode with
  | fresh running h =>
    refine ⟨h.ended.live, h.rfd, ?_, _, h.onReadable, .inr rfl⟩
    rw [h.unread.stream_eq]
    cases left with
    | nil => exact absurd rfl hleft
    | cons x xs => exact encodings_ne_nil
  | reading running h quiet =>
    refine ⟨h.ended.live, h.rfd, quiet.resolve_left hleft, ?_⟩
    rw [h.onReadable]
    cases hphase : σ.phase with
    | readreq => exact ⟨_, rfl, .inl (.inl rfl)⟩
    | readentered => exact ⟨_, rfl, .inl (.inr rfl)⟩
    | finished => exact absurd hphase h.active
  | receiving running h =>
    rw [hrunning] at running
    have hactive := h.active
    cases hphase : σ.phase <;> rw [hphase] at running hactive
    · cases running
    · cases running
    · exact absurd rfl hactive
  | sending running h => exact absurd howed h.owed_ne
  | sendingFd running h =>
    rw [h.owed_eq] at howed
    cases howed
  | sentStatus running h =>
    rw [hrunning] at running
    cases running
  | sentList running h =>
    rw [hrunning] at running
    cases running
  | closing running h => exact absurd h.left_eq hleft
  | closed running h => exact absurd h.left_eq hleft

theorem left_eq_nil_of_atRest (hrest : AtRest s) : left = [] := by
  by_contra hleft
  obtain ⟨-, -, hstream, -⟩ := waiting_of_idle hmode hrest.running hrest.owed_eq hleft
  exact hstream hrest.stream_eq

theorem sending_of_owed (howed : s.owed ≠ []) :
    (s.running = none ∨ s.running = some .onEdsClientSend) ∧ Sending σ left s ∨
      (s.running = none ∨ s.running = some (.callback .onSendfd)) ∧ SendingFd σ left s := by
  cases hmode with
  | sending running h => exact .inl ⟨running, h⟩
  | sendingFd running h => exact .inr ⟨running, h⟩
  | fresh running h =>
    refine absurd (owed_of_unregistered h.ended.wrdata_eq (.inl h.onWritable)) howed
  | reading running h quiet =>
    exact absurd (owed_of_unregistered h.ended.wrdata_eq h.unregistered) howed
  | receiving running h =>
    exact absurd (owed_of_unregistered h.ended.wrdata_eq h.unregistered) howed
  | sentStatus running h =>
    exact absurd (owed_of_unregistered h.ended.wrdata_eq h.unregistered) howed
  | sentList running h => exact absurd (owed_eq_nil h.ended.wrdata_eq h.onWritable) howed
  | closing running h =>
    exact absurd (owed_of_unregistered h.ended.wrdata_eq h.unregistered) howed
  | closed running h =>
    exact absurd (owed_of_unregistered h.wrdata_eq (.inl h.onWritable)) howed

theorem writable_of_owed (howed : s.owed ≠ []) :
    s.client.removed = false ∧ s.client.wfd = true ∧ ∃ handler, s.client.onWritable = some handler := by
  obtain ⟨-, h⟩ | ⟨-, h⟩ := sending_of_owed hmode howed
  · exact ⟨h.live, h.wfd, _, h.onWritable⟩
  · exact ⟨h.ended.live, h.wfd, _, h.onWritable⟩

theorem isWrite_of_owed (howed : s.owed ≠ []) (hrunning : s.running ≠ none)
    {choice : Choice} (hstep : Server.step out s choice = some s') : choice.IsWrite := by
  obtain ⟨running, h⟩ | ⟨running, h⟩ := sending_of_owed hmode howed
  · replace running := running.resolve_left hrunning
    cases choice with
    | write accepted => trivial
    | _ => simp [Server.step, running, h.wrdata_ne] at hstep
  · replace running := running.resolve_left hrunning
    cases choice with
    | sendmsg accepted => trivial
    | _ => simp [Server.step, running] at hstep

end

/-- What is left to do, but for the steps that only wait. -/
def remaining (session : Session out) (left : List Bytes) (s : Server World) : ℕ :=
  left.length + againCount s.fd.events + (session.items.length - s.sent.length)

/-- A step takes the session nearer to its end, or the code nearer to `select`. -/
inductive Settles (session : Session out) (σ : State World) (served left : List Bytes)
    (s s' : Server World) (choice : Choice) : Prop where
  | falls {σ' : State World} {served' left' : List Bytes}
      (ledger : session.Ledger σ' served' left' s')
      (remaining_lt : session.remaining left' s' < session.remaining left s)
  | stalls (ledger : session.Ledger σ served left s') (sent_eq : s'.sent = s.sent)
      (remaining_eq : session.remaining left s' = session.remaining left s)
      (refused : ¬ choice.Accepts)
      (reader : ∀ cb, s.running = some (.callback cb) → ¬ cb.IsReader)
      (turns : choice.IsSelect ∨ s'.rank < s.rank)

theorem reading_of_reader (hmode : Mode σ left s) {cb : Callback}
    (hrunning : s.running = some (.callback cb)) (hreader : cb.IsReader) :
    s.running = (readerOf σ.phase).map .callback ∧ Reading σ left s := by
  have hother : ∀ {running : Option Running}, s.running = running →
      running = some (.callback cb) := fun heq => heq.symm.trans hrunning
  cases hmode with
  | receiving running h => exact ⟨running, h⟩
  | fresh running h =>
    obtain hnone | hstart := running
    · cases hother hnone
    · cases hother hstart
      obtain heq | heq := hreader <;> cases heq
  | reading running h quiet => cases hother running
  | sending running h =>
    obtain hnone | hsend := running
    · cases hother hnone
    · cases hother hsend
  | sendingFd running h =>
    obtain hnone | hsend := running
    · cases hother hnone
    · cases hother hsend
      obtain heq | heq := hreader <;> cases heq
  | sentStatus running h =>
    cases hother running
    obtain heq | heq := hreader <;> cases heq
  | sentList running h =>
    cases hother running
    obtain heq | heq := hreader <;> cases heq
  | closing running h => cases hother running
  | closed running h => cases hother running

theorem wrdata_ne_of_onEdsClientSend (hmode : Mode σ left s)
    (hrunning : s.running = some .onEdsClientSend) : s.client.wrdata ≠ [] := by
  have hother : ∀ {running : Option Running}, s.running = running →
      running = some .onEdsClientSend := fun heq => heq.symm.trans hrunning
  cases hmode with
  | sending running h => exact h.wrdata_ne
  | receiving running h =>
    have hreader := hother running
    cases hphase : σ.phase <;> rw [hphase] at hreader <;> cases hreader
  | fresh running h =>
    obtain hnone | hstart := running
    · cases hother hnone
    · cases hother hstart
  | sendingFd running h =>
    obtain hnone | hsend := running
    · cases hother hnone
    · cases hother hsend
  | reading running h quiet => cases hother running
  | sentStatus running h => cases hother running
  | sentList running h => cases hother running
  | closing running h => cases hother running
  | closed running h => cases hother running

theorem Ledger.settles (h : session.Ledger σ served left s) {choice : Choice}
    (hmeets : Meets s choice) (hstep : Server.step out s choice = some s') :
    session.Settles σ served left s s' choice := by
  obtain ⟨items, hsent, haccepts⟩ := sent_step hstep
  have hgrows : s.sent.length + items.length = s'.sent.length := by
    rw [hsent, List.length_append]
  have hanswered : ∀ {x : Bytes} {xs : List Bytes} {σ' : State World}, left = x :: xs →
      session.Ledger σ' (served ++ [x]) xs s' →
      againCount s'.fd.events ≤ againCount s.fd.events →
      session.Settles σ served left s s' choice := by
    rintro x xs σ' rfl ledger again_le
    refine .falls ledger ?_
    unfold remaining
    rw [List.length_cons]
    omega
  by_cases hreader : ∃ cb, s.running = some (.callback cb) ∧ cb.IsReader
  · obtain ⟨cb, hrunning, hcb⟩ := hreader
    obtain ⟨hruns, hreading⟩ := reading_of_reader h.mode hrunning hcb
    cases h.advance (hreading.reads hruns h.length_lt h.wellFormed hmeets hstep) with
    | answered left_eq ledger again_le => exact hanswered left_eq ledger again_le
    | same ledger again_le =>
      refine .falls ledger ?_
      unfold remaining
      omega
  · cases h.step hmeets hstep with
    | answered left_eq ledger again_le => exact hanswered left_eq ledger again_le
    | same ledger again_le =>
      have hbound := ledger.sent_isPrefix.length_le
      by_cases hwaits : items = [] ∧ againCount s'.fd.events = againCount s.fd.events
      · obtain ⟨rfl, hagain⟩ := hwaits
        rw [List.append_nil] at hsent
        refine .stalls ledger hsent ?_ (fun h => haccepts h rfl)
          (fun cb hrunning hcb => hreader ⟨cb, hrunning, hcb⟩) ?_
        · unfold remaining
          rw [hsent, hagain]
        · cases turns_of_step hstep with
          | select select => exact .inl select
          | reads running reader => exact absurd ⟨_, running, reader⟩ hreader
          | accepts accepts => exact absurd rfl (haccepts accepts)
          | sent running wrdata_eq =>
            exact absurd wrdata_eq (wrdata_ne_of_onEdsClientSend h.mode running)
          | falls rank_lt => exact .inr rank_lt
      · refine .falls ledger ?_
        unfold remaining
        by_cases hnil : items = []
        · have hless : againCount s'.fd.events ≠ againCount s.fd.events := fun heq => hwaits ⟨hnil, heq⟩
          omega
        · have hpos := List.length_pos_of_ne_nil hnil
          omega

/-- A run that goes on for ever and whose steps meet the condition. -/
abbrev Run (session : Session out) :=
  Endless (· = session.start) Meets fun s choice s' => Server.step out s choice = some s'

/-- `select` reports what the client has sent and that there is room for an answer,
and a client that is offered something again and again takes some of it. -/
structure Run.Fair (run : session.Run) : Prop where
  readable : WeaklyFair
    (fun time => (run.event time).IsSelect →
      (run.state time).client.rfd = true ∧ streamBytes (run.state time).fd.events ≠ [])
    fun time => ∃ writable, run.event time = .select true writable
  writable : WeaklyFair
    (fun time => (run.event time).IsSelect → (run.state time).client.wfd = true)
    fun time => ∃ readable, run.event time = .select readable true
  takes : ∀ start, (∀ time ≥ start, ∃ later ≥ time, (run.event later).IsWrite) →
    ∃ time ≥ start, (run.event time).Accepts

def Run.Remains (run : session.Run) (time m : ℕ) : Prop :=
  ∃ σ served left, session.Ledger σ served left (run.state time) ∧
    session.remaining left (run.state time) = m

theorem Run.remains (run : session.Run) (time : ℕ) : ∃ m, run.Remains time m := by
  obtain ⟨σ, served, left, hledger⟩ := Reached.ledger (run.reachable time)
  exact ⟨_, σ, served, left, hledger, rfl⟩

theorem Run.eventually_selects (run : session.Run) (start : ℕ) :
    ∃ time ≥ start, (run.event time).IsSelect := by
  obtain ⟨m, hremains⟩ := run.remains start
  refine @eventually_of_falls run.Remains (fun time => (run.event time).IsSelect) ?_ start m
    hremains
  rintro start m ⟨σ, served, left, hledger, hm⟩
  refine @eventually_of_falls
    (fun time r => session.Ledger σ served left (run.state time) ∧
      session.remaining left (run.state time) = m ∧ (run.state time).rank = r)
    (fun time => (run.event time).IsSelect ∨ ∃ less < m, run.Remains time less) ?_ start _
    ⟨hledger, hm, rfl⟩
  rintro time r ⟨hledger, rfl, rfl⟩
  cases hledger.settles (run.allows time) (run.steps time) with
  | falls ledger remaining_lt =>
    exact ⟨time + 1, Nat.le_succ time, .inl (.inr ⟨_, remaining_lt, _, _, _, ledger, rfl⟩)⟩
  | stalls ledger sent_eq remaining_eq refused reader turns =>
    obtain hselect | hrank := turns
    · exact ⟨time, le_rfl, .inl (.inl hselect)⟩
    · exact ⟨time + 1, Nat.le_succ time, .inr ⟨_, hrank, ledger, remaining_eq, rfl⟩⟩

structure Run.Stalled (run : session.Run) (start : ℕ) (σ : State World)
    (served left : List Bytes) : Prop where
  ledger : ∀ time ≥ start, session.Ledger σ served left (run.state time)
  owed_eq : ∀ time ≥ start, (run.state time).owed = (run.state start).owed
  refused : ∀ time ≥ start, ¬ (run.event time).Accepts
  reader : ∀ time ≥ start, ∀ cb, (run.state time).running = some (.callback cb) → ¬ cb.IsReader

theorem Run.stalled (run : session.Run) {start : ℕ}
    (hledger : session.Ledger σ served left (run.state start))
    (hnever : ∀ time ≥ start, ∀ less < session.remaining left (run.state start),
      ¬ run.Remains time less) : run.Stalled start σ served left := by
  have hsettles : ∀ time ≥ start, session.Ledger σ served left (run.state time) →
      session.remaining left (run.state time) = session.remaining left (run.state start) →
      session.Ledger σ served left (run.state (time + 1)) ∧
        session.remaining left (run.state (time + 1)) =
          session.remaining left (run.state start) ∧
        (run.state (time + 1)).sent = (run.state time).sent ∧ ¬ (run.event time).Accepts ∧
        ∀ cb, (run.state time).running = some (.callback cb) → ¬ cb.IsReader := by
    intro time htime hledger hremaining
    cases hledger.settles (run.allows time) (run.steps time) with
    | falls ledger remaining_lt =>
      rw [hremaining] at remaining_lt
      exact absurd ⟨_, _, _, ledger, rfl⟩
        (hnever (time + 1) (Nat.le_succ_of_le htime) _ remaining_lt)
    | stalls ledger sent_eq remaining_eq refused reader turns =>
      exact ⟨ledger, remaining_eq.trans hremaining, sent_eq, refused, reader⟩
  have hall : ∀ time ≥ start, session.Ledger σ served left (run.state time) ∧
      session.remaining left (run.state time) = session.remaining left (run.state start) ∧
      (run.state time).sent = (run.state start).sent := by
    intro time htime
    induction time, htime using Nat.le_induction with
    | base => exact ⟨hledger, rfl, rfl⟩
    | succ time htime ih =>
      obtain ⟨hnext, hremaining, hsent, -⟩ := hsettles time htime ih.1 ih.2.1
      exact ⟨hnext, hremaining, hsent.trans ih.2.2⟩
  constructor
  · exact fun time htime => (hall time htime).1
  · intro time htime
    have hsame := (hall time htime).1.sent_eq.trans hledger.sent_eq.symm
    rw [(hall time htime).2.2] at hsame
    exact List.append_cancel_left hsame
  · intro time htime
    exact (hsettles time htime (hall time htime).1 (hall time htime).2.1).2.2.2.1
  · intro time htime
    exact (hsettles time htime (hall time htime).1 (hall time htime).2.1).2.2.2.2

theorem Run.Stalled.owed_eq_nil {run : session.Run} {start : ℕ}
    (h : run.Stalled start σ served left) (hfair : run.Fair) : (run.state start).owed = [] := by
  by_contra howed
  have howes : ∀ time ≥ start, (run.state time).owed ≠ [] := by
    intro time htime
    rw [h.owed_eq time htime]
    exact howed
  have hwrites : ∀ time ≥ start, ∃ later ≥ time, (run.event later).IsWrite := by
    intro time htime
    obtain ⟨t, ht, readable, hchoice⟩ := hfair.writable time fun later hlater _ =>
      (writable_of_owed (h.ledger later (htime.trans hlater)).mode
        (howes later (htime.trans hlater))).2.1
    have hstart : start ≤ t := htime.trans ht
    obtain ⟨hrunning, hwaiting, readable, writable, hselect, hreported⟩ :=
      idle_of_select (by rw [hchoice]; trivial) (run.steps t)
    cases hchoice.symm.trans hselect
    obtain ⟨hlive, -, handler, hhandler⟩ :=
      writable_of_owed (h.ledger t hstart).mode (howes t hstart)
    have hread := step_onReadable (by rw [hreported, hrunning]) (by rw [hreported, hwaiting])
      (by rw [hreported, hlive]) (run.steps (t + 1)) (by rw [hreported])
    rw [hreported] at hread
    by_cases hruns : (run.state (t + 2)).running = none
    · have hwrite := step_onWritable hruns (by rw [hread, hwaiting]) (by rw [hread, hlive])
        (run.steps (t + 2)) (by rw [hread])
      refine ⟨t + 3, Nat.le_add_right_of_le ht, ?_⟩
      refine isWrite_of_owed (h.ledger _ (Nat.le_add_right_of_le hstart)).mode
        (howes _ (Nat.le_add_right_of_le hstart)) ?_ (run.steps (t + 3))
      rw [hwrite, hread]
      rw [hhandler]
      exact Option.some_ne_none _
    · exact ⟨t + 2, Nat.le_add_right_of_le ht, isWrite_of_owed
        (h.ledger _ (Nat.le_add_right_of_le hstart)).mode
        (howes _ (Nat.le_add_right_of_le hstart)) hruns (run.steps (t + 2))⟩
  obtain ⟨time, htime, haccepts⟩ := hfair.takes start hwrites
  exact h.refused time htime haccepts

theorem Run.Stalled.left_eq_nil {run : session.Run} {start : ℕ}
    (h : run.Stalled start σ served left) (hfair : run.Fair)
    (howed : (run.state start).owed = []) : left = [] := by
  by_contra hleft
  have hwaits : ∀ time ≥ start, (run.state time).running = none →
      (run.state time).client.removed = false ∧ (run.state time).client.rfd = true ∧
        streamBytes (run.state time).fd.events ≠ [] ∧
        ∃ cb, (run.state time).client.onReadable = some cb ∧
          (cb.IsReader ∨ cb = .storeOnReadable) := fun time htime hrunning =>
    waiting_of_idle (h.ledger time htime).mode hrunning ((h.owed_eq time htime).trans howed) hleft
  obtain ⟨t, ht, writable, hchoice⟩ := hfair.readable start fun time htime hselect => by
    obtain ⟨hrunning, -⟩ := idle_of_select hselect (run.steps time)
    obtain ⟨-, hrfd, hstream, -⟩ := hwaits time htime hrunning
    exact ⟨hrfd, hstream⟩
  obtain ⟨hrunning, hwaiting, readable, writable, hselect, hreported⟩ :=
    idle_of_select (by rw [hchoice]; trivial) (run.steps t)
  cases hchoice.symm.trans hselect
  obtain ⟨hlive, -, -, cb, hcb, hreader⟩ := hwaits t ht hrunning
  have hread := step_onReadable (by rw [hreported, hrunning]) (by rw [hreported, hwaiting])
    (by rw [hreported, hlive]) (run.steps (t + 1)) (by rw [hreported])
  have hruns : (run.state (t + 2)).running = some (.callback cb) := by
    rw [hread, hreported]
    rw [if_pos rfl, hcb]
    rfl
  obtain hreader | rfl := hreader
  · exact h.reader (t + 2) (Nat.le_add_right_of_le ht) cb hruns hreader
  · apply h.reader (t + 3) (Nat.le_add_right_of_le ht) .onReadreq
    · exact running_of_storeOnReadable hruns (by rw [hread, hreported]; exact hlive)
        (run.steps (t + 2))
    · exact .inl rfl

theorem Run.eventually_answered (run : session.Run) (hfair : run.Fair) :
    ∃ time, (run.state time).sent = session.items := by
  have hfalls : ∀ start m, run.Remains start m → ∃ time ≥ start,
      (run.state time).sent = session.items ∨ ∃ less < m, run.Remains time less := by
    rintro start m ⟨σ, served, left, hledger, rfl⟩
    by_contra hnever
    simp only [not_exists, not_and, not_or] at hnever
    have hstalled := run.stalled hledger fun time htime less hless hremains =>
      (hnever time htime).2 less hless hremains
    have howed := hstalled.owed_eq_nil hfair
    exact (hnever start le_rfl).1
      (hledger.sent_eq_items (hstalled.left_eq_nil hfair howed) howed)
  obtain ⟨m, hremains⟩ := run.remains 0
  obtain ⟨time, -, hanswered⟩ := eventually_of_falls hfalls hremains
  exact ⟨time, hanswered⟩

theorem Run.sent_isPrefix (run : session.Run) {time later : ℕ} (h : time ≤ later) :
    (run.state time).sent <+: (run.state later).sent := by
  induction later, h using Nat.le_induction with
  | base => exact List.prefix_refl _
  | succ later _ ih =>
    obtain ⟨items, hsent, -⟩ := sent_step (run.steps later)
    rw [hsent]
    exact ih.trans (List.prefix_append _ _)

/-- Every request gets one answer, the answers come in the order of the requests,
and each is the one that its request gets when it is sent alone. -/
theorem answered_once_in_order (session : Session out) :
    session.responses.length = session.requests.length ∧
      (∀ s, session.Reached s →
        s.sent <+: session.items ∧ (AtRest s → s.sent = session.items)) ∧
      ∀ run : session.Run, (∀ start, ∃ time ≥ start, (run.event time).IsSelect) ∧
        (run.Fair → ∃ time, ∀ later ≥ time, (run.state later).sent = session.items) := by
  refine ⟨length_answers session.wellFormed, ?_, ?_⟩
  · intro s hreached
    obtain ⟨σ, served, left, hledger⟩ := hreached.ledger
    refine ⟨hledger.sent_isPrefix, fun hrest => ?_⟩
    exact hledger.sent_eq_items (left_eq_nil_of_atRest hledger.mode hrest) hrest.owed_eq
  · intro run
    refine ⟨run.eventually_selects, fun hfair => ?_⟩
    obtain ⟨time, hanswered⟩ := run.eventually_answered hfair
    refine ⟨time, fun later hlater => ?_⟩
    obtain ⟨σ, served, left, hledger⟩ := Reached.ledger (run.reachable later)
    have hgrows := run.sent_isPrefix hlater
    rw [hanswered] at hgrows
    exact hledger.sent_isPrefix.eq_of_length_le hgrows.length_le

end Session

/-! A client that waits for each of its answers, and one that does not -/

def listRequest : Bytes := (StoreReq.mk (some (ascii "list")) none none 0 none 0).members.body

def enterRequest : Bytes :=
  (StoreReq.mk (some (ascii "enter")) (some (ascii "0123456789abcdef0123")) none 0 none
    0).members.body

def openRequest : Bytes :=
  (StoreEnteredReq.mk (some (ascii "open")) (some (ascii "x")) 0 none none).members.body

def sampleSession : Session sampleOutside where
  hasMsgbuf := false
  msgbuf := yclMsgInit
  cli := ⟨[], -1, 0, []⟩
  world := ()
  requests := [listRequest, enterRequest, openRequest, openRequest]
  events :=
    [.data ((encode listRequest).take 3), .again, .data ((encode listRequest).drop 3), .again,
      .again, .data (encode enterRequest), .again,
      .data (encode openRequest ++ encode openRequest), .again]
  length_lt := by decide +kernel
  wellFormed := by decide +kernel
  delivers := by decide +kernel
  stream_eq := by decide +kernel

/-- The answer to `enter` is written in two pieces. -/
def sampleChoices : List Choice :=
  .select true false :: List.replicate 5 .go ++ [.select true false, .go, .go, .write (some 3)] ++
    List.replicate 7 .go ++ [.select true false, .go, .go, .write (some 20), .go, .go,
      .select false true, .go, .go, .write (some 16)] ++
    List.replicate 4 .go ++ [.select true false, .go, .go, .sendmsg true, .go, .sendmsg true] ++
    List.replicate 3 .go

theorem fair_of_endless {session : Session out} {s : Server World} (hwaits : Server.Waits s)
    (hwfd : s.client.wfd = false) (hstream : streamBytes s.fd.events = []) {run : session.Run}
    {length : ℕ} (hrun : ∀ time, run.state (time + length) = (hwaits.endless out).state time ∧
      run.event (time + length) = (hwaits.endless out).event time) : run.Fair := by
  have hselects : ∀ start, ∃ time ≥ start, (run.event time).IsSelect ∧
      (run.state time).client.wfd = false ∧ streamBytes (run.state time).fd.events = [] := by
    intro start
    obtain ⟨time, htime, hselect⟩ := run.eventually_selects (start + length)
    obtain ⟨later, rfl⟩ := Nat.exists_eq_add_of_le' (Nat.le_of_add_left_le htime)
    refine ⟨later + length, Nat.le_of_add_right_le htime, hselect, ?_⟩
    rw [(hrun later).1]
    exact ⟨hwfd, hstream⟩
  constructor
  · intro start henabled
    obtain ⟨time, htime, hselect, -, hempty⟩ := hselects start
    exact absurd hempty (henabled time htime hselect).2
  · intro start henabled
    obtain ⟨time, htime, hselect, hunregistered, -⟩ := hselects start
    rw [henabled time htime hselect] at hunregistered
    cases hunregistered
  · intro start hwrites
    obtain ⟨time, htime, hwrite⟩ := hwrites (start + length) (Nat.le_add_right start length)
    obtain ⟨later, rfl⟩ := Nat.exists_eq_add_of_le' (Nat.le_of_add_left_le htime)
    rw [(hrun later).2] at hwrite
    exact absurd hwrite (Server.not_isWrite_idleLoop later)

theorem answered_once_in_order_sample :
    sampleSession.responses.length = 4 ∧
      (∃ s, sampleSession.Reached s ∧ Session.AtRest s ∧ s.sent = sampleSession.items) ∧
      ∃ run : sampleSession.Run, run.Fair ∧
        ∃ time, ∀ later ≥ time, (run.state later).sent = sampleSession.items := by
  have hview : ∃ s ∈ sampleChoices.foldlM
      (fun s choice => if Server.Meets s choice then Server.step sampleOutside s choice else none)
      sampleSession.start, s.running = none ∧ s.waiting = 0 ∧ s.loop = .select ∧
        s.client.removed = false ∧ s.client.onReadable = some .onReadentered ∧
        s.client.wfd = false ∧ s.owed = [] ∧ streamBytes s.fd.events = [] := by
    decide +kernel
  obtain ⟨s, hrun, hrunning, hwaiting, hloop, hlive, hreadable, hwfd, howed, hstream⟩ := hview
  have hreached : sampleSession.Reached s := by
    refine Reachable.foldlM_of ?_ (.initial rfl) hrun
    intro choice _ before after hnext
    exact Option.ite_none_right_eq_some.mp hnext
  have hwaits : Server.Waits s := ⟨hrunning, hwaiting, hloop, hlive, by rw [hreadable]; simp⟩
  obtain ⟨hlength, hsafe, hlive⟩ := Session.answered_once_in_order sampleSession
  refine ⟨hlength, ⟨s, hreached, ⟨hrunning, howed, hstream⟩, ?_⟩, ?_⟩
  · exact (hsafe s hreached).2 ⟨hrunning, howed, hstream⟩
  · obtain ⟨run, length, hrun⟩ := Reachable.endless hreached (hwaits.endless sampleOutside)
    have hfair := fair_of_endless hwaits hwfd hstream hrun
    exact ⟨run, hfair, (hlive run).2 hfair⟩

def mergedSession : Session sampleOutside where
  hasMsgbuf := false
  msgbuf := yclMsgInit
  cli := ⟨[], -1, 0, []⟩
  world := ()
  requests := [listRequest, enterRequest]
  events := [.data (encode listRequest ++ encode enterRequest), .again, .again]
  length_lt := by decide +kernel
  wellFormed := by decide +kernel
  delivers := by decide +kernel
  stream_eq := by decide +kernel

/-- The message buffer is used for the list and cleared once that is sent, and the
request to enter a store is lost. -/
theorem merged_enter_unanswered :
    ∃ s, Reachable (· = mergedSession.start) (fun _ _ => True)
        (fun s choice s' => Server.step sampleOutside s choice = some s') s ∧
      Session.AtRest s ∧ s.waiting = 0 ∧ s.loop = .select ∧
      s.sent = (Response.list none []).items ∧ mergedSession.responses.length = 2 ∧
      s.sent ≠ mergedSession.items := by
  have hview : ∃ s ∈ (.select true false :: .go :: .go :: .go :: .write (some 3) ::
      List.replicate 7 Choice.go).foldlM (Server.step sampleOutside) mergedSession.start,
      s.running = none ∧ s.owed = [] ∧ streamBytes s.fd.events = [] ∧ s.waiting = 0 ∧
        s.loop = .select ∧ s.sent = (Response.list none []).items ∧
        mergedSession.responses.length = 2 ∧ s.sent ≠ mergedSession.items := by
    decide +kernel
  obtain ⟨s, hrun, hrunning, howed, hstream, hrest⟩ := hview
  refine ⟨s, ?_, ⟨hrunning, howed, hstream⟩, hrest⟩
  exact .foldlM (fun _ _ _ hnext => hnext) (fun _ _ _ => trivial) (.initial rfl) hrun

end Yans.Apps.Stored
