import Yans.Apps.Knegd

/-! What a request does to the world outside: it starts a job, it is put into the
queue or it asks for the state of some ids, and nothing else comes near the
queue. A view is any part of the world that all calls but those of the queue
leave alone. -/
namespace Yans.Apps.Knegd

open Library.Memory Library.Strings Util

structure Passes (req : KnegdReq) : Prop where
  notManifest : ¬ (lenOf req.type > 0 ∧ strEq req.type "MANIFEST")
  hasId : ¬ IsEmpty req.id

structure Queues (kngq : KngQueue) (req : KnegdReq) : Prop where
  passes : Passes req
  action : strEq req.action "queue"
  validType : IsValidType req.type
  component : 47 ∉ cstring (req.id.getD [])
  full : ¬ kngqNavailable kngq > 0

structure AsksStatus (req : KnegdReq) : Prop where
  passes : Passes req
  action : strEq req.action "status"

theorem strEq_iff {s : Option Bytes} {literal : String} :
    strEq s literal ↔ cstring (s.getD []) = cstring (ascii literal) := strcmp_eq_zero_iff

theorem not_strEq {s : Option Bytes} {left right : String} (h : strEq s left)
    (hne : cstring (ascii left) ≠ cstring (ascii right)) : ¬ strEq s right := by
  rw [strEq_iff] at h ⊢
  rwa [h]

theorem not_isEmpty_of_strEq {s : Option Bytes} {literal : String} (h : strEq s literal)
    (hne : cstring (ascii literal) ≠ []) : ¬ IsEmpty s := by
  rw [strEq_iff] at h
  unfold IsEmpty
  rwa [h]

theorem lenOf_ne_zero {data : Option Bytes} (h : ¬ IsEmpty data) : lenOf data ≠ 0 := by
  intro hzero
  apply h
  unfold IsEmpty
  rw [List.length_eq_zero_iff.mp hzero]
  rfl

variable {World α : Type} {out : Outside World} {opts : KngOpts} {view : World → α}

theorem appendJobStatus_run (jobs : List KngJob) (s : Bytes) (len : ℕ) (buf : Buf)
    (world : World) :
    (appendJobStatus out jobs s len).run (buf, world) =
      if (jobsFindById jobs s).isSome then
        some (1, (separate buf).adata (ascii "running"), world)
      else
        (out.queueContains s world).map fun found =>
          (1, (separate buf).adata (ascii (if found.1 then "queued" else "n/a")), found.2) := by
  unfold appendJobStatus
  by_cases hfind : (jobsFindById jobs s).isSome
  · simp only [hfind, if_true]
    rfl
  · simp only [hfind, Bool.false_eq_true, if_false]
    cases hfound : out.queueContains s world <;> simp [hfound]

def Outside.KeepsContains (out : Outside World) (view : World → α) : Prop :=
  ∀ id world contains after, out.queueContains id world = some (contains, after) →
    view after = view world

theorem view_appendJobStatuses (hcontains : out.KeepsContains view) {jobs : List KngJob}
    {buf after : Buf} {s : Bytes} {world mid : World}
    (h : appendJobStatuses out jobs buf s world = some (after, mid)) : view mid = view world := by
  obtain ⟨⟨ret, written, final⟩, hwalk, hrest⟩ := Option.bind_eq_some_iff.mp h
  cases hrest
  refine @Str.mapFieldLoop_keeps _ _ (fun st => view st.2 = view world) _ ?_ _ _ _ _ _ rfl hwalk
  intro text len before ret later hbefore hcall
  rw [show before = (before.1, before.2) from rfl, appendJobStatus_run] at hcall
  split at hcall
  · cases hcall
    exact hbefore
  · obtain ⟨found, hfound, hnext⟩ := Option.map_eq_some_iff.mp hcall
    cases hnext
    exact (hcontains _ _ _ _ hfound).trans hbefore

structure Outside.Keeps (out : Outside World) (view : World → α) : Prop where
  enter : ∀ id name world, view (out.enter id name world).2 = view world
  clock : ∀ world, view (out.clock world).2 = view world
  openLog : ∀ world, view (out.openLog world).2 = view world
  fork : ∀ exec world, view (out.fork exec world).2 = view world
  time : ∀ world, view (out.time world).2 = view world
  manifest : ∀ world, view (out.manifest world).2 = view world

variable {s : State World}

theorem onRequest_status {fd : ℤ} {respbuf : Buf} {req : KnegdReq}
    (h : AsksStatus req) : onRequest out opts fd respbuf req s =
      (appendJobStatuses out s.jobs respbuf (req.id.getD []) s.world).bind fun found =>
        some (writeOkResponse found.1.data, setRespbuf fd found.1 { s with world := found.2 }) := by
  unfold onRequest onIdAction
  rw [if_neg (not_isEmpty_of_strEq h.action (by decide)), if_neg h.passes.notManifest,
    if_neg (not_strEq h.action (by decide)), if_neg (not_strEq h.action (by decide)),
    if_neg (not_strEq h.action (by decide)), if_neg h.passes.hasId]
  rw [if_neg (not_strEq h.action (by decide)), if_neg (not_strEq h.action (by decide)),
    if_pos h.action]
  rfl

theorem onRequest_queue {fd : ℤ} {respbuf : Buf} {req : KnegdReq}
    (h : Queues s.kngq req) : onRequest out opts fd respbuf req s =
      (out.queuePut req s.world).map fun put =>
        (match put.1 with
          | some errmsg => some (.err (cstring errmsg))
          | none => writeOkResponse (ascii "OK"), { s with world := put.2 }) := by
  unfold onRequest onIdAction onQueue
  rw [if_neg (not_isEmpty_of_strEq h.action (by decide)), if_neg h.passes.notManifest,
    if_neg (not_strEq h.action (by decide)), if_neg (not_strEq h.action (by decide)),
    if_neg (not_strEq h.action (by decide)), if_neg h.passes.hasId]
  rw [if_pos h.action, if_neg (not_not.mpr h.validType), if_neg (lenOf_ne_zero h.passes.hasId),
    if_neg h.component, if_neg h.full]
  cases out.queuePut req s.world with
  | none => rfl
  | some put =>
    obtain ⟨errmsg, world⟩ := put
    cases errmsg <;> rfl

section

variable (hkeeps : out.Keeps view)

include hkeeps

theorem Outside.Keeps.jobNewEntered (type : Option Bytes) (okmsg : Bytes) (timeoutSec : ℤ)
    (world : World) :
    view (jobNewEntered out opts type okmsg timeoutSec world).2 = view world := by
  have hclock := hkeeps.clock world
  unfold Knegd.jobNewEntered
  split
  · rename_i hstarted
    rwa [hstarted] at hclock
  · rename_i started w hstarted
    rw [hstarted] at hclock
    have hlog := hkeeps.openLog w
    dsimp only
    split
    · rename_i hopen
      rw [hopen] at hlog
      exact hlog.trans hclock
    · rename_i w' hopen
      rw [hopen] at hlog
      have hfork := hkeeps.fork ⟨cstring (type.getD []), (cstring okmsg).take (idSize - 1),
        if timeoutSec > 0 then timeoutSec else opts.timeout⟩ w'
      split
      · rename_i hpid
        rw [hpid] at hfork
        exact hfork.trans (hlog.trans hclock)
      · rename_i hpid
        rw [hpid] at hfork
        exact hfork.trans (hlog.trans hclock)

theorem Outside.Keeps.jobNew (type id name : Option Bytes) (timeoutSec : ℤ) (world : World) :
    view (jobNew out opts type id name timeoutSec world).2 = view world := by
  have henter := hkeeps.enter id name world
  unfold Knegd.jobNew
  split
  · rfl
  · split
    · rename_i hresp
      rwa [hresp] at henter
    · rename_i hresp
      rw [hresp] at henter
      split
      · exact henter
      · split
        · exact henter
        · exact (hkeeps.jobNewEntered _ _ _ _).trans henter

theorem Outside.Keeps.startKnegdJob (req : KnegdReq) (s : State World) :
    view (startKnegdJob out opts req s).2.world = view s.world := by
  have hnew := @Outside.Keeps.jobNew _ _ _ opts _ hkeeps req.type req.id req.name
    (if req.timeout > 0 then req.timeout else 0) s.world
  unfold Knegd.startKnegdJob
  dsimp only
  split
  · rename_i hcall
    rwa [hcall] at hnew
  · rename_i hcall
    rwa [hcall] at hnew

theorem Outside.Keeps.loadManifest (buf : Buf) (world : World) :
    view (loadManifest out buf world).2 = view world := by
  have hmanifest := hkeeps.manifest world
  unfold Knegd.loadManifest
  split
  · rename_i hfile
    rwa [hfile] at hmanifest
  · rename_i hfile
    rwa [hfile] at hmanifest

theorem Outside.Keeps.kngOnTick (s : State World) :
    view (kngOnTick out s).world = view s.world := by
  have hclock := hkeeps.clock s.world
  unfold Knegd.kngOnTick jobsCheckTimes
  cases hnow : out.clock s.world with
  | mk now world =>
    rw [hnow] at hclock
    cases now with
    | none => exact hclock
    | some now => exact hclock

theorem Outside.Keeps.onStart (fd : ℤ) (respbuf : Buf) (req : KnegdReq) (s : State World) :
    view (onStart out opts fd respbuf req s).2.world = view s.world := by
  have hstart := @Outside.Keeps.startKnegdJob _ _ _ opts _ hkeeps req s
  unfold Knegd.onStart
  split
  · rename_i hcall
    rwa [hcall] at hstart
  · rename_i hcall
    rwa [hcall] at hstart

theorem Outside.Keeps.onRequest_other {fd : ℤ} {respbuf : Buf} {req : KnegdReq}
    (hqueue : ¬ Queues s.kngq req) (hstatus : ¬ AsksStatus req) :
    ∃ response after, onRequest out opts fd respbuf req s = some (response, after) ∧
      view after.world = view s.world := by
  unfold onRequest
  split
  · exact ⟨_, _, rfl, rfl⟩
  · split
    · exact ⟨_, _, rfl, rfl⟩
    · rename_i hmanifest
      split
      · exact ⟨_, _, rfl, hkeeps.onStart fd respbuf req s⟩
      · split
        · exact ⟨_, _, rfl, hkeeps.loadManifest respbuf s.world⟩
        · split
          · exact ⟨_, _, rfl, rfl⟩
          · split
            · exact ⟨_, _, rfl, rfl⟩
            · rename_i hid
              have hpasses : Passes req := ⟨hmanifest, hid⟩
              unfold onIdAction
              split
              · rename_i haction
                unfold onQueue
                split
                · exact ⟨_, _, rfl, rfl⟩
                · rename_i htype
                  rw [not_not] at htype
                  split
                  · exact ⟨_, _, rfl, rfl⟩
                  · split
                    · exact ⟨_, _, rfl, rfl⟩
                    · rename_i hcomponent
                      split
                      · have hstart := @Outside.Keeps.startKnegdJob _ _ _ opts _ hkeeps req s
                        split
                        · rename_i err s' hcall
                          rw [hcall] at hstart
                          exact ⟨_, _, rfl, hstart⟩
                        · rename_i job s' hcall
                          rw [hcall] at hstart
                          exact ⟨_, _, rfl, hstart⟩
                      · rename_i hfull
                        exact absurd ⟨hpasses, haction, htype, hcomponent, hfull⟩ hqueue
              · split
                · exact ⟨_, _, rfl, rfl⟩
                · split
                  · rename_i haction
                    exact absurd ⟨hpasses, haction⟩ hstatus
                  · split
                    · exact ⟨_, _, rfl, rfl⟩
                    · exact ⟨_, _, rfl, rfl⟩

theorem Outside.Keeps.onRequest_cases (hcontains : out.KeepsContains view) {fd : ℤ}
    {respbuf : Buf} {req : KnegdReq} {after : State World} {response : Option Response}
    (h : onRequest out opts fd respbuf req s = some (response, after)) :
    view after.world = view s.world ∨
      Queues s.kngq req ∧ ∃ errmsg, out.queuePut req s.world = some (errmsg, after.world) := by
  by_cases hqueue : Queues s.kngq req
  · right
    rw [onRequest_queue hqueue] at h
    obtain ⟨⟨errmsg, world⟩, hput, hafter⟩ := Option.map_eq_some_iff.mp h
    cases hafter
    exact ⟨hqueue, errmsg, hput⟩
  · left
    by_cases hstatus : AsksStatus req
    · rw [onRequest_status hstatus] at h
      obtain ⟨⟨buf, world⟩, hfound, hafter⟩ := Option.bind_eq_some_iff.mp h
      cases hafter
      exact view_appendJobStatuses hcontains hfound
    · obtain ⟨response', after', hrequest, hview⟩ := hkeeps.onRequest_other hqueue hstatus
      rw [hrequest] at h
      cases h
      exact hview

end

end Yans.Apps.Knegd
