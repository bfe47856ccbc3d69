import Yans.Apps.KnegdQueue
import Yans.Apps.KnegdSlots
import Yans.Apps.KnegdWorld

/-! The ids in requests, and the paths of the links that are made from them. -/
namespace Yans.Apps.Knegd

open Library.Memory Library.Strings Util

/-- The path is that of a link below `ids`, for the whole id. -/
structure Below (basepath : Bytes) (use : LinkUse) : Prop where
  path_eq : use.path =
    basepath ++ ascii "/ids/" ++ use.id.drop (use.id.length - 2) ++ 47 :: use.id
  long : 2 < use.id.length
  component : 47 ∉ use.id
  not_parent : use.id.drop (use.id.length - 2) ≠ ascii ".."

def linkUse (basepath id : Bytes) : LinkUse :=
  ⟨id, basepath ++ ascii "/ids/" ++ id.drop (id.length - 2) ++ 47 :: id⟩

def Fits (basepath id : Bytes) : Prop := (linkUse basepath id).path.length < pathSize

instance (basepath id : Bytes) : Decidable (Fits basepath id) :=
  inferInstanceAs (Decidable (_ < _))

/-- An id that the queue can work with: it has more than two characters and, where
the path of its link fits, no slash and not two dots at its end. -/
structure GoodId (basepath id : Bytes) : Prop where
  long : 2 < id.length
  component : Fits basepath id → 47 ∉ id
  not_parent : Fits basepath id → id.drop (id.length - 2) ≠ ascii ".."

/-- The paths that are made from an id in one go. -/
def usesOf (basepath id : Bytes) : List LinkUse :=
  if Fits basepath id then [linkUse basepath id] else []

theorem goodId_iff (basepath id : Bytes) :
    GoodId basepath id ↔ 2 < id.length ∧ ∀ use ∈ usesOf basepath id, Below basepath use := by
  unfold usesOf
  constructor
  · intro h
    refine ⟨h.long, fun use huse => ?_⟩
    split at huse
    · rename_i hfits
      obtain rfl := List.mem_singleton.mp huse
      exact ⟨rfl, h.long, h.component hfits, h.not_parent hfits⟩
    · cases huse
  · rintro ⟨hlong, hbelow⟩
    refine ⟨hlong, fun hfits => ?_, fun hfits => ?_⟩
    · rw [if_pos hfits] at hbelow
      exact (hbelow _ List.mem_cons_self).component
    · rw [if_pos hfits] at hbelow
      exact (hbelow _ List.mem_cons_self).not_parent

variable {World : Type} {fs : Fs World}

variable {id : Bytes}

theorem kngqMklinkdirpath_eq_none_iff {kngq : Kngq} :
    kngqMklinkdirpath kngq id = none ↔ ¬ 2 < id.length := by
  unfold kngqMklinkdirpath
  split <;> simp_all

theorem dstpathOf_cases (dirpath id : Bytes) :
    (dstpathOf (snprintf pathSize dirpath) id).length > pathSize - 1 ∧
        ¬ (dirpath ++ 47 :: id).length < pathSize ∨
      ¬ (dstpathOf (snprintf pathSize dirpath) id).length > pathSize - 1 ∧
        (dirpath ++ 47 :: id).length < pathSize ∧
        dstpathOf (snprintf pathSize dirpath) id = dirpath ++ 47 :: id := by
  have hsize : pathSize = 512 := rfl
  have hcut : (dstpathOf (snprintf pathSize dirpath) id).length =
      min 511 dirpath.length + id.length + 1 := by
    unfold dstpathOf snprintf
    rw [List.length_append, List.length_take, List.length_cons]
    omega
  have hwhole : (dirpath ++ 47 :: id).length = dirpath.length + id.length + 1 := by
    rw [List.length_append, List.length_cons]
    omega
  by_cases hfits : (dirpath ++ 47 :: id).length < pathSize
  · refine .inr ⟨by omega, hfits, ?_⟩
    unfold dstpathOf snprintf
    rw [List.take_of_length_le (by omega)]
  · exact .inl ⟨by omega, hfits⟩

theorem kngqMklinkdirpath_cases (hlong : 2 < id.length) (kngq : Kngq) :
    ∃ dirpath, kngqMklinkdirpath kngq id = some dirpath ∧
      ((dstpathOf dirpath id).length > pathSize - 1 ∧ usesOf kngq.basepath id = [] ∨
        ¬ (dstpathOf dirpath id).length > pathSize - 1 ∧
          usesOf kngq.basepath id = [⟨id, dstpathOf dirpath id⟩]) := by
  refine ⟨_, if_pos hlong, ?_⟩
  obtain ⟨hcut, hnot⟩ | ⟨hroom, hfits, hwhole⟩ :=
    dstpathOf_cases (kngq.basepath ++ ascii "/ids/" ++ id.drop (id.length - 2)) id
  · exact .inl ⟨hcut, if_neg hnot⟩
  · refine .inr ⟨hroom, (if_pos hfits).trans ?_⟩
    rw [hwhole]
    rfl

structure Leaves (id : Bytes) (q q' : Queue World) : Prop where
  basepath : q'.kngq.basepath = q.kngq.basepath
  uses : q'.uses = q.uses ++ usesOf q.kngq.basepath id

theorem kngqContains_leaves (hlong : 2 < id.length) (q : Queue World) :
    ∃ found q', kngqContains fs id q = some (found, q') ∧ Leaves id q q' := by
  obtain ⟨dirpath, hdirpath, ⟨hcut, huses⟩ | ⟨hroom, huses⟩⟩ := kngqMklinkdirpath_cases hlong q.kngq
  · refine ⟨false, setErr e2big q, ?_, rfl, ?_⟩
    · simp [kngqContains, hdirpath, hcut]
    · rw [huses, List.append_nil]
      rfl
  · unfold kngqContains
    rw [hdirpath, Option.bind_eq_bind, Option.bind_some]
    rw [if_neg hroom]
    exact ⟨_, _, rfl, rfl, congrArg (q.uses ++ ·) huses.symm⟩

theorem kngqUnlinkId_leaves (hlong : 2 < id.length) (q : Queue World) :
    ∃ done q', kngqUnlinkId fs id q = some (done, q') ∧ Leaves id q q' := by
  obtain ⟨dirpath, hdirpath, ⟨hcut, huses⟩ | ⟨hroom, huses⟩⟩ := kngqMklinkdirpath_cases hlong q.kngq
  · refine ⟨false, setErr e2big q, ?_, rfl, ?_⟩
    · simp [kngqUnlinkId, hdirpath, hcut]
    · rw [huses, List.append_nil]
      rfl
  · unfold kngqUnlinkId
    rw [hdirpath, Option.bind_eq_bind, Option.bind_some]
    dsimp only
    rw [if_neg hroom]
    cases (fs.unlink (dstpathOf dirpath id) q.world).1 with
    | none => exact ⟨_, _, rfl, rfl, congrArg (q.uses ++ ·) huses.symm⟩
    | some err => exact ⟨_, _, rfl, rfl, congrArg (q.uses ++ ·) huses.symm⟩

theorem kngqContains_eq_none (hshort : ¬ 2 < id.length) (q : Queue World) :
    kngqContains fs id q = none := by
  unfold kngqContains
  rw [kngqMklinkdirpath_eq_none_iff.mpr hshort]
  rfl

theorem kngqUnlinkId_eq_none (hshort : ¬ 2 < id.length) (q : Queue World) :
    kngqUnlinkId fs id q = none := by
  unfold kngqUnlinkId
  rw [kngqMklinkdirpath_eq_none_iff.mpr hshort]
  rfl

theorem kngqLinkId_eq_none (hshort : ¬ 2 < id.length) (srcpath : Bytes)
    (q : Queue World) : kngqLinkId fs id srcpath q = none := by
  unfold kngqLinkId
  rw [kngqMklinkdirpath_eq_none_iff.mpr hshort]
  rfl

theorem makeLink_uses (fs : Fs World) (srcpath dirpath id : Bytes) (q : Queue World) :
    (makeLink fs srcpath dirpath id q).2.kngq.basepath = q.kngq.basepath ∧
      ∃ n : ℕ, (makeLink fs srcpath dirpath id q).2.uses =
        q.uses ++ List.replicate (n + 1) ⟨id, dstpathOf dirpath id⟩ := by
  unfold makeLink
  dsimp only
  split
  · exact ⟨rfl, 1, List.append_assoc _ _ _⟩
  · exact ⟨rfl, 0, rfl⟩

theorem kngqLinkId_uses (hlong : 2 < id.length) (srcpath : Bytes) (q : Queue World) :
    ∃ done q' new, kngqLinkId fs id srcpath q = some (done, q') ∧
      q'.kngq.basepath = q.kngq.basepath ∧ q'.uses = q.uses ++ new ∧
      ∀ use, use ∈ new ↔ use ∈ usesOf q.kngq.basepath id := by
  obtain ⟨dirpath, hdirpath, ⟨hcut, huses⟩ | ⟨hroom, huses⟩⟩ := kngqMklinkdirpath_cases hlong q.kngq
  · refine ⟨false, setErr e2big q, [], ?_, rfl, (List.append_nil _).symm, ?_⟩
    · simp [kngqLinkId, hdirpath, hcut]
    · simp [huses]
  · obtain ⟨hbase, n, hnew⟩ := makeLink_uses fs srcpath dirpath id q
    have hmem : ∀ use : LinkUse, use ∈ List.replicate (n + 1) ⟨id, dstpathOf dirpath id⟩ ↔
        use ∈ usesOf q.kngq.basepath id := by
      intro use
      rw [huses, List.mem_replicate, List.mem_singleton]
      exact and_iff_right (Nat.succ_ne_zero n)
    unfold kngqLinkId
    rw [hdirpath, Option.bind_eq_bind, Option.bind_some, if_neg hroom]
    cases hlink : makeLink fs srcpath dirpath id q with
    | mk err q' =>
      rw [hlink] at hbase hnew
      cases err with
      | none => exact ⟨_, _, _, rfl, hbase, hnew, hmem⟩
      | some err => exact ⟨_, _, _, rfl, hbase, hnew, hmem⟩

/-- No assertion fails, and every path that is made from an id is below `ids`. -/
def Confined (q : Queue World) (after : Option (Queue World)) : Prop :=
  ∃ q' new, after = some q' ∧ q'.uses = q.uses ++ new ∧ ∀ use ∈ new, Below q.kngq.basepath use

variable {q : Queue World}

theorem confined_of_uses_eq {q' : Queue World} (h : q'.uses = q.uses) : Confined q (some q') :=
  ⟨q', [], rfl, h.trans (List.append_nil _).symm, nofun⟩

def Linkable (basepath : Bytes) : Prop :=
  ∃ (t : ℤ) (seq : ℕ), (relpathOf (entryPath ⟨basepath, 0, seq⟩ (timestrOf t))).length < pathSize

variable {req : KnegdReq} {path : Bytes}

theorem kngqPutOpened_confined (hid : (relpathOf path).length < pathSize →
      GoodId q.kngq.basepath (cstring (req.id.getD []))) :
    Confined q ((kngqPutOpened fs req path q).map Prod.snd) := by
  unfold kngqPutOpened
  dsimp only
  split
  · exact confined_of_uses_eq rfl
  · split
    · exact confined_of_uses_eq rfl
    · rename_i hroom
      have hsize : pathSize = 512 := rfl
      obtain ⟨hlong, hbelow⟩ := (goodId_iff _ _).mp (hid (by omega))
      obtain ⟨done, q', new, hlink, -, huses, hnew⟩ := @kngqLinkId_uses _ fs _ hlong
        (relpathOf path) { q with world := (fs.write path req q.world).2 }
      have hall : ∀ use ∈ new, Below q.kngq.basepath use :=
        fun use huse => hbelow use ((hnew use).mp huse)
      rw [hlink]
      cases done with
      | true => exact ⟨_, new, rfl, huses, hall⟩
      | false => exact ⟨_, new, rfl, huses, hall⟩

theorem kngqPutIn_confined {t : ℤ}
    (hid : Linkable q.kngq.basepath → GoodId q.kngq.basepath (cstring (req.id.getD []))) :
    Confined q ((kngqPutIn fs req (timestrOf t) q).map Prod.snd) := by
  unfold kngqPutIn
  dsimp only
  split
  · exact confined_of_uses_eq rfl
  · exact kngqPutOpened_confined fun hroom => hid ⟨t, q.kngq.seq, hroom⟩

theorem kngqPut_confined
    (hid : Linkable q.kngq.basepath → GoodId q.kngq.basepath (cstring (req.id.getD []))) :
    Confined q ((kngqPut fs req q).map Prod.snd) := by
  unfold kngqPut
  dsimp only
  split
  · exact kngqPutIn_confined (q := { q with world := _ }) hid
  · split
    · exact confined_of_uses_eq rfl
    · exact kngqPutIn_confined (q := { q with world := _ }) hid

def Delivers (fs : Fs World) (q : Queue World) (req : KnegdReq) : Prop :=
  ∃ path ctime, (fs.nextFile q.world).1 = some (path, ctime) ∧
    (fs.openFile path (fs.nextFile q.world).2).1 = true ∧
    (fs.recvmsg path (fs.openFile path (fs.nextFile q.world).2).2).1 = some req

theorem kngqNextOpened_confined_iff {ctime : ℤ}
    (hreq : (fs.recvmsg path q.world).1 = some req) :
    Confined q ((kngqNextOpened fs path ctime q).map Prod.snd) ↔
      ∀ id ∈ req.id, GoodId q.kngq.basepath (cstring id) := by
  unfold kngqNextOpened
  cases hrecv : fs.recvmsg path q.world with
  | mk found world =>
    rw [hrecv] at hreq
    dsimp only at hreq
    subst hreq
    dsimp only
    cases req.id with
    | none => exact iff_of_true (confined_of_uses_eq rfl) nofun
    | some id =>
      simp only [Option.mem_some, forall_eq']
      rw [goodId_iff]
      by_cases hlong : 2 < (cstring id).length
      · obtain ⟨done, q', hunlink, hbase, huses⟩ :=
          @kngqUnlinkId_leaves _ fs _ hlong { q with world := world }
        rw [hunlink]
        simp only [hlong, true_and]
        constructor
        · rintro ⟨after, new, hafter, hnew, hbelow⟩ use huse
          cases hafter
          have hsame : new = usesOf q.kngq.basepath (cstring id) :=
            List.append_cancel_left (hnew.symm.trans huses)
          exact hbelow use (hsame ▸ huse)
        · exact fun hbelow => ⟨_, _, rfl, huses, hbelow⟩
      · rw [kngqUnlinkId_eq_none hlong]
        refine iff_of_false ?_ fun h => hlong h.1
        rintro ⟨after, new, hafter, -⟩
        cases hafter

theorem kngqNext_confined_iff (h : Delivers fs q req) :
    Confined q ((kngqNext fs q).map Prod.snd) ↔
      ∀ id ∈ req.id, GoodId q.kngq.basepath (cstring id) := by
  obtain ⟨path, ctime, hnext, hopen, hrecv⟩ := h
  unfold kngqNext
  cases hfile : fs.nextFile q.world with
  | mk found world =>
    rw [hfile] at hnext hopen hrecv
    subst hnext
    dsimp only
    rw [if_pos hopen]
    exact kngqNextOpened_confined_iff (q := { q with world := (fs.openFile path world).2 }) hrecv

variable {rest : Outside World} {opts : KngOpts}

/-- What `append_job_status` does with the ids of a list that are not running. -/
def statusStep (fs : Fs World) (rest : Outside World) (jobs : List KngJob)
    (st : Buf × Queue World) (s : Bytes) : Option (Buf × Queue World) :=
  if (jobsFindById jobs s).isSome then some ((separate st.1).adata (ascii "running"), st.2)
  else ((rest.withQueue fs).queueContains s st.2).map fun found =>
    ((separate st.1).adata (ascii (if found.1 then "queued" else "n/a")), found.2)

theorem appendJobStatuses_eq (jobs : List KngJob) (buf : Buf) (s : Bytes) (q : Queue World) :
    appendJobStatuses (rest.withQueue fs) jobs buf s q =
      ((Str.fields s [0]).foldlM (statusStep fs rest jobs) (buf, q)).map
        fun st => (st.1.achar 0, st.2) := by
  have hstep : ∀ s len st, (appendJobStatus (rest.withQueue fs) jobs s len).run st =
      (statusStep fs rest jobs st s).map fun after => (1, after) := by
    rintro s len ⟨buf, q⟩
    rw [appendJobStatus_run]
    unfold statusStep
    split
    · rfl
    · rw [Option.map_map]
      rfl
  unfold appendJobStatuses
  rw [← Str.strMapField_run hstep]
  cases (Str.strMapField s [0] (appendJobStatus (rest.withQueue fs) jobs)).run (buf, q) <;> rfl

theorem statusStep_cases (fs : Fs World) (rest : Outside World) (jobs : List KngJob) (st : Buf × Queue World) (s : Bytes) :
    ((jobsFindById jobs s).isSome ∧ ∃ buf, statusStep fs rest jobs st s = some (buf, st.2)) ∨
      (¬ (jobsFindById jobs s).isSome ∧ 2 < (cstring s).length ∧
        ∃ after, statusStep fs rest jobs st s = some after ∧ Leaves (cstring s) st.2 after.2) ∨
      (¬ (jobsFindById jobs s).isSome ∧ ¬ 2 < (cstring s).length ∧
        statusStep fs rest jobs st s = none) := by
  unfold statusStep
  by_cases hrunning : (jobsFindById jobs s).isSome
  · exact .inl ⟨hrunning, _, if_pos hrunning⟩
  · rw [if_neg hrunning]
    by_cases hlong : 2 < (cstring s).length
    · obtain ⟨found, q', hcontains, hleaves⟩ := @kngqContains_leaves _ fs _ hlong st.2
      exact .inr (.inl ⟨hrunning, hlong, ((separate st.1).adata
        (ascii (if found then "queued" else "n/a")), q'), congrArg (Option.map _) hcontains, hleaves⟩)
    · refine .inr (.inr ⟨hrunning, hlong, ?_⟩)
      exact congrArg (Option.map _) (kngqContains_eq_none hlong st.2)

/-- The induction is on the ids. -/
theorem foldlM_statusStep_uses (jobs : List KngJob) (ids : List Bytes) :
    ∀ {st after : Buf × Queue World}, ids.foldlM (statusStep fs rest jobs) st = some after →
      ∃ new, after.2.uses = st.2.uses ++ new := by
  induction ids with
  | nil =>
    intro st after h
    cases h
    exact ⟨[], (List.append_nil _).symm⟩
  | cons s ids ih =>
    intro st after h
    obtain ⟨mid, hmid, hrest⟩ := Option.bind_eq_some_iff.mp h
    obtain ⟨new, hnew⟩ := ih hrest
    obtain ⟨-, buf, hstep⟩ | ⟨-, -, found, hstep, hleaves⟩ | ⟨-, -, hstep⟩ :=
      statusStep_cases fs rest jobs st s
    · obtain rfl := Option.some.inj (hstep.symm.trans hmid)
      exact ⟨new, hnew⟩
    · obtain rfl := Option.some.inj (hstep.symm.trans hmid)
      exact ⟨_, hnew.trans (by rw [hleaves.uses, List.append_assoc])⟩
    · cases hstep.symm.trans hmid

/-- The induction is on the ids. -/
theorem foldlM_statusStep_confined_iff (jobs : List KngJob) (ids : List Bytes) :
    ∀ st : Buf × Queue World,
      Confined st.2 ((ids.foldlM (statusStep fs rest jobs) st).map Prod.snd) ↔
        ∀ s ∈ ids, ¬ (jobsFindById jobs s).isSome →
          GoodId st.2.kngq.basepath (cstring s) := by
  induction ids with
  | nil =>
    intro st
    exact iff_of_true (confined_of_uses_eq rfl) nofun
  | cons s ids ih =>
    intro st
    rw [List.foldlM_cons, List.forall_mem_cons]
    obtain ⟨hrunning, buf, hstep⟩ | ⟨hrunning, hlong, after, hstep, hleaves⟩ |
      ⟨hrunning, hshort, hstep⟩ := statusStep_cases fs rest jobs st s
    · rw [hstep, Option.bind_eq_bind, Option.bind_some]
      exact (ih (buf, st.2)).trans (and_iff_right fun hnot => absurd hrunning hnot).symm
    · rw [hstep, Option.bind_eq_bind, Option.bind_some, goodId_iff, forall_prop_of_true hrunning]
      have hrest := ih after
      rw [hleaves.basepath] at hrest
      rw [← hrest, and_iff_right hlong]
      constructor
      · rintro ⟨q', new, hq', huses, hbelow⟩
        obtain ⟨st', hst', rfl⟩ := Option.map_eq_some_iff.mp hq'
        obtain ⟨later, hlater⟩ := foldlM_statusStep_uses jobs ids hst'
        have hsplit : new = usesOf st.2.kngq.basepath (cstring s) ++ later := by
          rw [hlater, hleaves.uses, List.append_assoc] at huses
          exact (List.append_cancel_left huses).symm
        rw [hsplit, List.forall_mem_append] at hbelow
        exact ⟨hbelow.1, st'.2, later, hq', hlater, hleaves.basepath ▸ hbelow.2⟩
      · rintro ⟨hhere, q', new, hq', huses, hbelow⟩
        refine ⟨q', usesOf st.2.kngq.basepath (cstring s) ++ new, hq', ?_, ?_⟩
        · rw [huses, hleaves.uses, List.append_assoc]
        · rw [hleaves.basepath] at hbelow
          intro use huse
          cases List.mem_append.mp huse with
          | inl hmem => exact hhere use hmem
          | inr hmem => exact hbelow use hmem
    · rw [hstep]
      refine iff_of_false ?_ fun h => hshort (h.1 hrunning).long
      rintro ⟨q', new, hq', -⟩
      cases hq'

/-- The queue can work with all ids of the request that it is given. -/
structure GoodRequest (basepath : Bytes) (jobs : List KngJob) (kngq : KngQueue) (req : KnegdReq) :
    Prop where
  queue : Queues kngq req → Linkable basepath → GoodId basepath (cstring (req.id.getD []))
  status : AsksStatus req → ∀ s ∈ Str.fields (req.id.getD []) [0],
    ¬ (jobsFindById jobs s).isSome → GoodId basepath (cstring s)

theorem keeps_uses (fs : Fs World) (rest : Outside World) :
    (rest.withQueue fs).Keeps Queue.uses :=
  ⟨fun _ _ _ => rfl, fun _ => rfl, fun _ => rfl, fun _ _ => rfl, fun _ => rfl, fun _ => rfl⟩

/-- The result of a request, with its effect on the queue. -/
def onRequestQueue (fs : Fs World) (rest : Outside World) (opts : KngOpts) (fd : ℤ) (respbuf : Buf)
    (req : KnegdReq) (s : State (Queue World)) : Option (Queue World) :=
  (onRequest (rest.withQueue fs) opts fd respbuf req s).map fun result => result.2.world

variable {respbuf : Buf} {s : State (Queue World)}

theorem onRequestQueue_status {fd : ℤ}
    (h : AsksStatus req) :
    onRequestQueue fs rest opts fd respbuf req s =
      ((Str.fields (req.id.getD []) [0]).foldlM (statusStep fs rest s.jobs)
        (respbuf, s.world)).map Prod.snd := by
  unfold onRequestQueue
  rw [onRequest_status h, appendJobStatuses_eq]
  cases (Str.fields (req.id.getD []) [0]).foldlM (statusStep fs rest s.jobs)
    (respbuf, s.world) <;> rfl

theorem onRequestQueue_queue {fd : ℤ}
    (h : Queues s.kngq req) :
    onRequestQueue fs rest opts fd respbuf req s = (kngqPut fs req s.world).map Prod.snd := by
  unfold onRequestQueue
  rw [onRequest_queue h]
  unfold Outside.withQueue
  dsimp only
  cases kngqPut fs req s.world <;> rfl

theorem onRequestQueue_other {fd : ℤ}
    (hqueue : ¬ Queues s.kngq req) (hstatus : ¬ AsksStatus req) :
    ∃ q, onRequestQueue fs rest opts fd respbuf req s = some q ∧ q.uses = s.world.uses := by
  obtain ⟨response, after, hrequest, huses⟩ :=
    @Outside.Keeps.onRequest_other _ _ (rest.withQueue fs) opts _ s (keeps_uses fs rest) fd
      respbuf req hqueue hstatus
  refine ⟨after.world, ?_, huses⟩
  unfold onRequestQueue
  rw [hrequest]
  rfl

/-- A request of a client, whatever the file system does. -/
def RequestConfined (basepath : Bytes) (jobs : List KngJob) (kngq : KngQueue) (req : KnegdReq) :
    Prop :=
  ∀ (World : Type) (fs : Fs World) (rest : Outside World) (opts : KngOpts) (fd : ℤ) (respbuf : Buf)
    (s : State (Queue World)), s.jobs = jobs → s.kngq = kngq → s.world.kngq.basepath = basepath →
      Confined s.world (onRequestQueue fs rest opts fd respbuf req s)

def StoredConfined (basepath : Bytes) (req : KnegdReq) : Prop :=
  ∀ (World : Type) (fs : Fs World) (q : Queue World), q.kngq.basepath = basepath →
    Delivers fs q req → Confined q ((kngqNext fs q).map Prod.snd)

def plainFs (now : ℤ) : Fs Unit where
  time _ := (now, ())
  mkdir _ _ := (none, ())
  create _ _ := (none, ())
  write _ _ _ := (none, ())
  unlink _ _ := (none, ())
  symlink _ _ _ := (none, ())
  stat _ _ := (true, ())
  nextFile _ := (some ([], 0), ())
  openFile _ _ := (true, ())
  recvmsg _ _ := (none, ())
  strerror _ := []

def plainOutside : Outside Unit where
  children _ := ∅
  enter _ _ _ := (.error .storeConnection, ())
  clock _ := (none, ())
  openLog _ := (none, ())
  fork _ _ := (none, ())
  time _ := (0, ())
  manifest _ := (none, ())
  queueInit _ := (true, ())
  queuePut _ _ := none
  queueNext _ := none
  queueContains _ _ := none
  reap _ _ := ()

def plainOpts : KngOpts := ⟨1, 1, Int.one_pos, Int.one_pos⟩

def plainState (basepath : Bytes) (jobs : List KngJob) (kngq : KngQueue) (seq : ℕ) :
    State (Queue Unit) :=
  ⟨jobs, kngq, fun _ => none, [], ⟨⟨basepath, 0, seq⟩, [], ()⟩⟩

theorem kngqPutOpened_eq {world : World}
    (hwrite : fs.write path req q.world = (none, world))
    (hroom : (relpathOf path).length < pathSize) :
    (kngqPutOpened fs req path q).map Prod.snd =
      (kngqLinkId fs (cstring (req.id.getD [])) (relpathOf path) { q with world := world }).map
        fun result => if result.1 then result.2 else unlink fs path result.2 := by
  unfold kngqPutOpened
  rw [hwrite]
  dsimp only
  rw [if_neg (by omega)]
  cases kngqLinkId fs (cstring (req.id.getD [])) (relpathOf path) { q with world := world } with
  | none => rfl
  | some result =>
    obtain ⟨linked, q'⟩ := result
    cases linked <;> rfl

theorem goodId_of_put {basepath : Bytes} {t : ℤ} {seq : ℕ}
    (hfits : (relpathOf (entryPath ⟨basepath, 0, seq⟩ (timestrOf t))).length < pathSize)
    (h : Confined (⟨⟨basepath, 0, seq⟩, [], ()⟩ : Queue Unit)
      ((kngqPut (plainFs t) req ⟨⟨basepath, 0, seq⟩, [], ()⟩).map Prod.snd)) :
    GoodId basepath (cstring (req.id.getD [])) := by
  have hput : kngqPut (plainFs t) req ⟨⟨basepath, 0, seq⟩, [], ()⟩ =
      kngqPutOpened (plainFs t) req (entryPath ⟨basepath, 0, seq⟩ (timestrOf t))
        ⟨⟨basepath, 0, (seq + 1) % 2 ^ 64⟩, [], ()⟩ := rfl
  rw [hput, kngqPutOpened_eq rfl hfits] at h
  rw [goodId_iff]
  obtain ⟨after, new, hafter, huses, hbelow⟩ := h
  obtain ⟨⟨done, q'⟩, hlink, hq'⟩ := Option.map_eq_some_iff.mp hafter
  by_cases hlong : 2 < (cstring (req.id.getD [])).length
  · refine ⟨hlong, fun use huse => hbelow use ?_⟩
    obtain ⟨done', q'', made, hlink', -, huses', hmade⟩ := kngqLinkId_uses hlong _ _
    obtain ⟨rfl, rfl⟩ := Prod.mk.inj (Option.some.inj (hlink.symm.trans hlink'))
    have hsame : after.uses = q'.uses := by
      rw [← hq']
      cases done <;> rfl
    have hnew : new = made := by
      rw [hsame, huses'] at huses
      exact huses.symm
    rw [hnew]
    exact (hmade use).mpr huse
  · cases (kngqLinkId_eq_none hlong _ _).symm.trans hlink

theorem requestConfined_iff (basepath : Bytes) (jobs : List KngJob) (kngq : KngQueue)
    (req : KnegdReq) :
    RequestConfined basepath jobs kngq req ↔ GoodRequest basepath jobs kngq req := by
  constructor
  · intro h
    constructor
    · rintro hqueues ⟨t, seq, hfits⟩
      have hconfined := h Unit (plainFs t) plainOutside plainOpts 0 (Buf.init 1)
        (plainState basepath jobs kngq seq) rfl rfl rfl
      rw [onRequestQueue_queue hqueues] at hconfined
      exact goodId_of_put hfits hconfined
    · intro hasks
      have hconfined := h Unit (plainFs 0) plainOutside plainOpts 0 (Buf.init 1)
        (plainState basepath jobs kngq 0) rfl rfl rfl
      rw [onRequestQueue_status hasks] at hconfined
      exact (foldlM_statusStep_confined_iff jobs _ _).mp hconfined
  · rintro ⟨hqueue, hstatus⟩ World fs rest opts fd respbuf s rfl rfl rfl
    by_cases hqueues : Queues s.kngq req
    · rw [onRequestQueue_queue hqueues]
      exact kngqPut_confined (hqueue hqueues)
    · by_cases hasks : AsksStatus req
      · rw [onRequestQueue_status hasks]
        exact (foldlM_statusStep_confined_iff s.jobs _ _).mpr (hstatus hasks)
      · obtain ⟨q, hq, huses⟩ : ∃ q, onRequestQueue fs rest opts fd respbuf req s = some q ∧
            q.uses = s.world.uses := onRequestQueue_other hqueues hasks
        rw [hq]
        exact confined_of_uses_eq huses

theorem storedConfined_iff (basepath : Bytes) (req : KnegdReq) :
    StoredConfined basepath req ↔ ∀ id ∈ req.id, GoodId basepath (cstring id) := by
  constructor
  · intro h
    have hdelivers : Delivers { plainFs 0 with recvmsg := fun _ _ => (some req, ()) }
        (⟨⟨basepath, 0, 0⟩, [], ()⟩ : Queue Unit) req := ⟨[], 0, rfl, rfl, rfl⟩
    exact (kngqNext_confined_iff hdelivers).mp (h Unit _ _ rfl hdelivers)
  · rintro hgood World fs q rfl hdelivers
    exact (kngqNext_confined_iff hdelivers).mpr hgood

/-- A request is confined where it is served and where it is read again. -/
theorem ids_confined_iff (basepath : Bytes) (jobs : List KngJob) (kngq : KngQueue)
    (req : KnegdReq) :
    (RequestConfined basepath jobs kngq req ↔ GoodRequest basepath jobs kngq req) ∧
      (StoredConfined basepath req ↔ ∀ id ∈ req.id, GoodId basepath (cstring id)) :=
  ⟨requestConfined_iff basepath jobs kngq req, storedConfined_iff basepath req⟩

/-- A status request for an id of two characters. -/
def shortStatus : KnegdReq := ⟨0, some (ascii "status"), some (ascii "ab"), none, none⟩

/-- A status request for an id with slashes and one that ends in two dots. -/
def parentStatus : KnegdReq :=
  ⟨0, some (ascii "status"), some (ascii "../../xyz" ++ 0 :: ascii "abc.."), none, none⟩

example : (onRequestQueue (plainFs 0) plainOutside plainOpts 0 (Buf.init 1) parentStatus
    (plainState (ascii "queue") [] ⟨1, 1, 0⟩ 0)).isSome := by
  decide +kernel

theorem ids_escape :
    onRequestQueue (plainFs 0) plainOutside plainOpts 0 (Buf.init 1) shortStatus
        (plainState (ascii "queue") [] ⟨1, 1, 0⟩ 0) = none ∧
      (onRequestQueue (plainFs 0) plainOutside plainOpts 0 (Buf.init 1) parentStatus
        (plainState (ascii "queue") [] ⟨1, 1, 0⟩ 0)).map (·.uses.map (·.path)) =
          some [ascii "queue/ids/yz/../../xyz", ascii "queue/ids/../abc.."] ∧
      ¬ RequestConfined (ascii "queue") [] ⟨1, 1, 0⟩ shortStatus := by
  have hshort : onRequestQueue (plainFs 0) plainOutside plainOpts 0 (Buf.init 1) shortStatus
      (plainState (ascii "queue") [] ⟨1, 1, 0⟩ 0) = none := by rfl
  refine ⟨hshort, by decide +kernel, fun h => ?_⟩
  obtain ⟨q, new, hq, -⟩ := h Unit (plainFs 0) plainOutside plainOpts 0 (Buf.init 1)
    (plainState (ascii "queue") [] ⟨1, 1, 0⟩ 0) rfl rfl rfl
  cases hshort.symm.trans hq

end Yans.Apps.Knegd
