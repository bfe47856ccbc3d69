import Yans.Apps.KnegdDispatch
import Yans.Apps.KnegdPlaces

/-! What `kngq_put` and `kngq_next` leave in the directory. A new entry is at a place
where nothing is; the id of a request that comes to the queue has no slash. -/
namespace Yans.Apps.Knegd

open Library.Memory Library.Paths Library.Strings Util

variable {World : Type} {fs : Fs World} {disk : World → Disk}

def Fs.Removes (fs : Fs World) (disk : World → Disk) : Prop :=
  ∀ path world, (disk world).files (place path) ≠ none ∨ (disk world).links (place path) ≠ none →
    (fs.unlink path world).1 = none

structure SameQueue (q after : Queue World) : Prop where
  basepath : after.kngq.basepath = q.kngq.basepath
  seq : after.kngq.seq = q.kngq.seq

theorem SameQueue.refl (q : Queue World) : SameQueue q q := ⟨rfl, rfl⟩

theorem SameQueue.trans {q mid after : Queue World} (h : SameQueue q mid)
    (hafter : SameQueue mid after) : SameQueue q after :=
  ⟨hafter.basepath.trans h.basepath, hafter.seq.trans h.seq⟩

def idOf (req : KnegdReq) : Bytes := cstring (req.id.getD [])

theorem idOf_filed (req : KnegdReq) : idOf req.filed = idOf req :=
  congrArg cstring (getD_filter req.id)

theorem unlink_cases (hlaws : fs.Laws disk) (path : Bytes) (q : Queue World) :
    disk (unlink fs path q).world = disk q.world ∨
      disk (unlink fs path q).world = (disk q.world).remove (place path) := by
  cases herr : (fs.unlink path q.world).1 with
  | none => exact .inr (hlaws.unlink_ok path q.world herr)
  | some err => exact .inl (hlaws.unlink_fails path q.world (by rw [herr]; nofun))

theorem unlink_removes (hlaws : fs.Laws disk) (hremoves : fs.Removes disk) {path : Bytes}
    {q : Queue World}
    (h : (disk q.world).files (place path) ≠ none ∨ (disk q.world).links (place path) ≠ none) :
    disk (unlink fs path q).world = (disk q.world).remove (place path) :=
  hlaws.unlink_ok path q.world (hremoves path q.world h)

theorem kngqMklinkdirpath_eq_some {kngq : Kngq} {id dirpath : Bytes}
    (h : kngqMklinkdirpath kngq id = some dirpath) : 2 < id.length ∧
      dirpath = snprintf pathSize (kngq.basepath ++ ascii "/ids/" ++ id.drop (id.length - 2)) := by
  unfold kngqMklinkdirpath at h
  split at h
  · cases h
    exact ⟨‹_›, rfl⟩
  · cases h

theorem kngqUnlinkId_cases {id : Bytes} {q after : Queue World} {done : Bool}
    (h : kngqUnlinkId fs id q = some (done, after)) :
    2 < id.length ∧ SameQueue q after ∧
      (¬ Fits q.kngq.basepath id ∧ after.world = q.world ∨
        Fits q.kngq.basepath id ∧
          after.world = (unlink fs (linkUse q.kngq.basepath id).path q).world) := by
  obtain ⟨dirpath, hdirpath, h⟩ := Option.bind_eq_some_iff.mp h
  obtain ⟨hlong, rfl⟩ := kngqMklinkdirpath_eq_some hdirpath
  dsimp only at h
  obtain ⟨hcut, hnot⟩ | ⟨hroom, hfits, hwhole⟩ :=
    dstpathOf_cases (q.kngq.basepath ++ ascii "/ids/" ++ id.drop (id.length - 2)) id
  · rw [if_pos hcut] at h
    cases h
    exact ⟨hlong, ⟨rfl, rfl⟩, .inl ⟨hnot, rfl⟩⟩
  · rw [if_neg hroom, hwhole] at h
    split at h
    · cases h
      exact ⟨hlong, ⟨rfl, rfl⟩, .inr ⟨hfits, rfl⟩⟩
    · cases h
      exact ⟨hlong, ⟨rfl, rfl⟩, .inr ⟨hfits, rfl⟩⟩

inductive Linked (base id target : Bytes) (before after : Disk) : Bool → Prop where
  | made (hfits : Fits base id) (hfile : before.files (linkPlace base id) = none)
    (hlink : before.links (linkPlace base id) = none)
    (hafter : after = before.setLink (linkPlace base id) target) :
    Linked base id target before after true
  | failed (hsame : after = before) : Linked base id target before after false

theorem symlinkId_cases (hlaws : fs.Laws disk) {target id : Bytes} {q : Queue World}
    (hlong : 2 < id.length) (hid : 47 ∉ id) (hfits : Fits q.kngq.basepath id) :
    SameQueue q (symlinkId fs target id (linkUse q.kngq.basepath id).path q).2 ∧
      Linked q.kngq.basepath id target (disk q.world)
        (disk (symlinkId fs target id (linkUse q.kngq.basepath id).path q).2.world)
        (symlinkId fs target id (linkUse q.kngq.basepath id).path q).1.isNone := by
  have hplace := @place_linkUse q.kngq.basepath _ hlong hid
  refine ⟨⟨rfl, rfl⟩, ?_⟩
  unfold symlinkId
  cases herr : (fs.symlink target (linkUse q.kngq.basepath id).path q.world).1 with
  | none =>
    obtain ⟨hfile, hlink, hafter⟩ := hlaws.symlink_ok _ _ _ herr
    rw [hplace] at hfile hlink hafter
    exact .made hfits hfile hlink hafter
  | some err => exact .failed (hlaws.symlink_fails _ _ _ (by rw [herr]; nofun))

theorem makeLink_cases (hlaws : fs.Laws disk) {target dirpath id : Bytes} {q : Queue World}
    (hlong : 2 < id.length) (hid : 47 ∉ id) (hfits : Fits q.kngq.basepath id)
    (hpath : dstpathOf dirpath id = (linkUse q.kngq.basepath id).path) :
    SameQueue q (makeLink fs target dirpath id q).2 ∧
      Linked q.kngq.basepath id target (disk q.world)
        (disk (makeLink fs target dirpath id q).2.world)
        (makeLink fs target dirpath id q).1.isNone := by
  have hfirst := @symlinkId_cases _ _ _ hlaws target _ _ hlong hid hfits
  unfold makeLink
  dsimp only
  rw [hpath]
  generalize symlinkId fs target id (linkUse q.kngq.basepath id).path q = first at hfirst
  split
  · rename_i hmissing
    obtain ⟨hsame, hlinked⟩ := hfirst
    rw [hmissing] at hlinked
    cases hlinked with
    | failed hdisk =>
      have hmade : disk (mkdir fs dirpath first.2).2.world = disk q.world :=
        (hlaws.mkdir _ _).trans hdisk
      have hqueue : SameQueue q (mkdir fs dirpath first.2).2 := ⟨hsame.basepath, hsame.seq⟩
      rw [← hqueue.basepath] at hfits
      obtain ⟨hagain, hlinked⟩ := @symlinkId_cases _ _ _ hlaws target _ _ hlong hid hfits
      rw [hmade] at hlinked
      rw [hqueue.basepath] at hlinked hagain
      exact ⟨hqueue.trans hagain, hlinked⟩
  · exact hfirst

theorem kngqLinkId_cases (hlaws : fs.Laws disk) {id target : Bytes} {q after : Queue World}
    {linked : Bool} (hid : 47 ∉ id) (h : kngqLinkId fs id target q = some (linked, after)) :
    2 < id.length ∧ SameQueue q after ∧
      Linked q.kngq.basepath id target (disk q.world) (disk after.world) linked := by
  obtain ⟨dirpath, hdirpath, h⟩ := Option.bind_eq_some_iff.mp h
  obtain ⟨hlong, rfl⟩ := kngqMklinkdirpath_eq_some hdirpath
  obtain ⟨hcut, hnot⟩ | ⟨hroom, hfits, hwhole⟩ :=
    dstpathOf_cases (q.kngq.basepath ++ ascii "/ids/" ++ id.drop (id.length - 2)) id
  · rw [if_pos hcut] at h
    cases h
    exact ⟨hlong, ⟨rfl, rfl⟩, .failed rfl⟩
  · rw [if_neg hroom] at h
    have hmade := @makeLink_cases _ _ _ hlaws target _ _ _ hlong hid hfits hwhole
    split at h
    · rename_i hfailed
      rw [hfailed] at hmade
      cases h
      exact ⟨hlong, ⟨hmade.1.basepath, hmade.1.seq⟩, hmade.2⟩
    · rename_i hok
      rw [hok] at hmade
      cases h
      exact ⟨hlong, hmade⟩

/-- What is left by `kngq_put` at a place where nothing was. -/
inductive Put (fs : Fs World) (disk : World → Disk) (base : Bytes) (req : KnegdReq) (file : Place)
    (target : Bytes) (before after : Disk) : Bool → Prop where
  | linked (hlong : 2 < (idOf req).length) (hfits : Fits base (idOf req))
    (hlink : before.links (linkPlace base (idOf req)) = none)
    (hafter : after = (before.setFile file (some req)).setLink (linkPlace base (idOf req)) target) :
    Put fs disk base req file target before after true
  | failed (hlinks : after.links = before.links)
    (hothers : ∀ at_, at_ ≠ file → after.files at_ = before.files at_)
    (hfile : ∀ content, after.files file = some content → content = none ∨ content = some req)
    (hremoves : fs.Removes disk → after = before) :
    Put fs disk base req file target before after false

section

variable {base path target : Bytes} {req : KnegdReq} {before : Disk}

theorem put_unlink (hlaws : fs.Laws disk) {q : Queue World} {content : Option KnegdReq}
    (hfree : before.files (place path) = none) (hnolink : before.links (place path) = none)
    (hcontent : content = none ∨ content = some req)
    (hdisk : disk q.world = before.setFile (place path) content) :
    Put fs disk base req (place path) target before (disk (unlink fs path q).world) false := by
  have hremoved : (before.setFile (place path) content).remove (place path) = before := by
    unfold Disk.setFile Disk.remove
    rw [Function.update_idem, ← hfree, Function.update_eq_self, ← hnolink,
      Function.update_eq_self]
  have hthere : (disk q.world).files (place path) ≠ none := by
    rw [hdisk, Disk.setFile_self]
    exact Option.some_ne_none _
  have hgone : fs.Removes disk → disk (unlink fs path q).world = before := by
    intro hremoves
    rw [unlink_removes hlaws hremoves (.inl hthere), hdisk, hremoved]
  cases unlink_cases hlaws path q with
  | inl hkept =>
    rw [hdisk] at hkept
    rw [hkept] at hgone ⊢
    refine .failed rfl (fun at_ hat => Function.update_of_ne hat _ _) ?_ hgone
    intro found hfound
    rw [Disk.setFile_self] at hfound
    exact Option.some.inj hfound ▸ hcontent
  | inr hremove =>
    rw [hdisk, hremoved] at hremove
    rw [hremove] at hgone ⊢
    refine .failed rfl (fun _ _ => rfl) ?_ hgone
    intro found hfound
    rw [hfree] at hfound
    cases hfound

theorem put_nothing (hfree : before.files (place path) = none) {after : Disk}
    (hsame : after = before) : Put fs disk base req (place path) target before after false := by
  subst hsame
  refine .failed rfl (fun _ _ => rfl) ?_ fun _ => rfl
  intro found hfound
  rw [hfree] at hfound
  cases hfound

end

theorem kngqPutOpened_cases (hlaws : fs.Laws disk) {req : KnegdReq} {path : Bytes}
    {q q' after : Queue World} {put : Bool} (hfree : (disk q.world).files (place path) = none)
    (hnolink : (disk q.world).links (place path) = none) (hid : 47 ∉ idOf req)
    (hcreate : (fs.create path q.world).1 = none)
    (hopened : q'.world = (fs.create path q.world).2)
    (h : kngqPutOpened fs req path q' = some (put, after)) : SameQueue q' after ∧
      Put fs disk q'.kngq.basepath req.filed (place path) (relpathOf path) (disk q.world)
        (disk after.world) put := by
  have hmade : disk q'.world = (disk q.world).setFile (place path) none := by
    rw [hopened, hlaws.create_ok path q.world hcreate hnolink, hfree]
    rfl
  have hthere : (disk q'.world).files (place path) ≠ none := by
    rw [hmade, Disk.setFile_self]
    exact Option.some_ne_none _
  unfold kngqPutOpened at h
  dsimp only at h
  cases herr : (fs.write path req q'.world).1 with
  | some err =>
    have hdisk := hlaws.write_new_fails path req q.world hfree hnolink hcreate
      (by rw [← hopened, herr]; nofun)
    rw [← hopened] at hdisk
    rw [herr] at h
    cases h
    exact ⟨⟨rfl, rfl⟩, put_unlink hlaws hfree hnolink (.inl rfl) hdisk⟩
  | none =>
    have hdisk : disk (fs.write path req q'.world).2 =
        (disk q.world).setFile (place path) (some req.filed) := by
      rw [hlaws.write_ok path req q'.world herr hthere, hmade]
      unfold Disk.setFile
      dsimp only
      rw [Function.update_idem]
    rw [herr] at h
    dsimp only at h
    split at h
    · cases h
      exact ⟨⟨rfl, rfl⟩, put_unlink hlaws hfree hnolink (.inr rfl) hdisk⟩
    · obtain ⟨⟨linked, q''⟩, hlink, h⟩ := Option.bind_eq_some_iff.mp h
      obtain ⟨hlong, hsame, hlinked⟩ := kngqLinkId_cases hlaws hid hlink
      rw [← idOf_filed] at hlong hlinked
      rw [hdisk] at hlinked
      cases hlinked with
      | made hfits _ hnone hafter =>
        cases h
        exact ⟨⟨hsame.basepath, hsame.seq⟩, .linked hlong hfits hnone hafter⟩
      | failed hfailed =>
        cases h
        exact ⟨⟨hsame.basepath, hsame.seq⟩,
          put_unlink hlaws hfree hnolink (.inr rfl) hfailed⟩

theorem kngqPut_cases (hlaws : fs.Laws disk) {req : KnegdReq} {q after : Queue World} {put : Bool}
    (hfree : (disk q.world).files (place (entryPath q.kngq (timestrOf (fs.time q.world).1))) = none)
    (hnolink :
      (disk q.world).links (place (entryPath q.kngq (timestrOf (fs.time q.world).1))) = none)
    (hid : 47 ∉ idOf req) (h : kngqPut fs req q = some (put, after)) :
    after.kngq.basepath = q.kngq.basepath ∧
      (after.kngq.seq = (q.kngq.seq + 1) % 2 ^ 64 ∨
        put = false ∧ after.kngq.seq = q.kngq.seq ∧ disk after.world = disk q.world) ∧
        Put fs disk q.kngq.basepath req.filed (place (entryPath q.kngq (timestrOf (fs.time q.world).1)))
          (relpathOf (entryPath q.kngq (timestrOf (fs.time q.world).1)))
          (disk q.world) (disk after.world) put := by
  generalize hpath : entryPath q.kngq (timestrOf (fs.time q.world).1) = path at hfree hnolink ⊢
  -- the clock and the directory of the entry do not change what is there
  have hput : ∀ world, disk world = disk q.world →
      kngqPutIn fs req (timestrOf (fs.time q.world).1) { q with world := world } =
        some (put, after) →
      after.kngq.basepath = q.kngq.basepath ∧ after.kngq.seq = (q.kngq.seq + 1) % 2 ^ 64 ∧
        Put fs disk q.kngq.basepath req.filed (place path) (relpathOf path) (disk q.world)
          (disk after.world) put := by
    intro world hworld hin
    rw [← hworld] at hfree hnolink ⊢
    unfold kngqPutIn at hin
    dsimp only at hin
    rw [hpath] at hin
    split at hin
    · rename_i err made hcreate
      cases hin
      refine ⟨rfl, rfl, put_nothing hfree ?_⟩
      have hfails := hlaws.create_fails path world (by rw [hcreate]; nofun)
      rwa [hcreate] at hfails
    · rename_i made hcreate
      obtain ⟨hsame, hcase⟩ := @kngqPutOpened_cases _ _ _ hlaws _ _
        { q with world := world } _ _ _ hfree hnolink hid (congrArg Prod.fst hcreate)
        (congrArg Prod.snd hcreate).symm hin
      exact ⟨hsame.basepath, hsame.seq, hcase⟩
  unfold kngqPut at h
  dsimp only at h
  split at h
  · rename_i world hmkdir
    have hworld : disk world = disk q.world := by
      have hsame := hlaws.mkdir
        (snprintf pathSize (q.kngq.basepath ++ 47 :: subdirOf (timestrOf (fs.time q.world).1)))
        (fs.time q.world).2
      rw [hmkdir] at hsame
      exact hsame.trans (hlaws.time _)
    obtain ⟨hbase, hseq, hcase⟩ := hput world hworld h
    exact ⟨hbase, .inl hseq, hcase⟩
  · rename_i err world hmkdir
    have hworld : disk world = disk q.world := by
      have hsame := hlaws.mkdir
        (snprintf pathSize (q.kngq.basepath ++ 47 :: subdirOf (timestrOf (fs.time q.world).1)))
        (fs.time q.world).2
      rw [hmkdir] at hsame
      exact hsame.trans (hlaws.time _)
    split at h
    · cases h
      exact ⟨rfl, .inr ⟨rfl, rfl, hworld⟩, put_nothing hfree hworld⟩
    · obtain ⟨hbase, hseq, hcase⟩ := hput world hworld h
      exact ⟨hbase, .inl hseq, hcase⟩

inductive Taken (fs : Fs World) (disk : World → Disk) (base : Bytes) (file : Place)
    (before after : Disk) : Next → Prop where
  | failure (hafter : after = before ∨ after = before.remove file) :
    Taken fs disk base file before after .failure
  | entry {req : KnegdReq} {ctime : ℤ} {mid : Disk} (hfile : before.files file = some (some req))
    (hmid : mid = before ∨
      2 < (idOf req).length ∧ mid = before.remove (linkPlace base (idOf req)))
    (hunlinked : fs.Removes disk → req.id ≠ none → Fits base (idOf req) →
      before.links (linkPlace base (idOf req)) ≠ none →
        mid = before.remove (linkPlace base (idOf req)))
    (hafter : after = mid ∨ after = mid.remove file)
    (hremoved : fs.Removes disk → mid.files file ≠ none → after = mid.remove file) :
    Taken fs disk base file before after (.entry req ctime)

theorem unlinks_cases (hlaws : fs.Laws disk) {req : KnegdReq} {q after : Queue World}
    (hid : 47 ∉ idOf req) (h : Unlinks fs req q after) : SameQueue q after ∧
      (disk after.world = disk q.world ∨ 2 < (idOf req).length ∧
        disk after.world = (disk q.world).remove (linkPlace q.kngq.basepath (idOf req))) ∧
      (fs.Removes disk → req.id ≠ none → Fits q.kngq.basepath (idOf req) →
        (disk q.world).links (linkPlace q.kngq.basepath (idOf req)) ≠ none →
          disk after.world = (disk q.world).remove (linkPlace q.kngq.basepath (idOf req))) := by
  cases h with
  | noId hnone => exact ⟨.refl q, .inl rfl, fun _ hsome => absurd hnone hsome⟩
  | @id id done _ hsome hunlink =>
    have hidOf : idOf req = cstring id := by
      unfold idOf
      rw [hsome]
      rfl
    rw [hidOf] at hid ⊢
    obtain ⟨hlong, hsame, ⟨hnot, hworld⟩ | ⟨hfits, hworld⟩⟩ := kngqUnlinkId_cases hunlink
    · rw [hworld]
      exact ⟨hsame, .inl rfl, fun _ _ hfits => absurd hfits hnot⟩
    · have hplace := @place_linkUse q.kngq.basepath _ hlong hid
      rw [hworld]
      refine ⟨hsame, ?_, fun hremoves _ _ hlink => ?_⟩
      · cases unlink_cases hlaws (linkUse q.kngq.basepath (cstring id)).path q with
        | inl hkept => exact .inl hkept
        | inr hremoved => exact .inr ⟨hlong, hplace ▸ hremoved⟩
      · rw [← hplace] at hlink ⊢
        exact unlink_removes hlaws hremoves (.inr hlink)

theorem kngqNextOpened_taken (hlaws : fs.Laws disk) {path : Bytes} {ctime : ℤ}
    {q after : Queue World} {next : Next}
    (hids : ∀ req, (disk q.world).files (place path) = some (some req) → 47 ∉ idOf req)
    (h : kngqNextOpened fs path ctime q = some (next, after)) : SameQueue q after ∧
      Taken fs disk q.kngq.basepath (place path) (disk q.world) (disk after.world) next := by
  have hworld := hlaws.recvmsg path q.world
  obtain ⟨-, rfl, rfl⟩ | ⟨req, q', hreq, rfl, hunlinks, rfl⟩ := kngqNextOpened_cases h
  · refine ⟨⟨rfl, rfl⟩, .failure ?_⟩
    rw [← hworld]
    exact unlink_cases hlaws path { q with world := (fs.recvmsg path q.world).2 }
  · have hfile := hlaws.recvmsg_some path q.world req hreq
    obtain ⟨hsame, hmid, hunlinked⟩ := unlinks_cases hlaws (hids req hfile) hunlinks
    have hbase : q'.kngq.basepath = q.kngq.basepath := hsame.basepath
    have hseq : q'.kngq.seq = q.kngq.seq := hsame.seq
    rw [← hworld] at hfile ⊢
    exact ⟨⟨hbase, hseq⟩, .entry hfile hmid hunlinked (unlink_cases hlaws path q')
      fun hremoves hthere => unlink_removes hlaws hremoves (.inl hthere)⟩

theorem Takes.taken (hlaws : fs.Laws disk) {q after : Queue World} {path : Bytes} {next : Next}
    (hids : ∀ req, (disk q.world).files (place path) = some (some req) → 47 ∉ idOf req)
    (h : Takes fs q path next after) : SameQueue q after ∧
      Taken fs disk q.kngq.basepath (place path) (disk q.world) (disk after.world) next := by
  obtain ⟨⟨ctime, hfound⟩, hnext⟩ := h
  have hworld := hlaws.nextFile q.world
  cases nextFile_of_kngqNext hnext with
  | none hnone =>
    rw [hfound] at hnone
    cases hnone
  | @closed found _ world hfile _ =>
    rw [hfile] at hfound hworld
    cases hfound
    have hopened : disk (fs.openFile path world).2 = disk q.world :=
      (hlaws.openFile path world).trans hworld
    refine ⟨⟨rfl, rfl⟩, .failure ?_⟩
    rw [← hopened]
    exact unlink_cases hlaws path { q with world := (fs.openFile path world).2 }
  | @opened found _ world _ _ hfile _ hopened =>
    rw [hfile] at hfound hworld
    cases hfound
    have hsame : disk (fs.openFile path world).2 = disk q.world :=
      (hlaws.openFile path world).trans hworld
    rw [← hsame] at hids ⊢
    obtain ⟨hqueue, htaken⟩ := kngqNextOpened_taken hlaws hids hopened
    exact ⟨⟨hqueue.basepath, hqueue.seq⟩, htaken⟩

end Yans.Apps.Knegd
