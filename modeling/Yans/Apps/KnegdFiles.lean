import Mathlib.Logic.Function.Basic
import Yans.Apps.KnegdQueue
import Yans.Apps.KnegdSlots
import Yans.Library.Paths

/-! The directory of the queue as the system calls leave it: the files of the
entries and the links to them, by the places that their paths lead to. Nobody
but the daemon works in the directory, and its directories are no links. -/
namespace Yans.Apps.Knegd

open Library.Memory Library.Paths Library.Strings Util

/-- Where a path leads: from the root or from the working directory, so many steps
up and then down by the names, the last one first. -/
structure Place where
  rooted : Bool
  ups : ℕ
  names : List Bytes
deriving DecidableEq

def placeOf (rooted : Bool) (route : Route UInt8) : Place := ⟨rooted, route.ups, route.names⟩

def place (path : Bytes) : Place :=
  placeOf (isRooted 47 path) (resolve 46 (isRooted 47 path) (components 47 path))

/-- A file that is not one whole message has no request; a link has the text of a
path. -/
structure Disk where
  files : Place → Option (Option KnegdReq)
  links : Place → Option Bytes

namespace Disk

def setFile (disk : Disk) (file : Place) (content : Option KnegdReq) : Disk :=
  { disk with files := Function.update disk.files file (some content) }

def setLink (disk : Disk) (link : Place) (target : Bytes) : Disk :=
  { disk with links := Function.update disk.links link (some target) }

def remove (disk : Disk) (at_ : Place) : Disk where
  files := Function.update disk.files at_ none
  links := Function.update disk.links at_ none

def Queued (disk : Disk) : Prop := ∃ file, disk.files file ≠ none

theorem setFile_self (disk : Disk) (file : Place) (content : Option KnegdReq) :
    (disk.setFile file content).files file = some content := Function.update_self _ _ _

end Disk

variable {World : Type}

/-- A request as it is read back: a message leaves out the strings that are empty. -/
def KnegdReq.filed (req : KnegdReq) : KnegdReq :=
  { req with
    action := req.action.filter (· ≠ [])
    id := req.id.filter (· ≠ [])
    name := req.name.filter (· ≠ [])
    type := req.type.filter (· ≠ []) }

theorem getD_filter (data : Option Bytes) : (data.filter (· ≠ [])).getD [] = data.getD [] := by
  cases data with
  | none => rfl
  | some text =>
    by_cases htext : text = []
    · simp [Option.filter, htext]
    · simp [Option.filter, htext]

/-- What the system calls do. A file that is there is opened as it is, and a message
is written over its start; what is there of a message when the write fails is not a
whole one. -/
structure Fs.Laws (fs : Fs World) (disk : World → Disk) : Prop where
  time : ∀ world, disk (fs.time world).2 = disk world
  mkdir : ∀ path world, disk (fs.mkdir path world).2 = disk world
  create_ok : ∀ path world, (fs.create path world).1 = none →
    (disk world).links (place path) = none →
      disk (fs.create path world).2 =
        (disk world).setFile (place path) ((disk world).files (place path)).join
  create_fails : ∀ path world, (fs.create path world).1 ≠ none →
    disk (fs.create path world).2 = disk world
  write_ok : ∀ path req world, (fs.write path req world).1 = none →
    (disk world).files (place path) ≠ none →
      disk (fs.write path req world).2 = (disk world).setFile (place path) (some req.filed)
  write_fails : ∀ path req world, (fs.write path req world).1 ≠ none →
    (disk world).files (place path) ≠ none →
      ∃ content, disk (fs.write path req world).2 = (disk world).setFile (place path) content
  write_new_fails : ∀ path req world, (disk world).files (place path) = none →
    (disk world).links (place path) = none → (fs.create path world).1 = none →
      (fs.write path req (fs.create path world).2).1 ≠ none →
        disk (fs.write path req (fs.create path world).2).2 =
          (disk world).setFile (place path) none
  unlink_ok : ∀ path world, (fs.unlink path world).1 = none →
    disk (fs.unlink path world).2 = (disk world).remove (place path)
  unlink_fails : ∀ path world, (fs.unlink path world).1 ≠ none →
    disk (fs.unlink path world).2 = disk world
  symlink_ok : ∀ target path world, (fs.symlink target path world).1 = none →
    (disk world).files (place path) = none ∧ (disk world).links (place path) = none ∧
      disk (fs.symlink target path world).2 = (disk world).setLink (place path) target
  symlink_fails : ∀ target path world, (fs.symlink target path world).1 ≠ none →
    disk (fs.symlink target path world).2 = disk world
  stat : ∀ path world, disk (fs.stat path world).2 = disk world
  nextFile : ∀ world, disk (fs.nextFile world).2 = disk world
  nextFile_some : ∀ world path ctime, (fs.nextFile world).1 = some (path, ctime) →
    (disk world).files (place path) ≠ none
  nextFile_none : ∀ world, (fs.nextFile world).1 = none → ¬ (disk world).Queued
  openFile : ∀ path world, disk (fs.openFile path world).2 = disk world
  recvmsg : ∀ path world, disk (fs.recvmsg path world).2 = disk world
  recvmsg_some : ∀ path world req, (fs.recvmsg path world).1 = some req →
    (disk world).files (place path) = some (some req)

/-- The daemon on its host: it forks children, and what is not the queue leaves the
directory alone. -/
structure Host (fs : Fs World) (rest : Outside World) (disk : World → Disk) : Prop where
  files : fs.Laws disk
  apart : rest.Keeps disk
  reap : ∀ pid world, disk (rest.reap pid world) = disk world

variable {fs : Fs World} {rest : Outside World} {disk : World → Disk}

theorem Host.keeps (host : Host fs rest disk) :
    (rest.withQueue fs).Keeps fun q => disk q.world where
  enter := fun id name q => host.apart.enter id name q.world
  clock := fun q => host.apart.clock q.world
  openLog := fun q => host.apart.openLog q.world
  fork := fun exec q => host.apart.fork exec q.world
  time := fun q => host.apart.time q.world
  manifest := fun q => host.apart.manifest q.world

theorem Host.keepsContains (host : Host fs rest disk) :
    (rest.withQueue fs).KeepsContains fun q => disk q.world := by
  intro id q contains after h
  obtain ⟨dirpath, -, h⟩ := Option.bind_eq_some_iff.mp h
  dsimp only at h
  split at h
  · cases h
    rfl
  · cases h
    exact host.files.stat _ _

inductive Unlinks (fs : Fs World) (req : KnegdReq) (q : Queue World) : Queue World → Prop where
  | noId (hid : req.id = none) : Unlinks fs req q q
  | id {id : Bytes} {done : Bool} {after : Queue World} (hid : req.id = some id)
    (hunlink : kngqUnlinkId fs (cstring id) q = some (done, after)) : Unlinks fs req q after

theorem kngqNextOpened_cases {path : Bytes} {ctime : ℤ} {q after : Queue World} {next : Next}
    (h : kngqNextOpened fs path ctime q = some (next, after)) :
    ((fs.recvmsg path q.world).1 = none ∧ next = .failure ∧
      after = unlink fs path { q with world := (fs.recvmsg path q.world).2 }) ∨
    ∃ req q', (fs.recvmsg path q.world).1 = some req ∧ next = .entry req ctime ∧
      Unlinks fs req { q with world := (fs.recvmsg path q.world).2 } q' ∧
      after = unlink fs path q' := by
  unfold kngqNextOpened at h
  split at h
  · rename_i world hrecv
    cases h
    exact .inl ⟨by rw [hrecv], rfl, by rw [hrecv]⟩
  · rename_i req world hrecv
    right
    cases hid : req.id with
    | none =>
      rw [hid] at h
      cases h
      exact ⟨req, _, by rw [hrecv], rfl, .noId hid, by rw [hrecv]⟩
    | some id =>
      rw [hid] at h
      obtain ⟨q', hunlink, h⟩ := Option.bind_eq_some_iff.mp h
      obtain ⟨⟨done, q''⟩, hdone, rfl⟩ := Option.map_eq_some_iff.mp hunlink
      cases h
      refine ⟨req, q'', by rw [hrecv], rfl, ?_, rfl⟩
      rw [hrecv]
      exact .id hid hdone

inductive NextFile (fs : Fs World) (q : Queue World) : Next → Queue World → Prop where
  | none (hnone : (fs.nextFile q.world).1 = none) :
    NextFile fs q .empty { q with world := (fs.nextFile q.world).2 }
  | closed {path : Bytes} {ctime : ℤ} {world : World}
    (hfile : fs.nextFile q.world = (some (path, ctime), world))
    (hclosed : (fs.openFile path world).1 = false) :
    NextFile fs q .failure (unlink fs path { q with world := (fs.openFile path world).2 })
  | opened {path : Bytes} {ctime : ℤ} {world : World} {next : Next} {after : Queue World}
    (hfile : fs.nextFile q.world = (some (path, ctime), world))
    (hopen : (fs.openFile path world).1 = true)
    (hopened : kngqNextOpened fs path ctime { q with world := (fs.openFile path world).2 } =
      some (next, after)) : NextFile fs q next after

theorem nextFile_of_kngqNext {q after : Queue World} {next : Next}
    (h : kngqNext fs q = some (next, after)) : NextFile fs q next after := by
  unfold kngqNext at h
  split at h
  · rename_i world hfile
    cases h
    have hnone := NextFile.none (congrArg Prod.fst hfile)
    rwa [hfile] at hnone
  · rename_i path ctime world hfile
    dsimp only at h
    cases hopen : (fs.openFile path world).1 with
    | true =>
      rw [hopen] at h
      exact .opened hfile hopen h
    | false =>
      rw [hopen] at h
      cases h
      exact .closed hfile hopen

/-! Parts of the world that the queue leaves alone -/

structure Fs.Keeps {α : Type} (fs : Fs World) (view : World → α) : Prop where
  time : ∀ world, view (fs.time world).2 = view world
  mkdir : ∀ path world, view (fs.mkdir path world).2 = view world
  create : ∀ path world, view (fs.create path world).2 = view world
  write : ∀ path req world, view (fs.write path req world).2 = view world
  unlink : ∀ path world, view (fs.unlink path world).2 = view world
  symlink : ∀ target path world, view (fs.symlink target path world).2 = view world
  stat : ∀ path world, view (fs.stat path world).2 = view world
  nextFile : ∀ world, view (fs.nextFile world).2 = view world
  openFile : ∀ path world, view (fs.openFile path world).2 = view world
  recvmsg : ∀ path world, view (fs.recvmsg path world).2 = view world

section

variable {α : Type} {view : World → α} (hkeeps : fs.Keeps view)

include hkeeps

theorem Fs.Keeps.makeLink (srcpath dirpath id : Bytes) (q : Queue World) :
    view (makeLink fs srcpath dirpath id q).2.world = view q.world := by
  have hfirst := hkeeps.symlink srcpath (dstpathOf dirpath id) q.world
  unfold Knegd.makeLink symlinkId Knegd.mkdir
  dsimp only
  split
  · exact (hkeeps.symlink _ _ _).trans ((hkeeps.mkdir _ _).trans hfirst)
  · exact hfirst

variable {id : Bytes} {after q : Queue World}

theorem Fs.Keeps.kngqLinkId {srcpath : Bytes} {linked : Bool}
    (h : kngqLinkId fs id srcpath q = some (linked, after)) : view after.world = view q.world := by
  obtain ⟨dirpath, -, h⟩ := Option.bind_eq_some_iff.mp h
  have hlink := hkeeps.makeLink srcpath dirpath id q
  split at h
  · cases h
    rfl
  · split at h
    · rename_i hmade
      rw [hmade] at hlink
      cases h
      exact hlink
    · rename_i hmade
      rw [hmade] at hlink
      cases h
      exact hlink

theorem Fs.Keeps.kngqUnlinkId {unlinked : Bool}
    (h : kngqUnlinkId fs id q = some (unlinked, after)) : view after.world = view q.world := by
  obtain ⟨dirpath, -, h⟩ := Option.bind_eq_some_iff.mp h
  dsimp only at h
  split at h
  · cases h
    rfl
  · have hunlink := hkeeps.unlink (dstpathOf dirpath id) q.world
    split at h
    · cases h
      exact hunlink
    · cases h
      exact hunlink

theorem Fs.Keeps.kngqContains {found : Bool}
    (h : kngqContains fs id q = some (found, after)) : view after.world = view q.world := by
  obtain ⟨dirpath, -, h⟩ := Option.bind_eq_some_iff.mp h
  dsimp only at h
  split at h
  · cases h
    rfl
  · cases h
    exact hkeeps.stat _ _

variable {req : KnegdReq} {put : Bool}

theorem Fs.Keeps.kngqPutOpened {path : Bytes}
    (h : kngqPutOpened fs req path q = some (put, after)) : view after.world = view q.world := by
  have hwrite := hkeeps.write path req q.world
  unfold Knegd.kngqPutOpened Knegd.unlink at h
  dsimp only at h
  split at h
  · cases h
    exact (hkeeps.unlink _ _).trans hwrite
  · split at h
    · cases h
      exact (hkeeps.unlink _ _).trans hwrite
    · obtain ⟨⟨linked, q'⟩, hlink, h⟩ := Option.bind_eq_some_iff.mp h
      have hlinked := (hkeeps.kngqLinkId hlink).trans hwrite
      dsimp only at h
      split at h
      · cases h
        exact hlinked
      · cases h
        exact (hkeeps.unlink _ _).trans hlinked

theorem Fs.Keeps.kngqPutIn {timestr : Bytes}
    (h : kngqPutIn fs req timestr q = some (put, after)) : view after.world = view q.world := by
  have hcreate := hkeeps.create (entryPath q.kngq timestr) q.world
  unfold Knegd.kngqPutIn at h
  dsimp only at h
  split at h
  · rename_i hmade
    rw [hmade] at hcreate
    cases h
    exact hcreate
  · rename_i hmade
    rw [hmade] at hcreate
    exact (hkeeps.kngqPutOpened h).trans hcreate

theorem Fs.Keeps.kngqPut
    (h : kngqPut fs req q = some (put, after)) : view after.world = view q.world := by
  have htime := hkeeps.time q.world
  unfold Knegd.kngqPut at h
  dsimp only at h
  split at h
  · rename_i world hmade
    have hmkdir := congrArg (fun made => view made.2) hmade
    exact (hkeeps.kngqPutIn h).trans (hmkdir.symm.trans ((hkeeps.mkdir _ _).trans htime))
  · rename_i err world hmade
    have hmkdir := congrArg (fun made => view made.2) hmade
    have hmid := hmkdir.symm.trans ((hkeeps.mkdir _ _).trans htime)
    split at h
    · cases h
      exact hmid
    · exact (hkeeps.kngqPutIn h).trans hmid

theorem Fs.Keeps.kngqNext {next : Next}
    (h : kngqNext fs q = some (next, after)) : view after.world = view q.world := by
  have hnext := hkeeps.nextFile q.world
  cases nextFile_of_kngqNext h with
  | none _ => exact hnext
  | closed hfile _ =>
    rw [hfile] at hnext
    exact (hkeeps.unlink _ _).trans ((hkeeps.openFile _ _).trans hnext)
  | @opened path ctime world _ _ hfile _ hopened =>
    rw [hfile] at hnext
    have hmid : view (fs.recvmsg path (fs.openFile path world).2).2 = view q.world :=
      (hkeeps.recvmsg _ _).trans ((hkeeps.openFile _ _).trans hnext)
    obtain ⟨-, -, rfl⟩ | ⟨req, q', -, -, hunlinks, rfl⟩ := kngqNextOpened_cases hopened
    · exact (hkeeps.unlink _ _).trans hmid
    · refine (hkeeps.unlink _ _).trans ?_
      cases hunlinks with
      | noId _ => exact hmid
      | id _ hunlink => exact (hkeeps.kngqUnlinkId hunlink).trans hmid

theorem Fs.Keeps.kngqInit (q : Queue World) : view (kngqInit fs q).2.world = view q.world := by
  have hbase := hkeeps.mkdir q.kngq.basepath q.world
  unfold Knegd.kngqInit Knegd.mkdir
  dsimp only
  split
  · exact hbase
  · exact (hkeeps.mkdir _ _).trans hbase

end

theorem laws_withQueue (hrest : rest.Laws) (hkeeps : fs.Keeps rest.children) :
    (rest.withQueue fs).Laws where
  forks_fork := fun exec q => hrest.forks_fork exec q.world
  children_reap := fun pid q => hrest.children_reap pid q.world
  children_enter := fun id name q => hrest.children_enter id name q.world
  children_clock := fun q => hrest.children_clock q.world
  children_openLog := fun q => hrest.children_openLog q.world
  children_time := fun q => hrest.children_time q.world
  children_manifest := fun q => hrest.children_manifest q.world
  children_queueInit := hkeeps.kngqInit
  children_queuePut := by
    intro req q err after h
    obtain ⟨⟨put, q'⟩, hput, hafter⟩ := Option.map_eq_some_iff.mp h
    cases hafter
    exact hkeeps.kngqPut hput
  children_queueNext := fun q next after h => hkeeps.kngqNext h
  children_queueContains := fun id q contains after h => hkeeps.kngqContains h

end Yans.Apps.Knegd
