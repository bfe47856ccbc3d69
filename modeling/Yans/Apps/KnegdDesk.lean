import Yans.Apps.KnegdFiles

/-! A host that keeps the directory of the queue in two lists. It meets the laws
of the files and of the children, so that runs of the daemon can be computed. -/
namespace Yans.Apps.Knegd

open Library.Memory Library.Paths Library.Strings Util

/-- The files and the links in the order they were made in, the clock, whether the
store answers, and the children. -/
structure Desk where
  files : List (Bytes × Option KnegdReq)
  links : List (Bytes × Bytes)
  now : ℤ
  storeUp : Bool
  children : Finset ℤ

def lookup {α : Type} : List (Bytes × α) → Place → Option α
  | [] => fun _ => none
  | entry :: entries => Function.update (lookup entries) (place entry.1) (some entry.2)

def clear {α : Type} (entries : List (Bytes × α)) (path : Bytes) : List (Bytes × α) :=
  entries.filter fun entry => place entry.1 ≠ place path

def replace {α : Type} (entries : List (Bytes × α)) (path : Bytes) (content : α) :
    List (Bytes × α) :=
  entries.map fun entry => (entry.1, if place entry.1 = place path then content else entry.2)

def deskDisk (desk : Desk) : Disk := ⟨lookup desk.files, lookup desk.links⟩

section

variable {α : Type} {entries : List (Bytes × α)} {path : Bytes} {content : α}

theorem lookup_append (h : lookup entries (place path) = none) :
    lookup (entries ++ [(path, content)]) =
      Function.update (lookup entries) (place path) (some content) := by
  induction entries with
  | nil => rfl
  | cons entry entries ih =>
    unfold lookup at h
    by_cases hplace : place path = place entry.1
    · rw [hplace, Function.update_self] at h
      cases h
    · rw [Function.update_of_ne hplace] at h
      rw [List.cons_append, lookup, ih h, lookup, Function.update_comm hplace]

theorem lookup_clear :
    lookup (clear entries path) = Function.update (lookup entries) (place path) none := by
  induction entries with
  | nil =>
    funext at_
    rw [Function.update_apply]
    exact (ite_self none).symm
  | cons entry entries ih =>
    unfold clear at ih ⊢
    by_cases hplace : place entry.1 = place path
    · rw [List.filter_cons_of_neg (by simpa using hplace), ih, lookup, hplace,
        Function.update_idem]
    · rw [List.filter_cons_of_pos (by simpa using hplace), lookup, ih, lookup,
        Function.update_comm hplace]

theorem lookup_replace_apply (at_ : Place) :
    lookup (replace entries path content) at_ =
      if at_ = place path then (lookup entries at_).map fun _ => content
      else lookup entries at_ := by
  induction entries with
  | nil => exact (ite_self none).symm
  | cons entry entries ih =>
    unfold replace at ih ⊢
    rw [List.map_cons, lookup, lookup, Function.update_apply, Function.update_apply, ih]
    by_cases hat : at_ = place entry.1
    · rw [if_pos hat, if_pos hat, ← hat]
      split <;> rfl
    · rw [if_neg hat, if_neg hat]

theorem lookup_replace (h : lookup entries (place path) ≠ none) :
    lookup (replace entries path content) =
      Function.update (lookup entries) (place path) (some content) := by
  funext at_
  rw [lookup_replace_apply, Function.update_apply]
  by_cases hpath : at_ = place path
  · obtain ⟨old, hold⟩ := Option.ne_none_iff_exists'.mp h
    rw [if_pos hpath, if_pos hpath, hpath, hold, Option.map_some]
  · rw [if_neg hpath, if_neg hpath]

end

def Exists (path : Bytes) (desk : Desk) : Prop :=
  (lookup desk.files (place path)).isSome ∨ (lookup desk.links (place path)).isSome

instance (path : Bytes) (desk : Desk) : Decidable (Exists path desk) :=
  inferInstanceAs (Decidable (_ ∨ _))

theorem not_exists_iff {path : Bytes} {desk : Desk} :
    ¬ Exists path desk ↔
      lookup desk.files (place path) = none ∧ lookup desk.links (place path) = none := by
  simp only [Exists, not_or, Bool.not_eq_true, Option.isSome_eq_false_iff,
    Option.isNone_iff_eq_none]

def deskFs : Fs Desk where
  time desk := (desk.now, desk)
  mkdir _ desk := (none, desk)
  create path desk :=
    if (lookup desk.files (place path)).isSome then (none, desk)
    else (none, { desk with files := desk.files ++ [(path, none)] })
  write path req desk := (none, { desk with files := replace desk.files path (some req.filed) })
  unlink path desk :=
    if Exists path desk then
      (none, { desk with files := clear desk.files path, links := clear desk.links path })
    else (some enoent, desk)
  symlink target path desk :=
    if Exists path desk then (some eexist, desk)
    else (none, { desk with links := desk.links ++ [(path, target)] })
  stat path desk := ((lookup desk.links (place path)).isSome, desk)
  nextFile desk := (desk.files.head?.map fun file => (file.1, 0), desk)
  openFile path desk := ((lookup desk.files (place path)).isSome, desk)
  recvmsg path desk := ((lookup desk.files (place path)).join, desk)
  strerror _ := ascii "File exists"

/-- The store gives one id, unless it is down, and `fork` takes new numbers. -/
def deskOutside : Outside Desk where
  children := Desk.children
  enter _ _ desk :=
    (if desk.storeUp then .ok ⟨none, some (ascii "b48a")⟩ else .error .storeConnection, desk)
  clock desk := (some 0, desk)
  openLog desk := (none, desk)
  fork _ desk :=
    let pid : ℤ := desk.children.sup Int.natAbs + 1
    (some pid, { desk with children := insert pid desk.children })
  time desk := (desk.now, desk)
  manifest desk := (none, desk)
  queueInit desk := (true, desk)
  queuePut _ desk := some (none, desk)
  queueNext desk := some (.empty, desk)
  queueContains _ desk := some (false, desk)
  reap pid desk := { desk with children := desk.children.erase pid }

theorem deskFs_laws : deskFs.Laws deskDisk where
  time _ := rfl
  mkdir _ _ := rfl
  create_ok := by
    intro path desk _ _
    unfold deskFs deskDisk Disk.setFile
    dsimp only
    by_cases hfile : (lookup desk.files (place path)).isSome
    · rw [if_pos hfile]
      obtain ⟨content, hcontent⟩ := Option.isSome_iff_exists.mp hfile
      rw [hcontent, Option.join_some, ← hcontent, Function.update_eq_self]
    · rw [if_neg hfile]
      rw [Bool.not_eq_true, Option.isSome_eq_false_iff, Option.isNone_iff_eq_none] at hfile
      rw [hfile, Option.join_none, lookup_append hfile]
  create_fails := by
    intro path desk h
    exact absurd (by unfold deskFs; dsimp only; split <;> rfl) h
  write_ok := by
    intro path req desk _ hfile
    exact congrArg (fun files => (⟨files, _⟩ : Disk)) (lookup_replace hfile)
  write_fails := fun _ _ _ h => absurd rfl h
  write_new_fails := fun _ _ _ _ _ _ h => absurd rfl h
  unlink_ok := by
    intro path desk h
    unfold deskFs at h ⊢
    dsimp only at h ⊢
    split at h
    · rename_i hthere
      rw [if_pos hthere]
      unfold deskDisk Disk.remove
      dsimp only
      rw [lookup_clear, lookup_clear]
    · cases h
  unlink_fails := by
    intro path desk h
    unfold deskFs at h ⊢
    dsimp only at h ⊢
    split at h
    · exact absurd rfl h
    · rename_i hmissing
      rw [if_neg hmissing]
  symlink_ok := by
    intro target path desk h
    unfold deskFs at h ⊢
    dsimp only at h ⊢
    split at h
    · cases h
    · rename_i hfree
      rw [if_neg hfree]
      obtain ⟨hfile, hlink⟩ := not_exists_iff.mp hfree
      exact ⟨hfile, hlink, congrArg (fun links => (⟨_, links⟩ : Disk)) (lookup_append hlink)⟩
  symlink_fails := by
    intro target path desk h
    unfold deskFs at h ⊢
    dsimp only at h ⊢
    split at h
    · rename_i hthere
      rw [if_pos hthere]
    · exact absurd rfl h
  stat _ _ := rfl
  nextFile _ := rfl
  nextFile_some := by
    intro desk path ctime h
    obtain ⟨file, hfile, hpath⟩ := Option.map_eq_some_iff.mp h
    obtain ⟨rfl, -⟩ := Prod.mk.inj hpath
    obtain ⟨files, hfiles⟩ := List.head?_eq_some_iff.mp hfile
    unfold deskDisk
    dsimp only
    rw [hfiles, lookup, Function.update_self]
    exact Option.some_ne_none _
  nextFile_none := by
    rintro desk h ⟨file, hfile⟩
    have hempty : desk.files = [] := List.head?_eq_none_iff.mp (Option.map_eq_none_iff.mp h)
    unfold deskDisk at hfile
    dsimp only at hfile
    rw [hempty] at hfile
    exact hfile rfl
  openFile _ _ := rfl
  recvmsg _ _ := rfl
  recvmsg_some := fun _ _ _ h => Option.join_eq_some_iff.mp h

theorem desk_host : Host deskFs deskOutside deskDisk where
  files := deskFs_laws
  apart := {
    enter := fun _ _ _ => rfl
    clock := fun _ => rfl
    openLog := fun _ => rfl
    fork := fun _ _ => rfl
    time := fun _ => rfl
    manifest := fun _ => rfl }
  reap _ _ := rfl

theorem deskOutside_laws : deskOutside.Laws where
  forks_fork := by
    intro exec desk
    refine ⟨fun hmem => ?_, rfl⟩
    have hle : Int.natAbs (desk.children.sup Int.natAbs + 1) ≤ desk.children.sup Int.natAbs :=
      Finset.le_sup (f := Int.natAbs) hmem
    omega
  children_reap := fun _ _ => rfl
  children_enter := fun _ _ _ => rfl
  children_clock := fun _ => rfl
  children_openLog := fun _ => rfl
  children_time := fun _ => rfl
  children_manifest := fun _ => rfl
  children_queueInit := fun _ => rfl
  children_queuePut := by
    intro req desk err after h
    cases h
    rfl
  children_queueNext := by
    intro desk next after h
    cases h
    rfl
  children_queueContains := by
    intro id desk contains after h
    cases h
    rfl

theorem deskFs_keeps : deskFs.Keeps Desk.children where
  time _ := rfl
  mkdir _ _ := rfl
  create path desk := by
    unfold deskFs
    dsimp only
    split <;> rfl
  write _ _ _ := rfl
  unlink path desk := by
    unfold deskFs
    dsimp only
    split <;> rfl
  symlink target path desk := by
    unfold deskFs
    dsimp only
    split <;> rfl
  stat _ _ := rfl
  nextFile _ := rfl
  openFile _ _ := rfl
  recvmsg _ _ := rfl

def deskDaemon : Outside (Queue Desk) := deskOutside.withQueue deskFs

theorem deskDaemon_laws : deskDaemon.Laws := laws_withQueue deskOutside_laws deskFs_keeps

end Yans.Apps.Knegd
