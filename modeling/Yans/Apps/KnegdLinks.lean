import Yans.Apps.KnegdJobs

/-! The entries of the queue and the links below `ids`, over the lifetimes of any number of
daemons on one directory. A link is read from the directory that it is in. -/
namespace Yans.Apps.Knegd

open Library.Memory Library.Paths Library.Runs Library.Strings Util

def target (link : Place) (text : Bytes) : Place :=
  if isRooted 47 text then place text
  else placeOf link.rooted
    ((components 47 text).foldl (Route.follow 46 link.rooted) ⟨link.ups, link.names.tail⟩)

def PointsTo (disk : Disk) (link file : Place) : Prop :=
  ∃ text, disk.links link = some text ∧ target link text = file

/-- Every entry has the one link with the id of its request, and every link an entry. -/
structure Matched (base : Bytes) (disk : Disk) : Prop where
  entries : ∀ file content, disk.files file = some content → ∃ req, content = some req ∧
    PointsTo disk (linkPlace base (idOf req)) file ∧
      ∀ link, PointsTo disk link file → link = linkPlace base (idOf req)
  links : ∀ link, disk.links link ≠ none → ∃ file, PointsTo disk link file ∧
    disk.files file ≠ none

/-- A directory whose paths fit and that its links find again: it is named from the root,
or it is one step below the working directory. -/
structure Findable (base : Bytes) : Prop where
  length_le : base.length ≤ 470
  found : isRooted 47 (base ++ [47]) = true ∨ ∃ name, baseRoute base = ⟨0, [name]⟩

/-- An id whose link is in its own directory, or finds the entry from where it is. -/
structure Findable.Id (base id : Bytes) : Prop where
  no_slash : 47 ∉ id
  not_parent : isRooted 47 (base ++ [47]) = true ∨ id.drop (id.length - 2) ≠ ascii ".."

theorem isRooted_append_cons (base rest : Bytes) :
    isRooted 47 (base ++ 47 :: rest) = isRooted 47 (base ++ [47]) := by
  cases base <;> rfl

theorem target_linkPlace {base id : Bytes} (hbase : Findable base) (hlong : 2 < id.length)
    (hid : Findable.Id base id) (rest : Bytes) :
    target (linkPlace base id) (relpathOf (base ++ 47 :: rest)) = place (base ++ 47 :: rest) := by
  have hhead : isRooted 47 (base ++ 47 :: rest) = decide ((base ++ 47 :: rest).head? = some 47) :=
    rfl
  have hsame := isRooted_append_cons base rest
  unfold relpathOf
  cases hrooted : isRooted 47 (base ++ [47]) with
  | true =>
    rw [hrooted] at hsame
    rw [if_pos (of_decide_eq_true (hhead.symm.trans hsame))]
    unfold target
    rw [if_pos hsame]
  | false =>
    rw [hrooted] at hsame
    have hnot : ¬ (base ++ 47 :: rest).head? = some 47 :=
      of_decide_eq_false (hhead.symm.trans hsame)
    have hparent := hid.not_parent.resolve_left (by rw [hrooted]; decide)
    obtain ⟨name, hname⟩ := hbase.found.resolve_left (by rw [hrooted]; decide)
    rw [if_neg hnot, linkPlace_eq hlong hid.no_slash, if_neg hparent, hname, hrooted]
    have hup : components 47 (ascii "../../../" ++ (base ++ 47 :: rest)) =
        ascii ".." :: ascii ".." :: ascii ".." :: components 47 (base ++ 47 :: rest) := by
      rw [show ascii "../../../" = ascii ".." ++ 47 :: (ascii ".." ++ 47 :: (ascii ".." ++ [47]))
        from rfl]
      simp only [List.append_assoc, List.cons_append, List.nil_append]
      rw [components_append_cons, components_append_cons, components_append_cons]
      rfl
    have hrelative : isRooted 47 (ascii "../../../" ++ (base ++ 47 :: rest)) = false := rfl
    unfold target
    rw [hrelative, if_neg Bool.false_ne_true, hup]
    unfold place resolve
    rw [hsame]
    rfl

/-! The directory between two calls -/

/-- An entry at the path that `rest` ends, and its link. -/
structure Entry (base : Bytes) (disk : Disk) (req : KnegdReq) (rest : Bytes) : Prop where
  isEntryPlace : IsEntryPlace base (place (base ++ 47 :: rest))
  file : disk.files (place (base ++ 47 :: rest)) = some (some req)
  link : disk.links (linkPlace base (idOf req)) = some (relpathOf (base ++ 47 :: rest))
  long : 2 < (idOf req).length
  fits : Fits base (idOf req)
  id : Findable.Id base (idOf req)

structure Joined (base : Bytes) (disk : Disk) : Prop where
  files : ∀ file content, disk.files file = some content → ∃ req rest, content = some req ∧
    file = place (base ++ 47 :: rest) ∧ Entry base disk req rest
  links : ∀ link, disk.links link ≠ none → ∃ req rest, link = linkPlace base (idOf req) ∧
    Entry base disk req rest

section

variable {base : Bytes} {disk : Disk} {req other : KnegdReq} {rest rest' : Bytes}

theorem Entry.pointsTo (h : Entry base disk req rest) (hbase : Findable base) {file : Place}
    (hpoints : PointsTo disk (linkPlace base (idOf req)) file) :
    file = place (base ++ 47 :: rest) := by
  obtain ⟨text, htext, rfl⟩ := hpoints
  rw [h.link] at htext
  cases htext
  exact target_linkPlace hbase h.long h.id rest

theorem Entry.eq_of_place (h : Entry base disk req rest) (h' : Entry base disk other rest')
    (hplace : place (base ++ 47 :: rest) = place (base ++ 47 :: rest')) : req = other := by
  have hfile := h.file
  rw [hplace, h'.file] at hfile
  cases hfile
  rfl

theorem Entry.place_eq_of_link (h : Entry base disk req rest) (h' : Entry base disk other rest')
    (hbase : Findable base)
    (hlink : linkPlace base (idOf other) = linkPlace base (idOf req)) :
    place (base ++ 47 :: rest') = place (base ++ 47 :: rest) := by
  apply h.pointsTo hbase
  rw [← hlink]
  exact ⟨_, h'.link, target_linkPlace hbase h'.long h'.id rest'⟩

theorem Joined.matched (h : Joined base disk) (hbase : Findable base) : Matched base disk where
  entries := by
    intro file content hfile
    obtain ⟨req, rest, rfl, rfl, hentry⟩ := h.files file content hfile
    refine ⟨req, rfl, ⟨_, hentry.link, target_linkPlace hbase hentry.long hentry.id rest⟩, ?_⟩
    intro link hpoints
    obtain ⟨text, htext, -⟩ := id hpoints
    obtain ⟨other, rest', rfl, hother⟩ := h.links link (by rw [htext]; exact Option.some_ne_none _)
    rw [hother.eq_of_place hentry (hother.pointsTo hbase hpoints).symm]
  links := by
    intro link hlink
    obtain ⟨req, rest, rfl, hentry⟩ := h.links link hlink
    refine ⟨_, ⟨_, hentry.link, target_linkPlace hbase hentry.long hentry.id rest⟩, ?_⟩
    rw [hentry.file]
    exact Option.some_ne_none _

theorem Joined.not_isEntryPlace (h : Joined base disk) {link : Place}
    (hlink : disk.links link ≠ none) : ¬ IsEntryPlace base link := by
  obtain ⟨req, rest, rfl, hentry⟩ := h.links link hlink
  exact not_isEntryPlace_linkPlace hentry.long hentry.id.no_slash

theorem Joined.tidy (h : Joined base disk) : Tidy base disk where
  ids := by
    intro file req hfile
    obtain ⟨found, rest, heq, rfl, hentry⟩ := h.files file _ hfile
    cases heq
    exact hentry.id.no_slash
  links := fun link => h.not_isEntryPlace

theorem Entry.congr (h : Entry base disk req rest) {after : Disk}
    (hfile : after.files (place (base ++ 47 :: rest)) = disk.files (place (base ++ 47 :: rest)))
    (hlink : after.links (linkPlace base (idOf req)) = disk.links (linkPlace base (idOf req))) :
    Entry base after req rest :=
  { h with
    file := hfile.trans h.file
    link := hlink.trans h.link }

theorem Joined.add (h : Joined base disk) (hplace : IsEntryPlace base (place (base ++ 47 :: rest)))
    (hfree : disk.files (place (base ++ 47 :: rest)) = none)
    (hnolink : disk.links (linkPlace base (idOf req)) = none) (hlong : 2 < (idOf req).length)
    (hfits : Fits base (idOf req)) (hid : Findable.Id base (idOf req)) :
    Joined base ((disk.setFile (place (base ++ 47 :: rest)) (some req)).setLink
      (linkPlace base (idOf req)) (relpathOf (base ++ 47 :: rest))) := by
  generalize hafter : (disk.setFile (place (base ++ 47 :: rest)) (some req)).setLink
    (linkPlace base (idOf req)) (relpathOf (base ++ 47 :: rest)) = after
  have hfiles : after.files =
      Function.update disk.files (place (base ++ 47 :: rest)) (some (some req)) := by
    rw [← hafter]
    rfl
  have hlinks : after.links = Function.update disk.links (linkPlace base (idOf req))
      (some (relpathOf (base ++ 47 :: rest))) := by
    rw [← hafter]
    rfl
  have hnew : Entry base after req rest :=
    ⟨hplace, by rw [hfiles, Function.update_self], by rw [hlinks, Function.update_self], hlong,
      hfits, hid⟩
  have hkept : ∀ {other rest'}, Entry base disk other rest' → Entry base after other rest' := by
    intro other rest' hother
    apply hother.congr
    · rw [hfiles, Function.update_of_ne]
      intro heq
      rw [← heq, hother.file] at hfree
      cases hfree
    · rw [hlinks, Function.update_of_ne]
      intro heq
      rw [← heq, hother.link] at hnolink
      cases hnolink
  constructor
  · intro file content hfile
    rw [hfiles, Function.update_apply] at hfile
    split at hfile
    · cases hfile
      exact ⟨req, rest, rfl, ‹_›, hnew⟩
    · obtain ⟨other, rest', hcontent, hplace', hother⟩ := h.files file content hfile
      exact ⟨other, rest', hcontent, hplace', hkept hother⟩
  · intro link hlink
    rw [hlinks, Function.update_apply] at hlink
    split at hlink
    · exact ⟨req, rest, ‹_›, hnew⟩
    · obtain ⟨other, rest', hplace', hother⟩ := h.links link hlink
      exact ⟨other, rest', hplace', hkept hother⟩

theorem Joined.take (h : Joined base disk) (hbase : Findable base)
    (hentry : Entry base disk req rest) :
    Joined base ((disk.remove (linkPlace base (idOf req))).remove
      (place (base ++ 47 :: rest))) := by
  generalize hafter : (disk.remove (linkPlace base (idOf req))).remove
    (place (base ++ 47 :: rest)) = after
  have hlinkPlace := @not_isEntryPlace_linkPlace base _ hentry.long hentry.id.no_slash
  have hfiles : ∀ at_, at_ ≠ place (base ++ 47 :: rest) → IsEntryPlace base at_ →
      after.files at_ = disk.files at_ := by
    rintro at_ hne hat
    rw [← hafter]
    refine (Function.update_of_ne hne _ _).trans (Function.update_of_ne ?_ _ _)
    rintro rfl
    exact hlinkPlace hat
  have hlinks : ∀ at_, at_ ≠ linkPlace base (idOf req) → ¬ IsEntryPlace base at_ →
      after.links at_ = disk.links at_ := by
    rintro at_ hne hat
    rw [← hafter]
    refine (Function.update_of_ne ?_ _ _).trans (Function.update_of_ne hne _ _)
    rintro rfl
    exact hat hentry.isEntryPlace
  have hgone : after.files (place (base ++ 47 :: rest)) = none := by
    rw [← hafter]
    exact Function.update_self _ _ _
  have hunlinked : after.links (linkPlace base (idOf req)) = none := by
    rw [← hafter]
    unfold Disk.remove
    dsimp only
    rw [Function.update_apply, Function.update_self, ite_self]
  have hkept : ∀ {other rest'}, Entry base disk other rest' →
      place (base ++ 47 :: rest') ≠ place (base ++ 47 :: rest) → Entry base after other rest' := by
    intro other rest' hother hne
    apply hother.congr (hfiles _ hne hother.isEntryPlace)
    apply hlinks _ _ (not_isEntryPlace_linkPlace hother.long hother.id.no_slash)
    intro hlink
    exact hne (hentry.place_eq_of_link hother hbase hlink)
  have hsub : ∀ at_, after.files at_ ≠ none → after.files at_ = disk.files at_ := by
    intro at_ hat
    rw [← hafter] at hat ⊢
    unfold Disk.remove at hat ⊢
    dsimp only at hat ⊢
    rw [Function.update_apply] at hat ⊢
    split at hat
    · exact absurd rfl hat
    · rw [if_neg ‹_›]
      rw [Function.update_apply] at hat ⊢
      split at hat
      · exact absurd rfl hat
      · rw [if_neg ‹_›]
  have hsubLinks : ∀ at_, after.links at_ ≠ none → disk.links at_ ≠ none := by
    intro at_ hat
    rw [← hafter] at hat
    unfold Disk.remove at hat
    dsimp only at hat
    rw [Function.update_apply, Function.update_apply] at hat
    split at hat
    · exact absurd rfl hat
    · split at hat
      · exact absurd rfl hat
      · exact hat
  constructor
  · intro file content hfile
    have hsame := hsub file (by rw [hfile]; exact Option.some_ne_none _)
    obtain ⟨other, rest', hcontent, rfl, hother⟩ := h.files file content (hsame ▸ hfile)
    refine ⟨other, rest', hcontent, rfl, hkept hother ?_⟩
    intro heq
    rw [heq, hgone] at hfile
    cases hfile
  · intro link hlink
    obtain ⟨other, rest', rfl, hother⟩ := h.links link (hsubLinks link hlink)
    refine ⟨other, rest', rfl, hkept hother ?_⟩
    intro heq
    rw [hother.eq_of_place hentry heq, hunlinked] at hlink
    exact hlink rfl

end

inductive Call where
  | put (req : KnegdReq)
  | next
  | restart
deriving DecidableEq

/-- The queue of the daemon that runs, and the directory when it was started. -/
structure Lifetime (World : Type) where
  queue : Queue World
  left : Disk

variable {World : Type} (fs : Fs World) (disk : World → Disk)

inductive CallStep : Lifetime World → Call → Lifetime World → Prop where
  | put {s : Lifetime World} {req : KnegdReq} {put : Bool} {after : Queue World}
    (hput : kngqPut fs req s.queue = some (put, after)) : CallStep s (.put req) ⟨after, s.left⟩
  | next {s : Lifetime World} {next : Next} {after : Queue World}
    (hnext : kngqNext fs s.queue = some (next, after)) : CallStep s .next ⟨after, s.left⟩
  | restart {s : Lifetime World} :
    CallStep s .restart ⟨(kngqInit fs s.queue).2, disk s.queue.world⟩

def Empty (base : Bytes) (s : Lifetime World) : Prop :=
  s.queue.kngq.basepath = base ∧ s.queue.kngq.seq = 0 ∧
    (∀ at_, (disk s.queue.world).files at_ = none ∧ (disk s.queue.world).links at_ = none) ∧
    s.left = disk s.queue.world

def Readable (q : Queue World) : Prop :=
  ∀ found ∈ (fs.nextFile q.world).1,
    (fs.openFile found.1 (fs.nextFile q.world).2).1 = true ∧
      (fs.recvmsg found.1 (fs.openFile found.1 (fs.nextFile q.world).2).2).1 ≠ none

/-- No entry that an earlier daemon left waits with the second and the number that the next
entry gets. -/
def NewName (s : Lifetime World) : Prop :=
  s.left.files (nextEntry fs s.queue) = none ∨
    (disk s.queue.world).files (nextEntry fs s.queue) = none

def Sound (s : Lifetime World) : Call → Prop
  | .put req => NewName fs disk s ∧ s.queue.kngq.seq + 1 < 2 ^ 64 ∧
      Findable.Id s.queue.kngq.basepath (idOf req)
  | .next => Readable fs s.queue
  | .restart => True

/-- The entries are from before or numbered in this lifetime, and match their links. -/
structure Orderly (base : Bytes) (s : Lifetime World) : Prop where
  basepath_eq : s.queue.kngq.basepath = base
  seq_lt : s.queue.kngq.seq < 2 ^ 64
  joined : Joined base (disk s.queue.world)
  files : ∀ file, (disk s.queue.world).files file ≠ none →
    s.left.files file ≠ none ∨ Numbered base s.queue.kngq.seq file

variable {fs disk} {base : Bytes}

variable {s : Lifetime World}

theorem Orderly.start (h : Empty disk base s) : Orderly disk base s := by
  obtain ⟨hbase, hseq, hempty, -⟩ := h
  refine ⟨hbase, by rw [hseq]; decide, ⟨?_, ?_⟩, ?_⟩
  · intro file content hfile
    rw [(hempty file).1] at hfile
    cases hfile
  · intro link hlink
    exact absurd (hempty link).2 hlink
  · intro file hfile
    exact absurd (hempty file).1 hfile

theorem Orderly.free (h : Orderly disk base s) (hbase : Findable base)
    (hnew : NewName fs disk s) :
    (disk s.queue.world).files (nextEntry fs s.queue) = none := by
  by_contra hthere
  have hleft := hnew.resolve_right hthere
  have hnumbered := (h.files _ hthere).resolve_left fun hne => hne hleft
  unfold nextEntry at hnumbered
  rw [place_entryPath (h.basepath_eq ▸ hbase.length_le) h.seq_lt, h.basepath_eq] at hnumbered
  exact not_numbered base _ _ hnumbered

variable {after : Queue World}

theorem Orderly.put (hlaws : fs.Laws disk) (hremoves : fs.Removes disk) (hbase : Findable base)
    {req : KnegdReq} {put : Bool}
    (h : Orderly disk base s) (hsound : Sound fs disk s (.put req))
    (hput : kngqPut fs req s.queue = some (put, after)) : Orderly disk base ⟨after, s.left⟩ := by
  obtain ⟨hnew, hseq, hid⟩ := hsound
  have hlength : s.queue.kngq.basepath.length ≤ 470 := h.basepath_eq ▸ hbase.length_le
  have hplace := place_entryPath hlength h.seq_lt (fs.time s.queue.world).1
  have hentry : IsEntryPlace base (nextEntry fs s.queue) := by
    unfold nextEntry
    rw [hplace, h.basepath_eq]
    exact isEntryPlace_entryPlace base _ _
  have hfree := h.free hbase hnew
  have hnolink : (disk s.queue.world).links (nextEntry fs s.queue) = none := by
    by_contra hlink
    exact h.joined.not_isEntryPlace hlink hentry
  obtain ⟨hsame, hnumber, hput⟩ := kngqPut_cases hlaws hfree hnolink hid.no_slash hput
  rw [← idOf_filed] at hid
  rw [h.basepath_eq] at hput hid hsame
  have hmod : (s.queue.kngq.seq + 1) % 2 ^ 64 = s.queue.kngq.seq + 1 := Nat.mod_eq_of_lt hseq
  rw [hmod] at hnumber
  generalize hdisk : disk after.world = d at hput hnumber
  cases hput with
  | failed _ _ _ hgone =>
    have hkept := hgone hremoves
    subst hkept
    refine ⟨hsame, by dsimp only; omega, hdisk ▸ h.joined, ?_⟩
    intro file hfile
    rw [hdisk] at hfile
    exact (h.files file hfile).imp_right fun hnumbered => hnumbered.mono (by dsimp only; omega)
  | linked hlong hfits hlink hafter =>
    have hseq' := hnumber.resolve_right (by simp)
    have hpath := entryPath_eq hlength h.seq_lt (fs.time s.queue.world).1
    unfold nextEntry at hfree hentry
    rw [hpath, h.basepath_eq] at hfree hentry hafter
    refine ⟨hsame, by dsimp only; omega, ?_, ?_⟩
    · rw [hdisk, hafter]
      exact h.joined.add hentry hfree hlink hlong hfits hid
    · intro file hfile
      rw [hdisk, hafter] at hfile
      rw [hseq']
      by_cases hnew : file = entryPlace base (fs.time s.queue.world).1 s.queue.kngq.seq
      · exact .inr ⟨_, _, Nat.lt_succ_self _, hnew⟩
      · rw [hpath, h.basepath_eq] at hplace
        rw [← hplace] at hnew
        have hold : (disk s.queue.world).files file ≠ none := by
          rwa [← Function.update_of_ne hnew (some (some req.filed)) (disk s.queue.world).files]
        exact (h.files file hold).imp_right fun hnumbered => hnumbered.mono (Nat.le_succ _)

theorem kngqNext_readable {q : Queue World} {next : Next} (hread : Readable fs q)
    (h : kngqNext fs q = some (next, after)) :
    after = { q with world := (fs.nextFile q.world).2 } ∨
      ∃ path, Takes fs q path next after ∧ next ≠ .failure := by
  have hnext := nextFile_of_kngqNext h
  cases hnext with
  | none hnone => exact .inl rfl
  | @closed path ctime world hfile hclosed =>
    obtain ⟨hopen, -⟩ := hread (path, ctime) (congrArg Prod.fst hfile)
    rw [hfile, hclosed] at hopen
    cases hopen
  | @opened path ctime world _ _ hfile hopen hopened =>
    obtain ⟨-, hrecv⟩ := hread (path, ctime) (congrArg Prod.fst hfile)
    rw [hfile] at hrecv
    refine .inr ⟨path, ⟨⟨ctime, congrArg Prod.fst hfile⟩, h⟩, ?_⟩
    obtain ⟨hnone, -, -⟩ | ⟨req, q', -, rfl, -, -⟩ := kngqNextOpened_cases hopened
    · exact absurd hnone hrecv
    · simp

theorem Orderly.next (hlaws : fs.Laws disk) (hremoves : fs.Removes disk) (hbase : Findable base)
    {next : Next} (h : Orderly disk base s)
    (hread : Readable fs s.queue) (hnext : kngqNext fs s.queue = some (next, after)) :
    Orderly disk base ⟨after, s.left⟩ := by
  obtain rfl | ⟨path, htakes, hnever⟩ := kngqNext_readable hread hnext
  · refine ⟨h.basepath_eq, h.seq_lt, ?_, ?_⟩
    · rw [hlaws.nextFile]
      exact h.joined
    · dsimp only
      rw [hlaws.nextFile]
      exact h.files
  · obtain ⟨hsame, htaken⟩ := htakes.taken hlaws fun req => h.joined.tidy.ids (place path) req
    rw [h.basepath_eq] at htaken
    generalize hdisk : disk after.world = d at htaken
    cases htaken with
    | failure _ => exact absurd rfl hnever
    | @entry req ctime mid hfile hmid hunlinked hafter hremoved =>
      obtain ⟨found, rest, heq, hplace, hentry⟩ := h.joined.files _ _ hfile
      cases heq
      have hsome : req.id ≠ none := by
        intro hnone
        have hlong := hentry.long
        unfold idOf at hlong
        rw [hnone] at hlong
        exact absurd hlong (by decide)
      have hmid := hunlinked hremoves hsome hentry.fits
        (by rw [hentry.link]; exact Option.some_ne_none _)
      have hstill : mid.files (place path) ≠ none := by
        have hne : place path ≠ linkPlace base (idOf req) := by
          intro heq
          have hlinkPlace := @not_isEntryPlace_linkPlace base _ hentry.long hentry.id.no_slash
          rw [← heq, hplace] at hlinkPlace
          exact hlinkPlace hentry.isEntryPlace
        rw [hmid]
        unfold Disk.remove
        dsimp only
        rw [Function.update_of_ne hne, hfile]
        exact Option.some_ne_none _
      have hgone := hremoved hremoves hstill
      rw [hmid, hplace] at hgone
      refine ⟨hsame.basepath.trans h.basepath_eq, hsame.seq ▸ h.seq_lt, ?_, ?_⟩
      · rw [hdisk, hgone]
        exact h.joined.take hbase hentry
      · intro file hthere
        rw [hsame.seq]
        apply h.files file
        rw [hdisk, hgone] at hthere
        unfold Disk.remove at hthere
        dsimp only at hthere
        rw [Function.update_apply, Function.update_apply] at hthere
        split at hthere
        · exact absurd rfl hthere
        · split at hthere
          · exact absurd rfl hthere
          · exact hthere

theorem Orderly.restart (hlaws : fs.Laws disk) (h : Orderly disk base s) :
    Orderly disk base ⟨(kngqInit fs s.queue).2, disk s.queue.world⟩ := by
  have hinit : (kngqInit fs s.queue).2.kngq.basepath = s.queue.kngq.basepath ∧
      (kngqInit fs s.queue).2.kngq.seq = 0 ∧
      disk (kngqInit fs s.queue).2.world = disk s.queue.world := by
    unfold kngqInit mkdir
    dsimp only
    split
    · exact ⟨rfl, rfl, hlaws.mkdir _ _⟩
    · exact ⟨rfl, rfl, (hlaws.mkdir _ _).trans (hlaws.mkdir _ _)⟩
  obtain ⟨hbase, hseq, hdisk⟩ := hinit
  refine ⟨hbase.trans h.basepath_eq, by rw [hseq]; decide, hdisk ▸ h.joined, ?_⟩
  intro file hfile
  rw [hdisk] at hfile
  exact .inl hfile

theorem Orderly.step (hlaws : fs.Laws disk) (hremoves : fs.Removes disk) (hbase : Findable base)
    {after : Lifetime World} {call : Call} (h : Orderly disk base s)
    (hsound : Sound fs disk s call) (hstep : CallStep fs disk s call after) :
    Orderly disk base after := by
  cases hstep with
  | put hput => exact h.put hlaws hremoves hbase hsound hput
  | next hnext => exact h.next hlaws hremoves hbase hsound hnext
  | restart => exact h.restart hlaws

/-- Where every call is sound, links and entries match and no entry is overwritten. -/
theorem links_match_entries (hlaws : fs.Laws disk) (hremoves : fs.Removes disk)
    (hbase : Findable base) {s : Lifetime World}
    (h : Reachable (Empty disk base) (Sound fs disk) (CallStep fs disk) s) :
    Matched base (disk s.queue.world) ∧
      ∀ req, Sound fs disk s (.put req) →
        (disk s.queue.world).files (nextEntry fs s.queue) = none := by
  have horderly : Orderly disk base s := by
    apply h.invariant
    · exact fun _ => .start
    · exact fun before call after hbefore hsound hstep =>
        hbefore.step hlaws hremoves hbase hsound hstep
  exact ⟨horderly.joined.matched hbase, fun req hsound => horderly.free hbase hsound.1⟩

theorem deskFs_removes : deskFs.Removes deskDisk := by
  intro path desk hthere
  have hexists : Exists path desk := hthere.imp Option.isSome_iff_ne_none.mpr
    Option.isSome_iff_ne_none.mpr
  unfold deskFs
  dsimp only
  rw [if_pos hexists]

theorem readable_deskFs {q : Queue Desk} (h : ∀ file ∈ q.world.files.head?, file.2 ≠ none) :
    Readable deskFs q := by
  intro found hfound
  obtain ⟨file, hfile, rfl⟩ := Option.map_eq_some_iff.mp hfound
  obtain ⟨files, hfiles⟩ := List.head?_eq_some_iff.mp hfile
  have hlookup : lookup q.world.files (place file.1) = some file.2 := by
    rw [hfiles]
    exact Function.update_self _ _ _
  constructor
  · change (lookup q.world.files (place file.1)).isSome = true
    rw [hlookup]
    rfl
  · change (lookup q.world.files (place file.1)).join ≠ none
    rw [hlookup]
    exact h file hfile

theorem findable_queue : Findable (ascii "queue") where
  length_le := by decide
  found := .inr ⟨ascii "queue", rfl⟩

theorem empty_deskQueue :
    Empty deskDisk (ascii "queue") ⟨deskQueue [], deskDisk (deskQueue []).world⟩ :=
  ⟨rfl, rfl, fun _ => ⟨rfl, rfl⟩, rfl⟩

/-- The files after each call in which one request is put and taken by the next daemon, which
puts another one in the same second. -/
structure Reuse where
  first : List (Bytes × Option KnegdReq)
  kngq : Kngq
  taken : List (Bytes × Option KnegdReq)
  second : List (Bytes × Option KnegdReq)
deriving DecidableEq

def reused : Option Reuse := do
  let first ← kngqPut deskFs (scanRequest "b48a") (deskQueue [])
  let taken ← kngqNext deskFs (kngqInit deskFs first.2).2
  let second ← kngqPut deskFs (scanRequest "c59b") taken.2
  return ⟨first.2.world.files, taken.2.kngq, taken.2.world.files, second.2.world.files⟩

theorem reused_eq : reused =
    some ⟨[(ascii "queue/00/00000000-0", some (scanRequest "b48a"))], ⟨ascii "queue", 0, 0⟩, [],
      [(ascii "queue/00/00000000-0", some (scanRequest "c59b"))]⟩ := by
  decide +kernel

def DeskRuns : Lifetime Desk → Prop :=
  Reachable (Empty deskDisk (ascii "queue")) (Sound deskFs deskDisk) (CallStep deskFs deskDisk)

theorem links_match_entries_reused : ∃ s : Lifetime Desk, DeskRuns s ∧
      s.queue.world.files = [(ascii "queue/00/00000000-0", some (scanRequest "c59b"))] ∧
      Matched (ascii "queue") (deskDisk s.queue.world) := by
  have hrun := reused_eq
  obtain ⟨⟨put, first⟩, hfirst, hrun⟩ := Option.bind_eq_some_iff.mp hrun
  obtain ⟨⟨next, taken⟩, htaken, hrun⟩ := Option.bind_eq_some_iff.mp hrun
  obtain ⟨⟨put', second⟩, hsecond, hrun⟩ := Option.bind_eq_some_iff.mp hrun
  obtain ⟨hfirstFiles, hkngq, hempty, hsecondFiles⟩ := Reuse.mk.inj (Option.some.inj hrun)
  have hstart : Sound deskFs deskDisk ⟨deskQueue [], deskDisk (deskQueue []).world⟩
      (.put (scanRequest "b48a")) := ⟨.inl rfl, by decide, by decide, by decide⟩
  have hread : Readable deskFs (kngqInit deskFs first).2 := by
    apply readable_deskFs
    change ∀ file ∈ first.world.files.head?, file.2 ≠ none
    rw [hfirstFiles]
    rintro _ ⟨⟩
    exact Option.some_ne_none _
  have hsound :
      Sound deskFs deskDisk ⟨taken, deskDisk first.world⟩ (.put (scanRequest "c59b")) := by
    refine ⟨.inr ?_, ?_, ?_⟩
    · unfold deskDisk
      rw [hempty]
      rfl
    · rw [hkngq]
      decide
    · rw [hkngq]
      exact ⟨by decide, by decide⟩
  have hput : DeskRuns ⟨first, deskDisk (deskQueue []).world⟩ :=
    .step (.initial empty_deskQueue) hstart (.put hfirst)
  have hrestart : DeskRuns ⟨(kngqInit deskFs first).2, deskDisk first.world⟩ :=
    hput.step (show Sound deskFs deskDisk _ .restart from trivial) .restart
  have hnext : DeskRuns ⟨taken, deskDisk first.world⟩ :=
    hrestart.step (show Sound deskFs deskDisk _ .next from hread) (.next htaken)
  have hreach : DeskRuns ⟨second, deskDisk first.world⟩ := hnext.step hsound (.put hsecond)
  exact ⟨_, hreach, hsecondFiles,
    (links_match_entries deskFs_laws deskFs_removes findable_queue hreach).1⟩

/-- Two requests, one second, and a restart between them: the files and the links. -/
def overwritten : Option (List (Bytes × Option KnegdReq) × List (Bytes × Bytes)) := do
  let (_, first) ← kngqPut deskFs (scanRequest "b48a") (deskQueue [])
  let (_, second) ← kngqPut deskFs (scanRequest "c59b") (kngqInit deskFs first).2
  return (second.world.files, second.world.links)

theorem overwritten_eq : overwritten =
    some ([(ascii "queue/00/00000000-0", some (scanRequest "c59b"))],
      [(ascii "queue/ids/8a/b48a", ascii "../../../queue/00/00000000-0"),
        (ascii "queue/ids/9b/c59b", ascii "../../../queue/00/00000000-0")]) := by
  decide +kernel

theorem restart_overwrites : ¬ ∀ (World : Type) (fs : Fs World) (disk : World → Disk)
    (base : Bytes), fs.Laws disk → fs.Removes disk → Findable base → ∀ s : Lifetime World,
    Reachable (Empty disk base) (fun _ _ => True) (CallStep fs disk) s →
      Matched base (disk s.queue.world) ∧
        (disk s.queue.world).files (nextEntry fs s.queue) = none := by
  intro hall
  have hrun := overwritten_eq
  obtain ⟨⟨put, first⟩, hfirst, hrun⟩ := Option.bind_eq_some_iff.mp hrun
  obtain ⟨⟨put', second⟩, hsecond, hrun⟩ := Option.bind_eq_some_iff.mp hrun
  obtain ⟨hfiles, hlinks⟩ := Prod.mk.inj (Option.some.inj hrun)
  have hreach : Reachable (Empty deskDisk (ascii "queue")) (fun _ _ => True)
      (CallStep deskFs deskDisk) ⟨second, deskDisk first.world⟩ :=
    .step (.step (.step (.initial empty_deskQueue) trivial (.put hfirst)) trivial .restart) trivial
      (.put hsecond)
  have hmatched := (hall Desk deskFs deskDisk _ deskFs_laws deskFs_removes findable_queue _
    hreach).1
  have hfile : (deskDisk second.world).files (place (ascii "queue/00/00000000-0")) =
      some (some (scanRequest "c59b")) := by
    unfold deskDisk
    dsimp only
    rw [hfiles]
    exact Function.update_self _ _ _
  have hold : PointsTo (deskDisk second.world) (place (ascii "queue/ids/8a/b48a"))
      (place (ascii "queue/00/00000000-0")) := by
    refine ⟨ascii "../../../queue/00/00000000-0", ?_, by decide⟩
    unfold deskDisk
    dsimp only
    rw [hlinks]
    exact Function.update_self _ _ _
  -- the link of the first request leads to the entry of the second one
  obtain ⟨req, hreq, -, honly⟩ := hmatched.entries _ _ hfile
  cases hreq
  exact absurd (honly _ hold) (by decide)

end Yans.Apps.Knegd
