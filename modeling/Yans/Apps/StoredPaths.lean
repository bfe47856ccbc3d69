import Mathlib.Data.List.TakeDrop
import Yans.Apps.Stored

/-! The paths that a client makes `stored` open and rename: each of them is in
the directory of the client's store, but for the names that the file system
itself puts there. -/
namespace Yans.Apps.Stored

open Library.Memory Library.Strings

def IsStoreDir (path : Bytes) : Prop :=
  ∃ storeId, IsValidStoreId storeId ∧
    path = storeId.drop (storeIdsz - storePrefixsz) ++ 47 :: storeId

structure Confined (cli : StoreCli) (use : PathUse) : Prop where
  isStoreDir : IsStoreDir cli.storePath
  path_eq : use.path = cli.storePath ++ 47 :: use.name
  component : ∀ ch ∈ use.name, ch ≠ 47 ∧ ch ≠ 0
  nonempty : use.name ≠ []
  not_dots : use.name ≠ ascii "." ∧ use.name ≠ ascii ".."

structure Harmless (req : StoreEnteredReq) : Prop where
  openPath : strEq req.action "open" → ∀ name ∈ req.openPath,
    name ≠ ascii "." ∧ name ≠ ascii ".."
  rename : strEq req.action "rename" → IsValidPath req.renameFrom → IsValidPath req.renameTo →
    ∀ name, name ∈ req.renameFrom ∨ name ∈ req.renameTo →
      name ≠ [] ∧ name ≠ ascii "." ∧ name ≠ ascii ".."

variable {World : Type} (out : Outside World)

def HarmlessFrom (s : State World) : List Message → Prop
  | [] => True
  | message :: messages =>
    (s.phase = .readentered → ∀ req ∈ message.storeEnteredReq, Harmless req) ∧
      HarmlessFrom (step out s message).2 messages

theorem IsHex.ne_zero {ch : UInt8} (h : IsHex ch) : ch ≠ 0 := by
  rintro rfl
  revert h
  decide

theorem IsPathChar.ne_zero {ch : UInt8} (h : IsPathChar ch) : ch ≠ 0 := by
  rintro rfl
  revert h
  decide

theorem isStoreDir_storePathOf {storeId : Bytes} (h : IsValidStoreId storeId) :
    IsStoreDir (storePathOf storeId) := by
  obtain ⟨hlen, hhex⟩ := h
  have hnul : ∀ ch ∈ storeId, ch ≠ 0 := fun ch hch => (hhex ch hch).ne_zero
  have hsubdir : subdirOf storeId = storeId.drop (storeIdsz - storePrefixsz) :=
    cstring_of_ne_zero fun ch hch => hnul ch (List.mem_of_mem_drop hch)
  refine ⟨storeId, ⟨hlen, hhex⟩, ?_⟩
  have hidsz : storeIdsz = 20 := rfl
  have hprefixsz : storePrefixsz = 2 := rfl
  have hsize : storePathSize = 24 := rfl
  have htail : (storeId.drop (storeIdsz - storePrefixsz)).length = storePrefixsz := by
    rw [List.length_drop]
    omega
  have hfits : (storeId.drop (storeIdsz - storePrefixsz) ++ 47 :: storeId).length ≤
      storePathSize - 1 := by
    rw [List.length_append, htail, List.length_cons]
    omega
  unfold storePathOf snprintf
  rw [hsubdir, cstring_of_ne_zero hnul, List.take_of_length_le htail.le,
    List.take_of_length_le hlen.le, List.take_of_length_le hfits]

theorem IsStoreDir.length_eq {path : Bytes} (h : IsStoreDir path) : path.length = 23 := by
  obtain ⟨storeId, ⟨hlen, -⟩, rfl⟩ := h
  have hidsz : storeIdsz = 20 := rfl
  have hprefixsz : storePrefixsz = 2 := rfl
  simp only [List.length_append, List.length_cons, List.length_drop]
  omega

theorem confined_congr {cli cli' : StoreCli} (h : cli'.storePath = cli.storePath)
    {use : PathUse} : Confined cli' use ↔ Confined cli use := by
  constructor
  · intro hconfined
    exact ⟨h ▸ hconfined.isStoreDir, h ▸ hconfined.path_eq, hconfined.component,
      hconfined.nonempty, hconfined.not_dots⟩
  · intro hconfined
    exact ⟨h ▸ hconfined.isStoreDir, h ▸ hconfined.path_eq, hconfined.component,
      hconfined.nonempty, hconfined.not_dots⟩

theorem confined_dirpath_iff {cli : StoreCli} (hdir : IsStoreDir cli.storePath) {name : Bytes}
    (hvalid : IsValidPath (some name)) :
    Confined cli (dirpath cli name) ↔
      name ≠ [] ∧ name ≠ ascii "." ∧ name ≠ ascii ".." := by
  obtain ⟨other, hother, hlen, hchars⟩ := hvalid
  obtain rfl := Option.mem_some.mp hother
  have hnul : ∀ ch ∈ name, ch ≠ 0 := fun ch hch => (hchars ch hch).ne_zero
  have hpath : (dirpath cli name).path = cli.storePath ++ 47 :: name := by
    have hdirlen := hdir.length_eq
    have hmaxpath : storeMaxpath = 128 := rfl
    have hmaxdirpath : storeMaxdirpath = 153 := rfl
    unfold dirpath snprintf
    rw [cstring_of_ne_zero hnul, List.take_of_length_le]
    simp only [List.length_append, List.length_cons]
    omega
  constructor
  · exact fun h => ⟨h.nonempty, h.not_dots⟩
  · rintro ⟨hnonempty, hdots⟩
    exact ⟨hdir, hpath, fun ch hch => ⟨(hchars ch hch).1, hnul ch hch⟩, hnonempty, hdots⟩

def usesOf (cli : StoreCli) (req : StoreEnteredReq) : List PathUse :=
  if strEq req.action "open" then
    if cstring (req.openPath.getD []) = [] ∨ ¬ IsValidPath req.openPath then []
    else [dirpath cli (req.openPath.getD [])]
  else if strEq req.action "rename" ∧ IsValidPath req.renameFrom ∧ IsValidPath req.renameTo then
    [dirpath cli (req.renameFrom.getD []), dirpath cli (req.renameTo.getD [])]
  else []

theorem not_rename_of_open {s : Option Bytes} (h : strEq s "open") : ¬ strEq s "rename" := by
  unfold strEq at h ⊢
  rw [strcmp_eq_zero_iff] at h ⊢
  rw [h]
  decide

theorem confined_usesOf_iff {cli : StoreCli} (hdir : IsStoreDir cli.storePath)
    (req : StoreEnteredReq) : (∀ use ∈ usesOf cli req, Confined cli use) ↔ Harmless req := by
  unfold usesOf
  by_cases hopen : strEq req.action "open"
  · have hrename := not_rename_of_open hopen
    rw [if_pos hopen]
    by_cases hvalid : IsValidPath req.openPath
    · obtain ⟨name, hname, hlen, hchars⟩ := hvalid
      rw [Option.mem_def] at hname
      simp only [hname, Option.getD_some]
      have hvalid : IsValidPath (some name) := ⟨name, rfl, hlen, hchars⟩
      have hnul : cstring name = name :=
        cstring_of_ne_zero fun ch hch => (hchars ch hch).ne_zero
      by_cases hempty : name = []
      · subst hempty
        refine iff_of_true (by simp [cstring_nil]) ⟨fun _ other hother => ?_, fun h => absurd h hrename⟩
        rw [hname, Option.mem_some] at hother
        subst hother
        decide
      · rw [if_neg (by rw [hnul, not_or, not_not]; exact ⟨hempty, hvalid⟩)]
        simp only [List.mem_singleton, forall_eq]
        rw [confined_dirpath_iff hdir hvalid, and_iff_right hempty]
        constructor
        · refine fun hdots => ⟨fun _ other hother => ?_, fun h => absurd h hrename⟩
          rw [hname, Option.mem_some] at hother
          exact hother ▸ hdots
        · exact fun h => h.openPath hopen name hname
    · rw [if_pos (.inr hvalid)]
      refine iff_of_true (by simp) ⟨fun _ name hname => ?_, fun h => absurd h hrename⟩
      constructor
      · rintro rfl
        exact hvalid ⟨_, hname, by decide, by decide⟩
      · rintro rfl
        exact hvalid ⟨_, hname, by decide, by decide⟩
  · rw [if_neg hopen]
    by_cases hrename : strEq req.action "rename" ∧ IsValidPath req.renameFrom ∧
        IsValidPath req.renameTo
    · rw [if_pos hrename]
      obtain ⟨haction, hfrom, hto⟩ := hrename
      have hfrom' := hfrom
      have hto' := hto
      obtain ⟨src, hsrc, -⟩ := hfrom'
      obtain ⟨dst, hdst, -⟩ := hto'
      rw [Option.mem_def] at hsrc hdst
      rw [hsrc] at hfrom
      rw [hdst] at hto
      simp only [hsrc, hdst, Option.getD_some, List.mem_cons, List.not_mem_nil, or_false,
        forall_eq_or_imp, forall_eq]
      rw [confined_dirpath_iff hdir hfrom, confined_dirpath_iff hdir hto]
      constructor
      · rintro ⟨hsrc', hdst'⟩
        refine ⟨fun h => absurd h hopen, fun _ _ _ name hname => ?_⟩
        rw [hsrc, hdst, Option.mem_some, Option.mem_some] at hname
        obtain rfl | rfl := hname
        · exact hsrc'
        · exact hdst'
      · intro h
        have hall := h.rename haction (hsrc ▸ hfrom) (hdst ▸ hto)
        exact ⟨hall src (.inl hsrc), hall dst (.inr hdst)⟩
    · rw [if_neg hrename]
      refine iff_of_true (by simp) ⟨fun h => absurd h hopen, fun haction hfrom hto => ?_⟩
      exact absurd ⟨haction, hfrom, hto⟩ hrename

theorem handleStoreOpen_spec (req : StoreEnteredReq) (s : State World) :
    (handleStoreOpen out req s).2.phase = s.phase ∧
      (handleStoreOpen out req s).2.cli.storePath = s.cli.storePath ∧
      (handleStoreOpen out req s).2.uses = s.uses ++
        if cstring (req.openPath.getD []) = [] ∨ ¬ IsValidPath req.openPath then []
        else [dirpath s.cli (req.openPath.getD [])] := by
  unfold handleStoreOpen
  dsimp only
  split
  · exact ⟨rfl, rfl, (List.append_nil _).symm⟩
  · split
    · exact ⟨rfl, rfl, rfl⟩
    · exact ⟨rfl, rfl, rfl⟩

theorem handleStoreRename_spec (req : StoreEnteredReq) (s : State World) :
    (handleStoreRename out req s).2.phase = s.phase ∧
      (handleStoreRename out req s).2.cli.storePath = s.cli.storePath ∧
      (handleStoreRename out req s).2.uses = s.uses ++
        if IsValidPath req.renameFrom ∧ IsValidPath req.renameTo then
          [dirpath s.cli (req.renameFrom.getD []), dirpath s.cli (req.renameTo.getD [])]
        else [] := by
  unfold handleStoreRename
  by_cases hfrom : IsValidPath req.renameFrom
  · by_cases hto : IsValidPath req.renameTo
    · rw [if_neg (not_not.mpr hfrom), if_neg (not_not.mpr hto), if_pos ⟨hfrom, hto⟩]
      exact ⟨rfl, rfl, rfl⟩
    · rw [if_neg (not_not.mpr hfrom), if_pos hto, if_neg fun h => hto h.2]
      exact ⟨rfl, rfl, (List.append_nil _).symm⟩
  · rw [if_pos hfrom, if_neg fun h => hfrom h.1]
    exact ⟨rfl, rfl, (List.append_nil _).symm⟩

theorem onReadentered_spec (req : Option StoreEnteredReq) (s : State World) :
    ((onReadentered out req s).2.phase = s.phase ∨
        (onReadentered out req s).2.phase = .finished) ∧
      (onReadentered out req s).2.cli.storePath = s.cli.storePath ∧
      (onReadentered out req s).2.uses = s.uses ++ (req.map (usesOf s.cli)).getD [] := by
  cases req with
  | none => exact ⟨.inr rfl, rfl, (List.append_nil _).symm⟩
  | some req =>
    unfold onReadentered usesOf
    rw [Option.map_some, Option.getD_some]
    dsimp only
    split
    · rename_i hmissing
      have hnone : req.action.getD [] = [] := List.length_eq_zero_iff.mp hmissing
      have hopen : ¬ strEq req.action "open" := by
        rw [strEq, hnone]
        decide
      have hrename : ¬ strEq req.action "rename" := by
        rw [strEq, hnone]
        decide
      rw [if_neg hopen, if_neg fun h => hrename h.1]
      exact ⟨.inr rfl, rfl, (List.append_nil _).symm⟩
    · by_cases hopen : strEq req.action "open"
      · rw [if_pos hopen, if_pos hopen]
        obtain ⟨hphase, hrest⟩ := handleStoreOpen_spec out req s
        exact ⟨.inl hphase, hrest⟩
      · rw [if_neg hopen, if_neg hopen]
        by_cases hrename : strEq req.action "rename"
        · rw [if_pos hrename]
          simp only [hrename, true_and]
          obtain ⟨hphase, hrest⟩ := handleStoreRename_spec out req s
          exact ⟨.inl hphase, hrest⟩
        · rw [if_neg hrename, if_neg fun h => hrename h.1]
          exact ⟨.inr rfl, rfl, (List.append_nil _).symm⟩

theorem enterStore_spec (storeId : Bytes) (exclusive : Bool) (s : State World) :
    (enterStore out storeId exclusive s).2.uses = s.uses ∧
      (enterStore out storeId exclusive s).2.phase = s.phase ∧
      ((enterStore out storeId exclusive s).1 = true →
        IsStoreDir (enterStore out storeId exclusive s).2.cli.storePath) := by
  unfold enterStore
  split
  · exact ⟨rfl, rfl, Bool.noConfusion⟩
  · rename_i hvalid
    rw [not_not] at hvalid
    dsimp only
    split
    · exact ⟨rfl, rfl, Bool.noConfusion⟩
    · exact ⟨rfl, rfl, fun _ => isStoreDir_storePathOf hvalid⟩

theorem createAndEnterStore_spec (tries : ℕ) : ∀ s : State World,
    (createAndEnterStore out tries s).2.uses = s.uses ∧
      (createAndEnterStore out tries s).2.phase = s.phase ∧
      ((createAndEnterStore out tries s).1 = true →
        IsStoreDir (createAndEnterStore out tries s).2.cli.storePath) := by
  induction tries with
  | zero => exact fun s => ⟨rfl, rfl, Bool.noConfusion⟩
  | succ tries ih =>
    intro s
    unfold createAndEnterStore
    dsimp only
    generalize hgenerated : ({ s with world := (out.prngHex storeIdsz s.world).2 } : State World) = s'
    have huses : s'.uses = s.uses := by rw [← hgenerated]
    have hphase : s'.phase = s.phase := by rw [← hgenerated]
    obtain ⟨huses', hphase', hentered⟩ :=
      enterStore_spec out (out.prngHex storeIdsz s.world).1 true s'
    split
    · rename_i htrue
      exact ⟨huses'.trans huses, hphase'.trans hphase, fun _ => hentered htrue⟩
    · obtain ⟨huses'', hphase'', hdir⟩ := ih _
      exact ⟨huses''.trans (huses'.trans huses), hphase''.trans (hphase'.trans hphase), hdir⟩

theorem onReadreq_spec (req : Option StoreReq) {s : State World} (hphase : s.phase = .readreq) :
    (onReadreq out req s).2.uses = s.uses ∧
      ((onReadreq out req s).2.phase = .readentered →
        IsStoreDir (onReadreq out req s).2.cli.storePath) := by
  have hfinished : ∀ errmsg (s : State World), (writeErrResponse errmsg s).2.uses = s.uses ∧
      ((writeErrResponse errmsg s).2.phase = .readentered →
        IsStoreDir (writeErrResponse errmsg s).2.cli.storePath) :=
    fun _ _ => ⟨rfl, Phase.noConfusion⟩
  have hstill : s.phase ≠ .readentered := by
    rw [hphase]
    exact Phase.noConfusion
  cases req with
  | none => exact hfinished _ s
  | some req =>
    unfold onReadreq
    dsimp only
    split
    · exact hfinished _ s
    · split
      · unfold onEnter
        have hentered : ∀ result : Bool × State World, result.2.uses = s.uses →
            (result.1 = true → IsStoreDir result.2.cli.storePath) →
            (onEntered out req result).2.uses = s.uses ∧
              ((onEntered out req result).2.phase = .readentered →
                IsStoreDir (onEntered out req result).2.cli.storePath) := by
          rintro ⟨entered, s'⟩ huses hdir
          unfold onEntered
          dsimp only at huses hdir ⊢
          cases entered with
          | false => exact ⟨huses, Phase.noConfusion⟩
          | true =>
            rw [if_neg (by simp)]
            split
            · exact ⟨huses, fun _ => hdir rfl⟩
            · exact ⟨huses, fun _ => hdir rfl⟩
        cases req.storeId with
        | some storeId =>
          obtain ⟨huses, -, hdir⟩ := enterStore_spec out storeId false s
          exact hentered _ huses hdir
        | none =>
          obtain ⟨huses, -, hdir⟩ := createAndEnterStore_spec out maxtriesGenstore s
          exact hentered _ huses hdir
      · split
        · exact ⟨rfl, Phase.noConfusion⟩
        · split
          · unfold handleStoreList
            dsimp only
            split
            · exact ⟨rfl, fun h => absurd h hstill⟩
            · split
              · exact ⟨rfl, fun h => absurd h hstill⟩
              · split
                · exact ⟨rfl, fun h => absurd h hstill⟩
                · exact ⟨rfl, fun h => absurd h hstill⟩
          · exact hfinished _ s

structure Serving (s : State World) : Prop where
  isStoreDir : s.phase = .readentered → IsStoreDir s.cli.storePath
  unused : s.phase = .readreq → s.uses = []

theorem step_confined_iff {s : State World} (h : Serving s) (message : Message) :
    Serving (step out s message).2 ∧
      ((∀ use ∈ (step out s message).2.uses, Confined (step out s message).2.cli use) ↔
        (∀ use ∈ s.uses, Confined s.cli use) ∧
          (s.phase = .readentered → ∀ req ∈ message.storeEnteredReq, Harmless req)) := by
  unfold step
  cases hphase : s.phase with
  | readreq =>
    obtain ⟨huses, hdir⟩ := onReadreq_spec out message.storeReq hphase
    have hnone := h.unused hphase
    refine ⟨⟨hdir, fun _ => huses.trans hnone⟩, ?_⟩
    dsimp only [Prod.map]
    rw [id, huses, hnone]
    simp
  | readentered =>
    obtain ⟨hnext, hpath, huses⟩ := onReadentered_spec out message.storeEnteredReq s
    have hdir := h.isStoreDir hphase
    have hconfined : ∀ use, Confined (onReadentered out message.storeEnteredReq s).2.cli use ↔
        Confined s.cli use := fun use => confined_congr hpath
    refine ⟨⟨fun _ => hpath ▸ hdir, fun hreq => ?_⟩, ?_⟩
    · rw [hphase] at hnext
      cases hnext with
      | inl hentered => exact Phase.noConfusion (hreq.symm.trans hentered)
      | inr hfinished => exact Phase.noConfusion (hreq.symm.trans hfinished)
    · dsimp only [Prod.map]
      rw [id, huses]
      simp only [hconfined, List.forall_mem_append]
      refine and_congr_right fun _ => ?_
      cases message.storeEnteredReq with
      | none => simp
      | some req =>
        simp only [Option.map_some, Option.getD_some, Option.mem_some, forall_eq', forall_const]
        exact confined_usesOf_iff hdir req
  | finished =>
    refine ⟨⟨fun hentered => ?_, fun hreq => ?_⟩, ?_⟩
    · exact Phase.noConfusion (hphase.symm.trans hentered)
    · exact Phase.noConfusion (hphase.symm.trans hreq)
    · simp

/-- The induction is on the messages. -/
theorem serve_confined_iff (messages : List Message) : ∀ {s : State World}, Serving s →
    ((∀ use ∈ (serve out s messages).uses, Confined (serve out s messages).cli use) ↔
      (∀ use ∈ s.uses, Confined s.cli use) ∧ HarmlessFrom out s messages) := by
  induction messages with
  | nil => exact fun _ => (and_iff_left trivial).symm
  | cons message messages ih =>
    intro s h
    obtain ⟨hserving, hstep⟩ := step_confined_iff out h message
    have hserve : serve out s (message :: messages) = serve out (step out s message).2 messages :=
      rfl
    rw [hserve, ih hserving, hstep, and_assoc]
    rfl

/-- A client that is new on its descriptor, whatever earlier ones have left
there. -/
theorem paths_confined_iff (cli : StoreCli) (world : World) (messages : List Message) :
    (∀ use ∈ (serve out (storeOnReadable cli world) messages).uses,
        Confined (serve out (storeOnReadable cli world) messages).cli use) ↔
      HarmlessFrom out (storeOnReadable cli world) messages := by
  have hstart : Serving (storeOnReadable cli world) := ⟨Phase.noConfusion, fun _ => rfl⟩
  rw [serve_confined_iff out messages hstart]
  exact and_iff_right nofun

def sampleOutside : Outside Unit where
  nullfd := 3
  prngHex n _ := (List.replicate n 48, ())
  mkdir _ _ := (none, ())
  openFile _ _ _ _ := (.ok 7, ())
  rename _ _ _ := (none, ())
  strerror _ := []
  openIndex _ := (.ok 4, ())
  reinitIndex _ := ()
  putIndex _ _ _ _ := ()
  regcomp _ := true
  listStoreContent _ _ _ := []
  listStores _ _ := []

def sampleEnter : Message :=
  ⟨some ⟨some (ascii "enter"), some (ascii "0123456789abcdef0123"), none, 0, none, 0⟩, none⟩

def sampleMessages : List Message :=
  [sampleEnter,
    ⟨none, some ⟨some (ascii "open"), some (ascii ".."), 0, none, none⟩⟩,
    ⟨none, some ⟨some (ascii "rename"), none, 0, some [], some (ascii "x")⟩⟩]

theorem parent_opened :
    (serve sampleOutside (storeOnReadable ⟨[], -1, 0, []⟩ ()) sampleMessages).uses.map (·.path) =
        [ascii "23/0123456789abcdef0123/..", ascii "23/0123456789abcdef0123/",
          ascii "23/0123456789abcdef0123/x"] ∧
      ¬ ∀ use ∈ (serve sampleOutside (storeOnReadable ⟨[], -1, 0, []⟩ ()) sampleMessages).uses,
        Confined (serve sampleOutside (storeOnReadable ⟨[], -1, 0, []⟩ ()) sampleMessages).cli
          use := by
  refine ⟨by decide, fun hall => ?_⟩
  have huse : ⟨ascii "..", ascii "23/0123456789abcdef0123/.."⟩ ∈
      (serve sampleOutside (storeOnReadable ⟨[], -1, 0, []⟩ ()) sampleMessages).uses := by decide
  exact (hall _ huse).not_dots.2 rfl

end Yans.Apps.Stored
