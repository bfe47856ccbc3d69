import Mathlib
import Yans.Library.FirstOccurrences
import Yans.Util.Deduptbl
import Yans.Util.LineChunks

/-! The loop of the `lines` command of `apps/deduptbl`: a file is read line by
line and the lines whose identifiers are new to the table are written out.
Writing is taken to succeed. SHA-1, which is not part of the repository, is a
parameter. -/
namespace Yans.Apps.DedupLines

open Library.Memory Library.RobinHood Library.FirstOccurrences Util.Deduptbl Util.Lines

inductive Status where
  | success
  | failure
deriving DecidableEq

structure Run where
  ctx : LinesCtx
  table : DeduptblTable
  out : Bytes

/-- The body of the inner loop for one line; a failure is the jump out of both
loops. -/
def dedupLine (sha1 : Bytes → Vector UInt8 20) (run : Run) (line : Bytes) :
    Option (Status × Run) := do
  match ← deduptblUpdate run.table (deduptblId (sha1 line)) with
  | (.ok, table) => pure (.success, { run with table := table, out := run.out ++ line ++ [lf] })
  | (.eexist, table) => pure (.success, { run with table := table })
  | (_, table) => pure (.failure, { run with table := table })

variable {sha1 : Bytes → Vector UInt8 20}

theorem dedupLine_ctx {run after : Run} {line : Bytes}
    {status : Status} (h : dedupLine sha1 run line = some (status, after)) :
    after.ctx = run.ctx := by
  obtain ⟨⟨code, table⟩, -, hcode⟩ := Option.bind_eq_some_iff.mp h
  cases code <;> cases hcode <;> rfl

def lineLoop (sha1 : Bytes → Vector UInt8 20) (run : Run) : Option (Status × Run) :=
  match _hnext : linesNext run.ctx with
  | (none, ctx) => some (.success, { run with ctx := ctx })
  | (some (off, len), ctx) =>
    match _hline : dedupLine sha1 { run with ctx := ctx } (slice ctx.data off len) with
    | none => none
    | some (.failure, run) => some (.failure, run)
    | some (.success, run) => lineLoop sha1 run
termination_by run.ctx.end_ - run.ctx.lineoff
decreasing_by
  rw [dedupLine_ctx _hline]
  exact linesNext_progress _hnext

theorem lineLoop_fp {run after : Run} {status : Status}
    (h : lineLoop sha1 run = some (status, after)) : after.ctx.fp = run.ctx.fp := by
  fun_induction lineLoop sha1 run with
  | case1 run ctx hnext =>
    have hfp := linesNext_fp run.ctx
    rw [hnext] at hfp
    cases h
    exact hfp
  | case2 run off len ctx hnext hline => cases h
  | case3 run off len ctx hnext stopped hline =>
    have hfp := linesNext_fp run.ctx
    rw [hnext] at hfp
    cases h
    rw [dedupLine_ctx hline]
    exact hfp
  | case4 run off len ctx hnext next hline ih =>
    have hfp := linesNext_fp run.ctx
    rw [hnext] at hfp
    rw [ih h, dedupLine_ctx hline]
    exact hfp

/-- The two loops of `run_lines`. -/
def runLoop (sha1 : Bytes → Vector UInt8 20) (run : Run) : Option (Status × Run) :=
  match _hchunk : linesNextChunk run.ctx with
  | (.ok, ctx) => some (.success, { run with ctx := ctx })
  | (.eread, ctx) => some (.failure, { run with ctx := ctx })
  | (.continue, ctx) =>
    match _hlines : lineLoop sha1 { run with ctx := ctx } with
    | none => none
    | some (.failure, run) => some (.failure, run)
    | some (.success, run) => runLoop sha1 run
termination_by run.ctx.fp.rest.length
decreasing_by
  rw [lineLoop_fp _hlines]
  exact linesNextChunk_progress _hchunk

/-! What the loops do with a list of lines -/

section

variable (id : Bytes → DeduptblId) (max : ℕ)

/-- The identifiers in the table after the given lines. -/
def storedAfter (stored : Finset DeduptblId) (lines : List Bytes) : Finset DeduptblId :=
  lines.foldl (fun stored line => insert (id line) stored) stored

def freshLines (stored : Finset DeduptblId) : List Bytes → List Bytes
  | [] => []
  | line :: lines =>
    if id line ∈ stored then freshLines stored lines
    else line :: freshLines (insert (id line) stored) lines

def Accepts (stored : Finset DeduptblId) : List Bytes → Prop
  | [] => True
  | line :: lines => stored.card < max ∧ Accepts (insert (id line) stored) lines

variable {id max}

theorem freshLines_append (left right : List Bytes) : ∀ stored,
    freshLines id stored (left ++ right) =
      freshLines id stored left ++ freshLines id (storedAfter id stored left) right := by
  induction left with
  | nil => intro stored; rfl
  | cons line left ih =>
    intro stored
    rw [List.cons_append, freshLines, freshLines, storedAfter, List.foldl_cons, ih, ih]
    split
    · rename_i hmem
      rw [Finset.insert_eq_of_mem hmem]
      rfl
    · rfl

theorem accepts_append (left right : List Bytes) : ∀ stored,
    Accepts id max stored (left ++ right) ↔
      Accepts id max stored left ∧ Accepts id max (storedAfter id stored left) right := by
  induction left with
  | nil =>
    intro stored
    rw [List.nil_append, Accepts, true_and]
    rfl
  | cons line left ih =>
    intro stored
    rw [List.cons_append, Accepts, Accepts, ih, and_assoc]
    rfl

theorem storedAfter_eq (lines : List Bytes) : storedAfter id ∅ lines = (lines.map id).toFinset := by
  induction lines using List.reverseRecOn with
  | nil => rfl
  | append_singleton lines line ih =>
    rw [storedAfter, List.foldl_append, List.foldl_cons, List.foldl_nil]
    change insert (id line) (storedAfter id ∅ lines) = _
    rw [ih]
    ext other
    simp

theorem map_freshLines (lines : List Bytes) :
    (freshLines id ∅ lines).map id = (lines.map id).eraseDups := by
  induction lines using List.reverseRecOn with
  | nil => rfl
  | append_singleton lines line ih =>
    have hmem : id line ∈ storedAfter id ∅ lines ↔ id line ∈ lines.map id := by
      rw [storedAfter_eq, List.mem_toFinset]
    rw [freshLines_append, List.map_append, List.map_append, List.map_singleton, eraseDups_concat,
      ih, freshLines]
    by_cases hseen : id line ∈ lines.map id
    · rw [if_pos (hmem.mpr hseen), if_pos hseen]
      exact List.append_nil _
    · rw [if_neg fun h => hseen (hmem.mp h), if_neg hseen]
      rfl

theorem freshLines_subset (lines : List Bytes) : ∀ stored,
    ∀ line ∈ freshLines id stored lines, line ∈ lines := by
  induction lines with
  | nil => intro stored line h; exact h
  | cons head lines ih =>
    intro stored line h
    rw [freshLines] at h
    split at h
    · exact List.mem_cons_of_mem head (ih stored line h)
    · obtain rfl | htail := List.mem_cons.mp h
      · exact List.mem_cons_self
      · exact List.mem_cons_of_mem head (ih _ line htail)

theorem accepts_iff (hmax : 0 < max) (lines : List Bytes) :
    Accepts id max ∅ lines ↔ (lines.dropLast.map id).eraseDups.length < max := by
  induction lines using List.reverseRecOn with
  | nil => exact iff_of_true trivial hmax
  | append_singleton lines line ih =>
    rw [accepts_append, ih, List.dropLast_concat, Accepts, Accepts, and_true, storedAfter_eq,
      length_eraseDups, length_eraseDups]
    refine and_iff_right_of_imp fun hcard => lt_of_le_of_lt (Finset.card_le_card ?_) hcard
    intro other hother
    rw [List.mem_toFinset] at hother ⊢
    exact List.map_subset id (List.dropLast_subset lines) hother

end

section

variable {max : UInt32} {run : Run}
  {stored : Finset DeduptblId}

def lineId (sha1 : Bytes → Vector UInt8 20) (line : Bytes) : DeduptblId := deduptblId (sha1 line)

theorem dedupLine_full (rep : Represents max run.table stored) (hfull : ¬ stored.card < max.toNat)
    (line : Bytes) : dedupLine sha1 run line = some (.failure, run) := by
  have hge : run.table.nused ≥ run.table.nmax := by
    rw [ge_iff_le, UInt32.le_iff_toNat_le, rep.nused_toNat, rep.nmax_eq]
    exact not_lt.mp hfull
  have hupdate : deduptblUpdate run.table (deduptblId (sha1 line)) = some (.efull, run.table) :=
    if_pos hge
  rw [dedupLine, hupdate]
  rfl

theorem dedupLine_room (rep : Represents max run.table stored) (hroom : stored.card < max.toNat)
    (line : Bytes) : ∃ table,
      dedupLine sha1 run line = some (.success, { run with
        table := table
        out := run.out ++ unlines (freshLines (lineId sha1) stored [line]) }) ∧
      Represents max table (insert (lineId sha1 line) stored) := by
  have hid : lineId sha1 line ≠ idEmpty := deduptblId_ne_empty _
  obtain ⟨hmem, hupdate⟩ | ⟨hfresh, table, hupdate, hwf, hnmax, hitems⟩ :=
    rep.deduptblUpdate_spec hid (by rw [rep.nused_toNat, rep.nmax_eq]; exact hroom)
  · rw [rep.items_eq, Finset.mem_val] at hmem
    refine ⟨run.table, ?_, by rwa [Finset.insert_eq_of_mem hmem]⟩
    rw [dedupLine, ← lineId, hupdate, freshLines, if_pos hmem, freshLines]
    change some (Status.success, run) = some (Status.success, { run with out := run.out ++ [] })
    rw [List.append_nil]
  · rw [rep.items_eq, Finset.mem_val] at hfresh
    refine ⟨table, ?_, hwf, hnmax.trans rep.nmax_eq, ?_⟩
    · rw [dedupLine, ← lineId, hupdate, freshLines, if_neg hfresh, freshLines]
      rw [List.append_assoc, unlines_cons]
      rfl
    · rw [hitems, rep.items_eq, Finset.insert_val_of_notMem hfresh]

variable {ctx : LinesCtx}

theorem lineLoop_end (hnext : linesNext run.ctx = (none, ctx)) :
    lineLoop sha1 run = some (.success, { run with ctx := ctx }) := by
  rw [lineLoop]
  split
  · rename_i heq
    rw [hnext] at heq
    cases heq
    rfl
  · rename_i heq
    rw [hnext] at heq
    cases heq

theorem lineLoop_line {off len : ℕ}
    (hnext : linesNext run.ctx = (some (off, len), ctx)) : lineLoop sha1 run =
      match dedupLine sha1 { run with ctx := ctx } (slice ctx.data off len) with
      | none => none
      | some (.failure, run) => some (.failure, run)
      | some (.success, run) => lineLoop sha1 run := by
  rw [lineLoop]
  split
  · rename_i heq
    rw [hnext] at heq
    cases heq
  · rename_i heq
    rw [hnext] at heq
    cases heq
    split <;> simp_all

theorem lineLoop_spec {lines : List Bytes} (hlines : linesOf (unread run.ctx) = lines)
    (hsized : Sized run.ctx) (hend : run.ctx.end_ ≤ run.ctx.len)
    (rep : Represents max run.table stored) :
    (Accepts (lineId sha1) max.toNat stored lines ∧ ∃ after,
      lineLoop sha1 run = some (.success, after) ∧ Follows run.ctx after.ctx ∧
      Represents max after.table (storedAfter (lineId sha1) stored lines) ∧
      after.out = run.out ++ unlines (freshLines (lineId sha1) stored lines)) ∨
    (¬ Accepts (lineId sha1) max.toNat stored lines ∧ ∃ after,
      lineLoop sha1 run = some (.failure, after)) := by
  induction lines generalizing run stored with
  | nil =>
    have hunread : unread run.ctx = [] := by
      by_contra hsome
      rw [linesOf_eq hsome] at hlines
      cases hlines
    refine Or.inl ⟨trivial, run, lineLoop_end (linesNext_none hsized hend hunread),
      Follows.refl hsized, rep, (List.append_nil _).symm⟩
  | cons line lines ih =>
    have hunread : unread run.ctx ≠ [] := by
      intro hnil
      rw [hnil] at hlines
      cases hlines
    rw [linesOf_eq hunread] at hlines
    obtain ⟨hline, hrest⟩ := List.cons.inj hlines
    obtain ⟨ctx, hnext, hslice, hafter, hfollows⟩ := linesNext_some hsized hend hunread
    rw [lineLoop_line hnext, hslice, hline]
    by_cases hroom : stored.card < max.toNat
    · obtain ⟨table, hrun, hrep⟩ := @dedupLine_room sha1 max { run with ctx := ctx } stored rep
        hroom line
      rw [hrun]
      obtain ⟨haccepts, after, hloop, hfollows', hrep', hout⟩ | ⟨hrejects, after, hloop⟩ :=
        @ih ⟨ctx, table, run.out ++ unlines (freshLines (lineId sha1) stored [line])⟩
          (insert (lineId sha1 line) stored) (by rw [hafter, hline, ← hrest, hline])
          hfollows.sized (by rw [hfollows.end_eq, hfollows.len_eq]; exact hend) hrep
      · refine Or.inl ⟨⟨hroom, haccepts⟩, after, hloop, hfollows.trans hfollows', hrep', ?_⟩
        have hsplit := @freshLines_append (lineId sha1) [line] lines stored
        rw [hout, List.append_assoc, ← unlines_append]
        exact congrArg (fun fresh => run.out ++ unlines fresh) hsplit.symm
      · exact Or.inr ⟨fun h => hrejects h.2, after, hloop⟩
    · rw [@dedupLine_full sha1 max { run with ctx := ctx } stored rep hroom line]
      exact Or.inr ⟨fun h => hroom h.1, _, rfl⟩

theorem runLoop_end (hchunk : linesNextChunk run.ctx = (.ok, ctx)) :
    runLoop sha1 run = some (.success, { run with ctx := ctx }) := by
  rw [runLoop]
  split <;> rename_i heq <;> rw [hchunk] at heq <;> cases heq
  rfl

theorem runLoop_chunk (hchunk : linesNextChunk run.ctx = (.continue, ctx)) :
    runLoop sha1 run =
      match lineLoop sha1 { run with ctx := ctx } with
      | none => none
      | some (.failure, run) => some (.failure, run)
      | some (.success, run) => runLoop sha1 run := by
  rw [runLoop]
  split <;> rename_i heq <;> rw [hchunk] at heq <;> cases heq
  split <;> simp_all

/-- The whole file: the lines that the reader keeps are processed one by one, up
to the first that comes when the table is full. -/
theorem runLoop_spec {cap : ℕ} {lines : List Bytes} (hcap : run.ctx.cap = cap)
    (hreading : Reading run.ctx lines) (hfits : Fits cap lines)
    (rep : Represents max run.table stored) :
    (Accepts (lineId sha1) max.toNat stored (keptLines cap lines) ∧ ∃ after,
      runLoop sha1 run = some (.success, after) ∧ after.ctx.fp.rest = [] ∧
      after.out = run.out ++ unlines (freshLines (lineId sha1) stored (keptLines cap lines))) ∨
    (¬ Accepts (lineId sha1) max.toNat stored (keptLines cap lines) ∧ ∃ after,
      runLoop sha1 run = some (.failure, after)) := by
  induction lines using keptLines.induct cap generalizing run stored with
  | case1 =>
    obtain ⟨ctx, hrun, hrest⟩ := hreading.done
    rw [keptLines]
    exact Or.inl ⟨trivial, _, runLoop_end hrun, hrest, (List.append_nil _).symm⟩
  | case2 line lines split =>
    rename_i ih
    obtain ⟨ctx, hchunk, hlines, hend, hctx, hnext⟩ :=
      hreading.next (hcap ▸ hfits) (Prod.mk.eta.symm : _ = (_, _))
    rw [hcap] at hlines hnext
    have hlater : Fits cap split.2 := fun other hmem => hfits other (by
      rw [← takeFitting_append lines (cap - (line.length + 1))]
      exact List.mem_cons_of_mem _ (List.mem_append_right _ hmem))
    rw [keptLines, runLoop_chunk hchunk, accepts_append, freshLines_append]
    obtain ⟨haccepts, mid, hloop, hfollows, hrep, hout⟩ | ⟨hrejects, after, hloop⟩ :=
      @lineLoop_spec sha1 max { run with ctx := ctx } stored _ hlines hnext.sized hend rep
    · rw [hloop]
      obtain ⟨hlast, after, hrun, hrest, hall⟩ | ⟨hrejects, after, hrun⟩ :=
        ih (hfollows.cap_eq.trans (hctx.trans hcap)) (hnext.follows hfollows) hlater hrep
      · refine Or.inl ⟨⟨haccepts, hlast⟩, after, hrun, hrest, ?_⟩
        rw [hall, hout, unlines_append, List.append_assoc]
      · exact Or.inr ⟨fun h => hrejects h.2, after, hrun⟩
    · rw [hloop]
      exact Or.inr ⟨fun h => hrejects h.1, after, rfl⟩

end

/-- A run of the loops on a new table: the whole file is read, and each distinct
line is written once, where it first occurs. -/
def Deduplicates (sha1 : Bytes → Vector UInt8 20) (table : DeduptblTable) (lines : List Bytes) :
    Prop :=
  ∃ after, runLoop sha1 ⟨linesInit (fopen (unlines lines)), table, []⟩ = some (.success, after) ∧
    after.ctx.fp.rest = [] ∧ after.out = unlines lines.eraseDups

def Clash (sha1 : Bytes → Vector UInt8 20) (lines : List Bytes) : Prop :=
  ∃ left ∈ lines, ∃ right ∈ lines,
    sha1 left = idEmpty.u8 ∧ sha1 right = idEmpty.u8.set 0 1 idSize_pos

theorem injOn_lineId_iff {lines : List Bytes}
    (hsha1 : Set.InjOn sha1 {line | line ∈ lines}) :
    Set.InjOn (lineId sha1) {line | line ∈ lines} ↔ ¬ Clash sha1 lines := by
  constructor
  · rintro hinj ⟨left, hleft, right, hright, hzero, hone⟩
    have heq : lineId sha1 left = lineId sha1 right :=
      deduptblId_eq_iff.mpr (Or.inr (Or.inl ⟨hzero, hone⟩))
    rw [hinj hleft hright heq, hone] at hzero
    exact absurd hzero (by decide)
  · intro hclash left hleft right hright heq
    obtain hsame | ⟨hzero, hone⟩ | ⟨hzero, hone⟩ := deduptblId_eq_iff.mp heq
    · exact hsha1 hleft hright hsame
    · exact absurd ⟨left, hleft, right, hright, hzero, hone⟩ hclash
    · exact absurd ⟨right, hright, left, hleft, hzero, hone⟩ hclash

theorem delivered_subset (chunk : List Bytes) : delivered chunk ⊆ chunk := by
  unfold delivered
  split
  · exact List.dropLast_subset chunk
  · exact List.Subset.refl chunk

theorem keptLines_subset (cap : ℕ) (lines : List Bytes) : keptLines cap lines ⊆ lines := by
  induction lines using keptLines.induct cap with
  | case1 => rw [keptLines]; exact List.Subset.refl []
  | case2 line lines split =>
    rename_i ih
    have hall := takeFitting_append lines (cap - (line.length + 1))
    rw [keptLines]
    intro other hother
    rw [← hall, ← List.cons_append, List.mem_append]
    exact (List.mem_append.mp hother).imp (fun h => delivered_subset _ h) (fun h => ih h)

theorem unlines_injective {left right : List Bytes} (hleft : ∀ line ∈ left, lf ∉ line)
    (hright : ∀ line ∈ right, lf ∉ line) (h : unlines left = unlines right) : left = right := by
  have hlines := congrArg (fun text => linesOf (text ++ [])) h
  rw [linesOf_unlines_append hleft, linesOf_unlines_append hright, linesOf, List.append_nil,
    List.append_nil] at hlines
  exact hlines

theorem injOn_of_nodup {id : Bytes → DeduptblId} {lines : List Bytes}
    (h : (lines.eraseDups.map id).Nodup) : Set.InjOn id {line | line ∈ lines} := by
  intro left hleft right hright heq
  exact List.inj_on_of_nodup_map h (List.mem_eraseDups.mpr hleft) (List.mem_eraseDups.mpr hright) heq

/-- A file of newline-terminated lines, each shorter than half of the buffer, is
deduplicated exactly if the lines that the reader keeps of it have the same
first occurrences, fewer than `max` distinct lines come before the last of them,
and no digest is the one that replaces the digest of another line. -/
theorem deduplicates_iff (sha1 : Bytes → Vector UInt8 20) {max : UInt32} (hmax : 1 ≤ max)
    {table : DeduptblTable} (hcreate : deduptblCreate max = .ok table) (lines : List Bytes)
    (hfits : Fits chunksize lines) (hsha1 : Set.InjOn sha1 {line | line ∈ lines}) :
    Deduplicates sha1 table lines ↔
      (keptLines chunksize lines).eraseDups = lines.eraseDups ∧
      (keptLines chunksize lines).dropLast.eraseDups.length < max.toNat ∧
      ¬ Clash sha1 lines := by
  obtain ⟨hwf, hnmax, hitems⟩ := deduptblCreate_spec hcreate
  have hpos : 0 < max.toNat := by
    rw [UInt32.le_iff_toNat_le] at hmax
    exact hmax
  set kept := keptLines chunksize lines with hkept
  have hsubset : kept ⊆ lines := keptLines_subset chunksize lines
  have hfree : ∀ line ∈ lines, lf ∉ line := fun line hmem => (hfits line hmem).1
  have hspec := @runLoop_spec sha1 max ⟨linesInit (fopen (unlines lines)), table, []⟩ ∅ chunksize
    lines rfl (reading_linesInit lines) hfits ⟨hwf, hnmax, hitems⟩
  rw [← hkept, accepts_iff hpos] at hspec
  have hwritten : ∀ fresh : List Bytes, fresh ⊆ lines →
      (unlines fresh = unlines lines.eraseDups ↔ fresh = lines.eraseDups) := by
    intro fresh hfresh
    refine ⟨fun h => ?_, fun h => congrArg unlines h⟩
    exact unlines_injective (fun line hmem => hfree line (hfresh hmem))
      (fun line hmem => hfree line (List.mem_eraseDups.mp hmem)) h
  have hfresh : freshLines (lineId sha1) ∅ kept ⊆ lines :=
    fun line hmem => hsubset (freshLines_subset kept ∅ line hmem)
  have hids := @map_freshLines (lineId sha1) kept
  -- once identifiers are known to tell the lines apart, they can be left out
  have hplain : Set.InjOn (lineId sha1) {line | line ∈ lines} →
      freshLines (lineId sha1) ∅ kept = kept.eraseDups ∧
      (kept.dropLast.map (lineId sha1)).eraseDups.length = kept.dropLast.eraseDups.length := by
    intro hinj
    constructor
    · rw [eraseDups_map kept (hinj.mono fun line hmem => hsubset hmem)] at hids
      exact eq_of_map_eq hinj hfresh (fun line hmem => hsubset (List.mem_eraseDups.mp hmem)) hids
    · rw [eraseDups_map _ (hinj.mono fun line hmem => hsubset (List.dropLast_subset kept hmem)),
        List.length_map]
  constructor
  · rintro ⟨after, hrun, -, hout⟩
    obtain ⟨hroom, last, hlast, -, hlines⟩ | ⟨-, last, hlast⟩ := hspec
    · rw [hrun] at hlast
      cases hlast
      rw [hout, List.nil_append, eq_comm, hwritten _ hfresh] at hlines
      have hinj : Set.InjOn (lineId sha1) {line | line ∈ lines} := by
        apply injOn_of_nodup
        rw [← hlines, hids]
        exact nodup_eraseDups _
      obtain ⟨hsame, hlength⟩ := hplain hinj
      exact ⟨hsame.symm.trans hlines, hlength ▸ hroom, (injOn_lineId_iff hsha1).mp hinj⟩
    · rw [hrun] at hlast
      cases hlast
  · rintro ⟨hsame, hroom, hclash⟩
    obtain ⟨hplain, hlength⟩ := hplain ((injOn_lineId_iff hsha1).mpr hclash)
    obtain ⟨-, after, hrun, hrest, hout⟩ | ⟨hfull, -⟩ := hspec
    · refine ⟨after, hrun, hrest, ?_⟩
      rw [hout, hplain, hsame]
      rfl
    · exact absurd (hlength ▸ hroom) hfull

/-- SHA-1 on the empty line and on the lines `a` and `b`. -/
def sampleDigest (line : Bytes) : Vector UInt8 20 :=
  if line = [] then
    #v[0xda, 0x39, 0xa3, 0xee, 0x5e, 0x6b, 0x4b, 0x0d, 0x32, 0x55, 0xbf, 0xef, 0x95, 0x60, 0x18,
      0x90, 0xaf, 0xd8, 0x07, 0x09]
  else if line = [97] then
    #v[0x86, 0xf7, 0xe4, 0x37, 0xfa, 0xa5, 0xa7, 0xfc, 0xe1, 0x5d, 0x1d, 0xdc, 0xb9, 0xea, 0xea,
      0xea, 0x37, 0x76, 0x67, 0xb8]
  else
    #v[0xe9, 0xd7, 0x1f, 0x5e, 0xe7, 0xc9, 0x2d, 0x6d, 0xc9, 0xe9, 0x2f, 0xfd, 0xad, 0x17, 0xb8,
      0xbd, 0x49, 0x41, 0x8f, 0x98]

theorem deduplicates_sample : ∃ table, deduptblCreate 3 = .ok table ∧
    Deduplicates sampleDigest table [[97], [98], [97]] := by
  have hcreate : ∃ table, deduptblCreate 3 = .ok table := ⟨_, rfl⟩
  obtain ⟨table, htable⟩ := hcreate
  have hkept : keptLines chunksize [[97], [98], [97]] = [[97], [98], [97]] := by
    simp [keptLines, takeFitting, delivered, chunksize]
  refine ⟨table, htable, (deduplicates_iff sampleDigest (by decide) htable _ ?_ ?_).mpr
    ⟨?_, ?_, ?_⟩⟩
  · unfold Fits
    decide
  · intro left hleft right hright heq
    have hall : ∀ left ∈ [[97], [98], [97]], ∀ right ∈ [[97], [98], [97]],
        sampleDigest left = sampleDigest right → left = right := by decide
    exact hall left hleft right hright heq
  · rw [hkept]
  · rw [hkept]
    decide
  · unfold Clash
    decide

/-- A duplicate that arrives when the table is full is an error, and an empty
line at the end of a chunk is lost. -/
theorem duplicate_in_full_table :
    (∃ table, deduptblCreate 1 = .ok table ∧ Fits chunksize [[97], [97]] ∧
      [[97], [97]].eraseDups.length ≤ 1 ∧ ∃ after,
        runLoop sampleDigest ⟨linesInit (fopen (unlines [[97], [97]])), table, []⟩ =
          some (.failure, after)) ∧
    ∃ table, deduptblCreate 2 = .ok table ∧ Fits chunksize [[97], []] ∧
      [[97], []].eraseDups.length ≤ 2 ∧ ∃ after,
        runLoop sampleDigest ⟨linesInit (fopen (unlines [[97], []])), table, []⟩ =
          some (.success, after) ∧ after.out = unlines [[97]] := by
  have hone : ∃ table, deduptblCreate 1 = .ok table := ⟨_, rfl⟩
  have htwo : ∃ table, deduptblCreate 2 = .ok table := ⟨_, rfl⟩
  obtain ⟨small, hsmall⟩ := hone
  obtain ⟨table, htable⟩ := htwo
  constructor
  · have hkept : keptLines chunksize [[97], [97]] = [[97], [97]] := by
      simp [keptLines, takeFitting, delivered, chunksize]
    have hfits : Fits chunksize [[97], [97]] := by
      unfold Fits
      decide
    obtain ⟨hwf, hnmax, hitems⟩ := deduptblCreate_spec hsmall
    have hspec := @runLoop_spec sampleDigest 1 ⟨linesInit (fopen (unlines [[97], [97]])), small, []⟩
      ∅ chunksize _ rfl (reading_linesInit _) hfits ⟨hwf, hnmax, hitems⟩
    rw [hkept, accepts_iff (by decide)] at hspec
    obtain ⟨hroom, -⟩ | ⟨-, after, hrun⟩ := hspec
    · exact absurd hroom (by decide)
    · exact ⟨small, hsmall, hfits, by decide, after, hrun⟩
  · have hkept : keptLines chunksize [[97], []] = [[97]] := by
      simp [keptLines, takeFitting, delivered, chunksize]
    have hfits : Fits chunksize [[97], []] := by
      unfold Fits
      decide
    obtain ⟨hwf, hnmax, hitems⟩ := deduptblCreate_spec htable
    have hspec := @runLoop_spec sampleDigest 2 ⟨linesInit (fopen (unlines [[97], []])), table, []⟩
      ∅ chunksize _ rfl (reading_linesInit _) hfits ⟨hwf, hnmax, hitems⟩
    rw [hkept, accepts_iff (by decide)] at hspec
    obtain ⟨-, after, hrun, -, hout⟩ | ⟨hfull, -⟩ := hspec
    · exact ⟨table, htable, hfits, by decide, after, hrun, hout⟩
    · exact absurd (by decide) hfull

end Yans.Apps.DedupLines
