import Yans.Util.Lines
import Mathlib.Data.List.Sublists

/-! The whole iteration over the lines of a file, of any bytes, and which lines
get lost on the way. -/
namespace Yans.Util.LineDelivery

open Library.Memory Lines

/-- The calls of `lines_next` on one chunk, with the lines they hand out. -/
def chunkLines (ctx : LinesCtx) : List Bytes × LinesCtx :=
  match _hnext : linesNext ctx with
  | (none, ctx) => ([], ctx)
  | (some (off, len), after) =>
    let (lines, last) := chunkLines after
    (slice after.data off len :: lines, last)
termination_by ctx.end_ - ctx.lineoff
decreasing_by exact linesNext_progress _hnext

theorem chunkLines_fp (ctx : LinesCtx) : (chunkLines ctx).2.fp = ctx.fp := by
  fun_induction chunkLines ctx with
  | case1 ctx after hnext =>
    have hfp := linesNext_fp ctx
    rwa [hnext] at hfp
  | case2 ctx off len after hnext lines last hrest ih =>
    have hfp := linesNext_fp ctx
    rw [hnext] at hfp
    rw [hrest] at ih
    exact ih.trans hfp

/-- The calls of `lines_next_chunk` until there is none to go on with, with the
lines of all chunks. -/
def allLines (ctx : LinesCtx) : LinesCode × List Bytes :=
  match _hchunk : linesNextChunk ctx with
  | (.continue, after) =>
    let (code, lines) := allLines (chunkLines after).2
    (code, (chunkLines after).1 ++ lines)
  | (.ok, _) => (.ok, [])
  | (.eread, _) => (.eread, [])
termination_by ctx.fp.rest.length
decreasing_by
  rw [chunkLines_fp]
  exact linesNextChunk_progress _hchunk

def readLines (input : Bytes) : LinesCode × List Bytes := allLines (linesInit (fopen input))

variable {ctx : LinesCtx}

theorem chunkLines_spec (h : Sized ctx) (hend : ctx.end_ ≤ ctx.len) :
    (chunkLines ctx).1 = linesOf (unread ctx) ∧ Follows ctx (chunkLines ctx).2 := by
  fun_induction chunkLines ctx with
  | case1 ctx after hnext =>
    have hunread : unread ctx = [] := by
      by_contra hne
      obtain ⟨other, hsome, -⟩ := linesNext_some h hend hne
      rw [hnext] at hsome
      cases hsome
    rw [linesNext_none h hend hunread] at hnext
    cases hnext
    rw [hunread]
    exact ⟨rfl, Follows.refl h⟩
  | case2 ctx off len after hnext lines last hrest ih =>
    have hunread : unread ctx ≠ [] := by
      intro hnil
      rw [linesNext_none h hend hnil] at hnext
      cases hnext
    obtain ⟨other, hsome, hslice, hleft, hfollows⟩ := linesNext_some h hend hunread
    rw [hnext] at hsome
    cases hsome
    rw [hrest] at ih
    have hend' : after.end_ ≤ after.len := by
      rw [hfollows.end_eq, hfollows.len_eq]
      exact hend
    obtain ⟨hlines, hlast⟩ := ih hfollows.sized hend'
    refine ⟨?_, hfollows.trans hlast⟩
    rw [linesOf_eq hunread, hslice, ← hleft]
    exact congrArg _ hlines

theorem allLines_continue {after : LinesCtx} (h : linesNextChunk ctx = (.continue, after)) :
    allLines ctx = ((allLines (chunkLines after).2).1,
      (chunkLines after).1 ++ (allLines (chunkLines after).2).2) := by
  rw [allLines]
  split <;> rename_i heq <;> rw [h] at heq <;> cases heq
  rfl

theorem allLines_ok {after : LinesCtx} (h : linesNextChunk ctx = (.ok, after)) :
    allLines ctx = (.ok, []) := by
  rw [allLines]
  split <;> rename_i heq <;> rw [h] at heq <;> cases heq

/-! ### Lines of a text that is cut at a newline -/

theorem exists_unlines (text : Bytes) : ∃ lines tail, text = unlines lines ++ tail ∧
    (∀ line ∈ lines, lf ∉ line) ∧ lf ∉ tail := by
  induction text with
  | nil => exact ⟨[], [], rfl, List.forall_mem_nil _, List.not_mem_nil⟩
  | cons ch text ih =>
    obtain ⟨lines, tail, rfl, hlines, htail⟩ := ih
    by_cases hch : ch = lf
    · refine ⟨[] :: lines, tail, by rw [unlines_cons, hch]; rfl, ?_, htail⟩
      rw [List.forall_mem_cons]
      exact ⟨List.not_mem_nil, hlines⟩
    · have hfree : ∀ {line : Bytes}, lf ∉ line → lf ∉ ch :: line := by
        intro line hline
        rw [List.mem_cons, not_or]
        exact ⟨Ne.symm hch, hline⟩
      cases lines with
      | nil => exact ⟨[], ch :: tail, rfl, List.forall_mem_nil _, hfree htail⟩
      | cons line lines =>
        obtain ⟨hline, hlines⟩ := List.forall_mem_cons.mp hlines
        refine ⟨(ch :: line) :: lines, tail, by rw [unlines_cons, unlines_cons]; rfl, ?_, htail⟩
        rw [List.forall_mem_cons]
        exact ⟨hfree hline, hlines⟩

variable {text : Bytes}

theorem linesOf_eq_nil_iff : linesOf text = [] ↔ text = [] := by
  constructor
  · intro h
    by_contra hne
    rw [linesOf_eq hne] at h
    cases h
  · rintro rfl
    rfl

theorem linesOf_append_lf (front text : Bytes) :
    linesOf (front ++ lf :: text) = linesOf (front ++ [lf]) ++ linesOf text := by
  obtain ⟨lines, tail, rfl, hlines, htail⟩ := exists_unlines front
  rw [List.append_assoc, linesOf_unlines_append hlines, linesOf_append htail, List.append_assoc,
    linesOf_unlines_append hlines, linesOf_append htail, List.append_assoc]
  rfl

theorem linesOf_concat_lf (front : Bytes) :
    linesOf (front ++ [lf]) = linesOf front ++
      if front = [] ∨ front.getLast? = some lf then [[]] else [] := by
  obtain ⟨lines, tail, rfl, hlines, htail⟩ := exists_unlines front
  have hlast : (unlines lines ++ tail = [] ∨ (unlines lines ++ tail).getLast? = some lf) ↔
      tail = [] := by
    constructor
    · intro h
      by_contra hne
      cases h with
      | inl hnil => exact hne (List.append_eq_nil_iff.mp hnil).2
      | inr hlf =>
        rw [List.getLast?_append_of_ne_nil _ hne] at hlf
        exact htail (List.mem_of_getLast? hlf)
    · rintro rfl
      rw [List.append_nil]
      obtain rfl | ⟨front, last, rfl⟩ := lines.eq_nil_or_concat'
      · exact Or.inl rfl
      · right
        rw [unlines_append, unlines_cons]
        simp [unlines]
  rw [List.append_assoc, linesOf_unlines_append hlines, linesOf_append htail,
    linesOf_unlines_append hlines, linesOf_line htail, List.append_assoc]
  simp only [hlast]
  split
  · rename_i h
    rw [h]
    rfl
  · rfl

theorem append_eq_append_iff_of_sublist {α : Type*} {a b c d : List α} (h : a.Sublist b)
    (h' : c.Sublist d) : a ++ c = b ++ d ↔ a = b ∧ c = d := by
  constructor
  · intro heq
    have hlength := congrArg List.length heq
    rw [List.length_append, List.length_append] at hlength
    have hle := h.length_le
    have hle' := h'.length_le
    exact ⟨h.eq_of_length (by omega), h'.eq_of_length (by omega)⟩
  · rintro ⟨rfl, rfl⟩
    rfl

theorem text_split {k : ℕ} (hk : k < text.length) (hlf : byteAt text k = lf) :
    text = text.take k ++ lf :: text.drop (k + 1) := by
  have hbyte : text[k] = lf := by
    rw [← hlf, byteAt, List.getElem?_eq_getElem hk, Option.getD_some]
  rw [← hbyte, ← List.drop_eq_getElem_cons hk, List.take_append_drop]

theorem linesOf_take_eq_iff {k : ℕ} (hpos : 0 < k) (hk : k ≤ text.length) :
    linesOf (text.take k) = linesOf (text.take k ++ [lf]) ↔ byteAt text (k - 1) ≠ lf := by
  have hne : text.take k ≠ [] := by
    rw [← List.length_pos_iff, List.length_take]
    omega
  have hlast : (text.take k).getLast? = some (byteAt text (k - 1)) := by
    rw [List.getLast?_eq_getElem?, List.length_take, min_eq_left hk, List.getElem?_take,
      if_pos (by omega), byteAt, List.getElem?_eq_getElem (by omega), Option.getD_some]
  rw [linesOf_concat_lf, hlast]
  by_cases hlf : byteAt text (k - 1) = lf
  · rw [if_pos (Or.inr (congrArg some hlf))]
    simp [hlf]
  · rw [if_neg (by rw [not_or]; exact ⟨hne, fun h => hlf (Option.some.inj h)⟩), List.append_nil]
    exact iff_of_true rfl hlf

theorem linesOf_take_sublist (text : Bytes) (k : ℕ) :
    (linesOf (text.take k)).Sublist (linesOf (text.take k ++ [lf])) := by
  rw [linesOf_concat_lf]
  exact List.sublist_append_left _ _

/-- The last newline of a window behind its first byte; zero if there is none. -/
def lastFeed (window : Bytes) : ℕ := lastNewline window (window.length - 1)

/-- A text is read in windows of `cap` bytes, each from behind the last newline
of the one before on. No window ends with an empty line, unless its only newline
is its first byte; and the last one ends with a newline, unless it has none
behind its first byte. -/
inductive KeepsLines (cap : ℕ) : Bytes → Prop where
  | last {text : Bytes} (hfits : text.length ≤ cap)
      (hend : lastFeed text = 0 ∨
        byteAt text (lastFeed text - 1) ≠ lf ∧ lastFeed text + 1 = text.length) :
      KeepsLines cap text
  | more {text : Bytes} (hlong : cap < text.length)
      (hline : byteAt text (lastFeed (text.take cap) - 1) ≠ lf)
      (hrest : KeepsLines cap (text.drop (lastFeed (text.take cap) + 1))) : KeepsLines cap text

theorem lastNewline_spec (data : Bytes) (m : ℕ) :
    (lastNewline data m = 0 ∨ byteAt data (lastNewline data m) = lf) ∧
      ∀ i, lastNewline data m < i → i ≤ m → byteAt data i ≠ lf := by
  induction m with
  | zero => exact ⟨Or.inl rfl, fun i hlt hle => by omega⟩
  | succ m ih =>
    rw [lastNewline]
    split
    · rename_i hlf
      exact ⟨Or.inr hlf, fun i hlt hle => by omega⟩
    · rename_i hnot
      refine ⟨ih.1, fun i hlt hle => ?_⟩
      obtain hle | rfl := Nat.le_succ_iff.mp hle
      · exact ih.2 i hlt hle
      · exact hnot

theorem lastFeed_spec (window : Bytes) :
    (lastFeed window = 0 ∨ byteAt window (lastFeed window) = lf) ∧
      ∀ i, lastFeed window < i → i < window.length → byteAt window i ≠ lf := by
  obtain ⟨hlf, hnone⟩ := lastNewline_spec window (window.length - 1)
  exact ⟨hlf, fun i hlt hi => hnone i hlt (by omega)⟩

theorem lastFeed_lt {window : Bytes} (h : window ≠ []) : lastFeed window < window.length := by
  have hle := lastNewline_le window (window.length - 1)
  have hpos := List.length_pos_iff.mpr h
  unfold lastFeed
  omega

theorem chunkEnd_eq (window : Bytes) :
    chunkEnd window = if lastFeed window = 0 then window.length else lastFeed window := rfl

def Short (cap : ℕ) (text : Bytes) : Prop := ∀ line ∈ linesOf text, 2 * line.length < cap

theorem le_length_firstLine (n : ℕ) : ∀ text : Bytes, n ≤ text.length →
    (∀ i, i < n → byteAt text i ≠ lf) → n ≤ (firstLine text).length := by
  induction n with
  | zero => exact fun _ _ _ => Nat.zero_le _
  | succ n ih =>
    intro text hn h
    cases text with
    | nil => exact absurd hn (Nat.not_succ_le_zero n)
    | cons ch text =>
      have hch : ch ≠ lf := h 0 (Nat.succ_pos n)
      rw [firstLine, List.takeWhile_cons_of_pos (by simp [hch]), List.length_cons]
      apply Nat.succ_le_succ
      exact ih text (Nat.le_of_succ_le_succ hn) fun i hi => h (i + 1) (Nat.succ_lt_succ hi)

variable {cap : ℕ}

theorem lastFeed_pos (hcap : 2 ≤ cap) (hshort : Short cap text)
    (hlong : cap ≤ text.length) : 0 < lastFeed (text.take cap) := by
  by_contra hzero
  have hwindow : (text.take cap).length = cap := List.length_take_of_le hlong
  have hnone : ∀ i, 0 < i → i < cap → byteAt text i ≠ lf := by
    intro i hpos hi
    have hbyte := (lastFeed_spec (text.take cap)).2 i (by omega) (by omega)
    rwa [byteAt_take, if_pos hi] at hbyte
  obtain ⟨ch, text, rfl⟩ := List.exists_cons_of_length_pos (Nat.lt_of_lt_of_le (by omega) hlong)
  rw [List.length_cons] at hlong
  by_cases hch : ch = lf
  · have hne : text ≠ [] := by
      rw [← List.length_pos_iff]
      omega
    have hline : firstLine text ∈ linesOf (ch :: text) := by
      rw [linesOf, if_pos hch, linesOf_eq hne]
      exact List.mem_cons_of_mem _ List.mem_cons_self
    have hlength := le_length_firstLine (cap - 1) text (by omega) fun i hi =>
      hnone (i + 1) (Nat.succ_pos i) (by omega)
    have := hshort _ hline
    omega
  · have hline : firstLine (ch :: text) ∈ linesOf (ch :: text) := by
      rw [linesOf_eq (List.cons_ne_nil ch text)]
      exact List.mem_cons_self
    have hlength := le_length_firstLine cap (ch :: text) hlong fun i hi => by
      cases i with
      | zero => exact hch
      | succ i => exact hnone (i + 1) (Nat.succ_pos i) hi
    have := hshort _ hline
    omega

/-- The reader between two chunks, with `text` still to come. -/
structure Ready (cap : ℕ) (ctx : LinesCtx) (text : Bytes) : Prop where
  sized : Sized ctx
  cap_eq : ctx.cap = cap
  pending_eq : pending ctx = text
  unbroken : ctx.fp.broken = false
  short_eq : ctx.fp.short = false
  rest : text ≠ [] → ctx.fp.rest ≠ []

theorem ready_linesInit (text : Bytes) : Ready chunksize (linesInit (fopen text)) text where
  sized := sized_linesInit _
  cap_eq := rfl
  pending_eq := by
    rw [pending, leftover, slice]
    rfl
  unbroken := rfl
  short_eq := rfl
  rest h := h

theorem Ready.next (h : Ready cap ctx text)
    (htext : text ≠ []) : ∃ after, Sized after ∧ after.cap = cap ∧
      after.fp.rest = text.drop cap ∧ after.fp.broken = false ∧
      after.fp.short = decide (text.length < cap) ∧
      leftover after = (text.take cap).drop (chunkEnd (text.take cap) + 1) ∧
      allLines ctx = ((allLines after).1,
        linesOf ((text.take cap).take (chunkEnd (text.take cap))) ++ (allLines after).2) := by
  have hopen : feof ctx.fp = false := by rw [feof, h.short_eq, Bool.false_and]
  obtain ⟨mid, hrun, chunk⟩ := h.sized.linesNextChunk_continue hopen (h.rest htext)
  rw [h.pending_eq, h.cap_eq] at chunk
  obtain ⟨hlines, hfollows⟩ := chunkLines_spec chunk.sized chunk.end_le
  refine ⟨(chunkLines mid).2, hfollows.sized, ?_, ?_, ?_, ?_, ?_, ?_⟩
  · rw [hfollows.cap_eq, chunk.cap_eq, h.cap_eq]
  · rw [hfollows.fp_eq, chunk.rest_eq, h.pending_eq, h.cap_eq]
  · rw [hfollows.fp_eq, chunk.broken_eq, h.unbroken]
  · rw [hfollows.fp_eq, chunk.short_eq, h.short_eq, Bool.false_or, h.pending_eq, h.cap_eq]
  · rw [hfollows.leftover_eq, chunk.leftover_eq]
  · rw [allLines_continue hrun, hlines, chunk.unread_eq]

theorem lines_cut {k : ℕ} (hpos : 0 < k) (hk : k < text.length)
    (hlf : byteAt text k = lf) {later : List Bytes}
    (hlater : later.Sublist (linesOf (text.drop (k + 1)))) :
    (linesOf (text.take k) ++ later).Sublist (linesOf text) ∧
      (linesOf (text.take k) ++ later = linesOf text ↔
        byteAt text (k - 1) ≠ lf ∧ later = linesOf (text.drop (k + 1))) := by
  have hlines : linesOf text = linesOf (text.take k ++ [lf]) ++ linesOf (text.drop (k + 1)) := by
    rw [← linesOf_append_lf, ← text_split hk hlf]
  rw [hlines, append_eq_append_iff_of_sublist (linesOf_take_sublist text k) hlater,
    linesOf_take_eq_iff hpos hk.le]
  exact ⟨(linesOf_take_sublist text k).append hlater, Iff.rfl⟩

theorem Ready.last (h : Ready cap ctx text)
    (hfits : text.length ≤ cap) :
    ∃ lines, allLines ctx = (.ok, lines) ∧ lines.Sublist (linesOf text) ∧
      (lines = linesOf text ↔
        lastFeed text = 0 ∨
          byteAt text (lastFeed text - 1) ≠ lf ∧ lastFeed text + 1 = text.length) := by
  by_cases htext : text = []
  · subst htext
    have hrest : ctx.fp.rest = [] := (List.append_eq_nil_iff.mp h.pending_eq).2
    obtain ⟨after, hrun, -⟩ := h.sized.linesNextChunk_none hrest h.unbroken
    exact ⟨[], allLines_ok hrun, List.nil_sublist _, iff_of_true rfl (Or.inl rfl)⟩
  obtain ⟨after, hsized, -, hrest, hbroken, -, -, hall⟩ := h.next htext
  have hwindow : text.take cap = text := List.take_of_length_le hfits
  rw [List.drop_of_length_le hfits] at hrest
  obtain ⟨done, hrun, -⟩ := hsized.linesNextChunk_none hrest hbroken
  rw [hwindow, allLines_ok hrun] at hall
  refine ⟨_, hall, ?_⟩
  have hlt := lastFeed_lt htext
  by_cases hzero : lastFeed text = 0
  · rw [chunkEnd_eq, if_pos hzero, List.take_length, List.append_nil]
    exact ⟨List.Sublist.refl _, iff_of_true rfl (Or.inl hzero)⟩
  · have hlf := (lastFeed_spec text).1.resolve_left hzero
    rw [chunkEnd_eq, if_neg hzero]
    obtain ⟨hsublist, hiff⟩ := lines_cut (Nat.pos_of_ne_zero hzero) hlt hlf
      (List.nil_sublist (linesOf (text.drop (lastFeed text + 1))))
    refine ⟨hsublist, hiff.trans ?_⟩
    rw [eq_comm, linesOf_eq_nil_iff, List.drop_eq_nil_iff, or_iff_right hzero]
    apply and_congr_right
    intro _
    omega

theorem Ready.more (hcap : 2 ≤ cap)
    (h : Ready cap ctx text) (hshort : Short cap text) (hlong : cap < text.length) :
    ∃ after, Ready cap after (text.drop (lastFeed (text.take cap) + 1)) ∧
      allLines ctx = ((allLines after).1,
        linesOf (text.take (lastFeed (text.take cap))) ++ (allLines after).2) := by
  have htext : text ≠ [] := by
    rw [← List.length_pos_iff]
    omega
  obtain ⟨after, hsized, hcapEq, hrest, hbroken, hshortEq, hleftover, hall⟩ := h.next htext
  have hpos := lastFeed_pos hcap hshort hlong.le
  have hwindow : (text.take cap).length = cap := List.length_take_of_le hlong.le
  have hlt : lastFeed (text.take cap) < (text.take cap).length := lastFeed_lt (by
    rw [← List.length_pos_iff]
    omega)
  rw [chunkEnd_eq, if_neg hpos.ne'] at hleftover hall
  rw [List.take_take, min_eq_left (by omega)] at hall
  refine ⟨after, ⟨hsized, hcapEq, ?_, hbroken, ?_, fun _ => ?_⟩, hall⟩
  · have hsplit : text.drop (lastFeed (text.take cap) + 1) =
        (text.take cap ++ text.drop cap).drop (lastFeed (text.take cap) + 1) := by
      rw [List.take_append_drop]
    rw [pending, hleftover, hrest, hsplit, List.drop_append_of_le_length (by omega)]
  · rw [hshortEq, decide_eq_false_iff_not]
    omega
  · rw [hrest, ← List.length_pos_iff, List.length_drop]
    omega

/-- What the reader hands out of a text are lines of it, and they are all of its
lines just if it keeps them. The induction is on the length of the text. -/
theorem allLines_spec (hcap : 2 ≤ cap) (n : ℕ) : ∀ (text : Bytes) (ctx : LinesCtx),
    text.length = n → Short cap text → Ready cap ctx text →
      ∃ lines, allLines ctx = (.ok, lines) ∧ lines.Sublist (linesOf text) ∧
        (lines = linesOf text ↔ KeepsLines cap text) := by
  induction n using Nat.strong_induction_on with
  | h n ih =>
    intro text ctx hn hshort h
    by_cases hlong : cap < text.length
    · obtain ⟨after, hafter, hall⟩ := h.more hcap hshort hlong
      have hpos := lastFeed_pos hcap hshort hlong.le
      have hwindow : (text.take cap).length = cap := List.length_take_of_le hlong.le
      have hlt : lastFeed (text.take cap) < (text.take cap).length := lastFeed_lt (by
        rw [← List.length_pos_iff]
        omega)
      have hlf : byteAt text (lastFeed (text.take cap)) = lf := by
        have hbyte := (lastFeed_spec (text.take cap)).1.resolve_left hpos.ne'
        rwa [byteAt_take, if_pos (by omega)] at hbyte
      have hsplit := text_split (by omega) hlf
      have hshort' : Short cap (text.drop (lastFeed (text.take cap) + 1)) := by
        intro line hline
        apply hshort
        rw [hsplit, linesOf_append_lf]
        exact List.mem_append_right _ hline
      obtain ⟨later, hlater, hsublist, hiff⟩ := ih _ (by rw [List.length_drop]; omega) _ after rfl
        hshort' hafter
      obtain ⟨hsublist', hiff'⟩ := lines_cut hpos (by omega) hlf hsublist
      rw [hlater] at hall
      refine ⟨_, hall, hsublist', hiff'.trans ?_⟩
      rw [hiff]
      constructor
      · rintro ⟨hline, hrest⟩
        exact .more hlong hline hrest
      · intro hkeeps
        cases hkeeps with
        | last hfits => omega
        | more _ hline hrest => exact ⟨hline, hrest⟩
    · obtain ⟨lines, hlines, hsublist, hiff⟩ := h.last (Nat.not_lt.mp hlong)
      refine ⟨lines, hlines, hsublist, hiff.trans ?_⟩
      constructor
      · exact .last (Nat.not_lt.mp hlong)
      · intro hkeeps
        cases hkeeps with
        | last _ hend => exact hend
        | more hlong' => exact absurd hlong' hlong

/-- The reader delivers exactly the lines of its input if and only if no window
ends with an empty line and nothing follows the last newline of the last window,
the first byte of a window apart. Otherwise it leaves lines out. -/
theorem every_line_iff {input : Bytes} (hshort : Short chunksize input) :
    (readLines input = (.ok, linesOf input) ↔ KeepsLines chunksize input) ∧
      ∃ lines, readLines input = (.ok, lines) ∧ lines.Sublist (linesOf input) := by
  obtain ⟨lines, hlines, hsublist, hiff⟩ := allLines_spec (by decide) input.length input _ rfl
    hshort (ready_linesInit input)
  refine ⟨?_, lines, hlines, hsublist⟩
  rw [readLines, hlines, Prod.mk.injEq, and_iff_right rfl]
  exact hiff

/-- Two lines, the first of them empty. -/
theorem every_line_of_two : readLines [10, 97, 10] = (.ok, [[], [97]]) :=
  (@every_line_iff [10, 97, 10] (by unfold Short; decide)).1.mpr
    (.last (by decide) (by decide))

theorem not_keepsLines (hfits : text.length ≤ chunksize)
    (hend : ¬ (lastFeed text = 0 ∨
      byteAt text (lastFeed text - 1) ≠ lf ∧ lastFeed text + 1 = text.length)) :
    ¬ KeepsLines chunksize text := by
  intro hkeeps
  cases hkeeps with
  | last _ hkept => exact hend hkept
  | more hlong => omega

/-- An empty line at the end is lost, and so is a last line without a newline. -/
theorem last_line_lost :
    (linesOf [97, 10, 10] = [[97], []] ∧ readLines [97, 10, 10] ≠ (.ok, linesOf [97, 10, 10])) ∧
      linesOf [97, 10, 98] = [[97], [98]] ∧
        readLines [97, 10, 98] ≠ (.ok, linesOf [97, 10, 98]) := by
  have hlost : ∀ {input : Bytes}, Short chunksize input → ¬ KeepsLines chunksize input →
      readLines input ≠ (.ok, linesOf input) := by
    intro input hshort hnot heq
    obtain ⟨lines, hlines, -, hiff⟩ := allLines_spec (by decide) input.length input _ rfl hshort
      (ready_linesInit input)
    rw [readLines, hlines, Prod.mk.injEq] at heq
    exact hnot (hiff.mp heq.2)
  exact ⟨⟨by decide, hlost (by unfold Short; decide) (not_keepsLines (by decide) (by decide))⟩,
    by decide, hlost (by unfold Short; decide) (not_keepsLines (by decide) (by decide))⟩

end Yans.Util.LineDelivery
