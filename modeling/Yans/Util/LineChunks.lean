import Yans.Util.Lines
import Mathlib.Data.List.Basic

/-! How the line reader cuts a file of newline-terminated lines: a chunk takes
as many lines as fit into the buffer, and does not hand out its last line if
that is empty. -/
namespace Yans.Util.Lines

open Library.Memory

/-- The longest run of whole lines that fits, and the lines after it. -/
def takeFitting : ℕ → List Bytes → List Bytes × List Bytes
  | _, [] => ([], [])
  | room, line :: lines =>
    if line.length + 1 ≤ room then
      let split := takeFitting (room - (line.length + 1)) lines
      (line :: split.1, split.2)
    else ([], line :: lines)

/-- A chunk without its last line, if that is empty and not the only one. -/
def delivered (chunk : List Bytes) : List Bytes :=
  if chunk.getLast? = some [] ∧ chunk ≠ [[]] then chunk.dropLast else chunk

theorem length_takeFitting_le (lines : List Bytes) :
    ∀ room, (takeFitting room lines).2.length ≤ lines.length := by
  induction lines with
  | nil => intro room; exact le_rfl
  | cons line lines ih =>
    intro room
    rw [takeFitting]
    split
    · exact (ih _).trans (Nat.le_succ _)
    · exact le_rfl

/-- The lines of a file that a reader with a buffer of `cap` bytes hands out. -/
def keptLines (cap : ℕ) : List Bytes → List Bytes
  | [] => []
  | line :: lines =>
    let split := takeFitting (cap - (line.length + 1)) lines
    delivered (line :: split.1) ++ keptLines cap split.2
termination_by lines => lines.length
decreasing_by exact Nat.lt_succ_of_le (length_takeFitting_le _ _)

/-- The first `room` bytes of the lines `now ++ later`. -/
structure Cut (room : ℕ) (now later : List Bytes) (part : Bytes) : Prop where
  take_eq : (unlines (now ++ later)).take room = unlines now ++ part
  drop_eq : part ++ (unlines (now ++ later)).drop room = unlines later
  lf_notMem : lf ∉ part
  fill : later = [] ∧ part = [] ∨
    ∃ next ∈ later, part.length ≤ next.length ∧ (unlines now).length + part.length = room

theorem takeFitting_append (lines : List Bytes) :
    ∀ room, (takeFitting room lines).1 ++ (takeFitting room lines).2 = lines := by
  induction lines with
  | nil => intro room; rfl
  | cons line lines ih =>
    intro room
    rw [takeFitting]
    split
    · dsimp only
      rw [List.cons_append, ih]
    · rfl

variable {room : ℕ} {later now : List Bytes} {part : Bytes}

theorem Cut.cons (cut : Cut room now later part)
    (line : Bytes) : Cut (room + (line.length + 1)) (line :: now) later part := by
  have hall : unlines (line :: now ++ later) = (line ++ [lf]) ++ unlines (now ++ later) := by
    rw [List.cons_append, unlines_cons, List.append_assoc]
    rfl
  have hnow : unlines (line :: now) = (line ++ [lf]) ++ unlines now := by
    rw [unlines_cons, List.append_assoc]
    rfl
  have hlength : room + (line.length + 1) = (line ++ [lf]).length + room := by
    rw [List.length_append, List.length_singleton, Nat.add_comm]
  refine ⟨?_, ?_, cut.lf_notMem, ?_⟩
  · rw [hall, hnow, hlength, List.take_length_add_append, cut.take_eq,
      List.append_assoc (line ++ [lf])]
  · rw [hall, hlength, List.drop_length_add_append, cut.drop_eq]
  · apply cut.fill.imp_right
    rintro ⟨next, hnext, hle, hroom⟩
    refine ⟨next, hnext, hle, ?_⟩
    rw [hnow, hlength, List.length_append]
    omega

theorem cut_takeFitting (lines : List Bytes) (hlines : ∀ line ∈ lines, lf ∉ line) : ∀ room,
    ∃ part, Cut room (takeFitting room lines).1 (takeFitting room lines).2 part := by
  induction lines with
  | nil =>
    intro room
    exact ⟨[], List.take_nil, List.drop_nil, List.not_mem_nil, Or.inl ⟨rfl, rfl⟩⟩
  | cons line lines ih =>
    intro room
    rw [takeFitting]
    split
    · rename_i hfits
      obtain ⟨part, cut⟩ := ih (fun other h => hlines other (List.mem_cons_of_mem line h))
        (room - (line.length + 1))
      have hcons := cut.cons line
      rw [Nat.sub_add_cancel hfits] at hcons
      exact ⟨part, hcons⟩
    · rename_i hfits
      have hline := hlines line List.mem_cons_self
      refine ⟨line.take room, ?_, ?_, fun h => hline (List.mem_of_mem_take h), Or.inr ?_⟩
      · rw [List.nil_append, unlines_cons, List.take_append_of_le_length (by omega)]
        rfl
      · rw [List.nil_append, unlines_cons, List.drop_append_of_le_length (by omega),
          ← List.append_assoc, List.take_append_drop]
      · refine ⟨line, List.mem_cons_self, List.length_take_le' _ _, ?_⟩
        rw [List.length_take]
        change 0 + _ = room
        omega

theorem unlines_concat (lines : List Bytes) (last : Bytes) :
    unlines (lines ++ [last]) = unlines lines ++ last ++ [lf] := by
  simp [unlines]

theorem lastNewline_unlines (hnow : now ≠ [])
    (hpart : lf ∉ part) :
    lastNewline (unlines now ++ part) ((unlines now ++ part).length - 1) =
      (unlines now).length - 1 := by
  obtain ⟨lines, last, rfl⟩ := now.eq_nil_or_concat'.resolve_left hnow
  have hlength : (unlines (lines ++ [last])).length = (unlines lines ++ last).length + 1 := by
    rw [unlines_concat, List.length_append, List.length_singleton]
  apply lastNewline_eq
  · rw [List.length_append]
    omega
  · right
    rw [hlength, Nat.add_sub_cancel, unlines_concat, List.append_assoc (unlines lines ++ last)]
    exact @byteAt_append_right (unlines lines ++ last) ([lf] ++ part) 0
  · intro i hlow hhigh hbyte
    rw [List.length_append] at hhigh
    obtain ⟨j, rfl⟩ : ∃ j, i = (unlines (lines ++ [last])).length + j :=
      ⟨i - (unlines (lines ++ [last])).length, by omega⟩
    rw [byteAt_append_right, byteAt, List.getElem?_eq_getElem (by omega), Option.getD_some] at hbyte
    exact hpart (hbyte ▸ List.getElem_mem _)

theorem linesOf_chunk (hnow : now ≠ [])
    (hlines : ∀ line ∈ now, lf ∉ line) (hpart : lf ∉ part) (hsingle : now = [[]] → part = []) :
    linesOf ((unlines now ++ part).take (chunkEnd (unlines now ++ part))) = delivered now ∧
    (unlines now ++ part).drop (chunkEnd (unlines now ++ part) + 1) = part := by
  by_cases hone : now = [[]]
  · have hempty := hsingle hone
    subst hone hempty
    exact ⟨rfl, rfl⟩
  have hnewline := lastNewline_unlines hnow hpart
  obtain ⟨lines, last, rfl⟩ := now.eq_nil_or_concat'.resolve_left hnow
  have hsome : (unlines lines ++ last).length ≠ 0 := by
    intro hzero
    obtain ⟨hunlines, rfl⟩ := List.append_eq_nil_iff.mp (List.length_eq_zero_iff.mp hzero)
    cases lines with
    | nil => exact hone rfl
    | cons line lines =>
      rw [unlines_cons] at hunlines
      exact List.append_ne_nil_of_right_ne_nil line (List.cons_ne_nil _ _) hunlines
  have hend : chunkEnd (unlines (lines ++ [last]) ++ part) = (unlines lines ++ last).length := by
    rw [chunkEnd, hnewline, unlines_concat, List.length_append, List.length_singleton,
      Nat.add_sub_cancel]
    exact if_neg hsome
  rw [hend, unlines_concat, List.append_assoc (unlines lines ++ last)]
  constructor
  · have hkept : ∀ line ∈ lines, lf ∉ line := fun line h => hlines line (List.mem_append_left _ h)
    rw [List.take_left, linesOf_unlines_append hkept, linesOf_line (hlines last (by simp)),
      delivered, List.getLast?_concat, List.dropLast_concat]
    by_cases hlast : last = []
    · rw [if_pos hlast, if_pos ⟨by rw [hlast], hone⟩, List.append_nil]
    · rw [if_neg hlast, if_neg fun h => hlast (Option.some.inj h.1)]
  · rw [List.drop_length_add_append]
    rfl

def Fits (cap : ℕ) (lines : List Bytes) : Prop :=
  ∀ line ∈ lines, lf ∉ line ∧ 2 * line.length < cap

/-- The reader between two chunks, with `lines` still to come. -/
structure Reading (ctx : LinesCtx) (lines : List Bytes) : Prop where
  sized : Sized ctx
  pending_eq : pending ctx = unlines lines
  lf_notMem : lf ∉ leftover ctx
  unbroken : ctx.fp.broken = false
  eof : feof ctx.fp = true → lines = []

theorem reading_linesInit (lines : List Bytes) :
    Reading (linesInit (fopen (unlines lines))) lines where
  sized := sized_linesInit _
  pending_eq := by
    rw [pending, leftover, slice]
    rfl
  lf_notMem := by
    rw [leftover, slice]
    exact List.not_mem_nil
  unbroken := rfl
  eof h := absurd h (by simp [feof, linesInit, fopen])

variable {ctx : LinesCtx}

theorem Reading.follows {after : LinesCtx} {lines : List Bytes} (h : Reading ctx lines)
    (hfollows : Follows ctx after) : Reading after lines where
  sized := hfollows.sized
  pending_eq := by rw [pending, hfollows.leftover_eq, hfollows.fp_eq, ← h.pending_eq, pending]
  lf_notMem := by rw [hfollows.leftover_eq]; exact h.lf_notMem
  unbroken := by rw [hfollows.fp_eq]; exact h.unbroken
  eof := by rw [hfollows.fp_eq]; exact h.eof

theorem Reading.done (h : Reading ctx []) :
    ∃ after, linesNextChunk ctx = (.ok, after) ∧ after.fp.rest = [] :=
  h.sized.linesNextChunk_none (List.append_eq_nil_iff.mp h.pending_eq).2 h.unbroken

theorem Cut.length_eq (cut : Cut room now later part) :
    min room (unlines (now ++ later)).length = (unlines now).length + part.length := by
  rw [← List.length_take, cut.take_eq, List.length_append]

theorem Cut.short
    (cut : Cut room now later part) (h : (unlines (now ++ later)).length < room) : later = [] := by
  have hlength := cut.length_eq
  obtain ⟨hlater, -⟩ | ⟨next, -, -, hroom⟩ := cut.fill
  · exact hlater
  · omega

theorem Cut.single (cut : Cut room [[]] later part)
    (hlater : Fits room later) : part = [] := by
  obtain ⟨-, hpart⟩ | ⟨next, hnext, hle, hroom⟩ := cut.fill
  · exact hpart
  · have hshort := (hlater next hnext).2
    have hone : (unlines [[]]).length = 1 := rfl
    exact List.length_eq_zero_iff.mp (by omega)

theorem Reading.next {line : Bytes} {lines : List Bytes}
    (h : Reading ctx (line :: lines)) (hfits : Fits ctx.cap (line :: lines))
    (hsplit : takeFitting (ctx.cap - (line.length + 1)) lines = (now, later)) :
    ∃ after, linesNextChunk ctx = (.continue, after) ∧
      linesOf (unread after) = delivered (line :: now) ∧ after.end_ ≤ after.len ∧
      after.cap = ctx.cap ∧ Reading after later := by
  have hfree : ∀ other ∈ line :: lines, lf ∉ other := fun other hmem => (hfits other hmem).1
  have hline := (hfits line List.mem_cons_self).2
  have happend : now ++ later = lines := by
    have hall := takeFitting_append lines (ctx.cap - (line.length + 1))
    rwa [hsplit] at hall
  obtain ⟨part, cut⟩ := cut_takeFitting lines (fun other hmem => hfree other (by simp [hmem]))
    (ctx.cap - (line.length + 1))
  have hcut := cut.cons line
  rw [hsplit, Nat.sub_add_cancel (by omega)] at hcut
  have hopen : feof ctx.fp = false := by
    cases hfeof : feof ctx.fp with
    | false => rfl
    | true => exact absurd (h.eof hfeof) (List.cons_ne_nil _ _)
  have hrest : ctx.fp.rest ≠ [] := by
    -- the incomplete line in the buffer has no newline, the file does
    intro hnil
    have hpending := h.pending_eq
    rw [pending, hnil, List.append_nil, unlines_cons] at hpending
    exact h.lf_notMem (by rw [hpending]; simp)
  obtain ⟨after, hrun, chunk⟩ := h.sized.linesNextChunk_continue hopen hrest
  have htext : (pending ctx).take ctx.cap = unlines (line :: now) ++ part := by
    rw [h.pending_eq, ← happend, ← List.cons_append, hcut.take_eq]
  rw [htext] at chunk
  have hsingle : line :: now = [[]] → part = [] := by
    intro hone
    rw [hone] at hcut
    exact hcut.single fun other hmem => hfits other (by simp [← happend, hmem])
  obtain ⟨hlines, hdrop⟩ := linesOf_chunk (List.cons_ne_nil line now)
    (fun other hmem => hfree other (by
      rw [← happend]
      exact List.mem_append_left later hmem)) hcut.lf_notMem hsingle
  have hleftover : leftover after = part := by rw [chunk.leftover_eq, hdrop]
  refine ⟨after, hrun, by rw [chunk.unread_eq, hlines], chunk.end_le, chunk.cap_eq, chunk.sized,
    ?_, hleftover ▸ hcut.lf_notMem, chunk.broken_eq.trans h.unbroken, ?_⟩
  · rw [pending, hleftover, chunk.rest_eq, h.pending_eq, ← hcut.drop_eq, List.cons_append, happend]
  · intro heof
    apply hcut.short
    rw [feof, h.unbroken, Bool.not_false, Bool.and_true] at hopen
    rw [feof, chunk.short_eq, hopen, Bool.false_or, Bool.and_eq_true, decide_eq_true_eq,
      h.pending_eq, ← happend] at heof
    exact heof.1

end Yans.Util.Lines
