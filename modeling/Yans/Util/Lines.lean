import Yans.Library.Memory
import Mathlib.Data.List.TakeWhile

/-! `lib/util/lines.c`: a reader that takes a file in chunks and hands out the
lines of each chunk in place. Pointers into the chunk are offsets. -/
namespace Yans.Util.Lines

open Library.Memory

/-- A stream as `fread` sees it: the bytes that are left, whether they end in a
read error, and whether a read came short. Reads are full except at the end. -/
structure File where
  rest : Bytes
  broken : Bool
  short : Bool

def feof (fp : File) : Bool := fp.short && !fp.broken

def ferror (fp : File) : Bool := fp.short && fp.broken

def fread (fp : File) (n : ℕ) : Bytes × File :=
  (fp.rest.take n,
    { fp with rest := fp.rest.drop n, short := fp.short || decide (fp.rest.length < n) })

def fopen (bytes : Bytes) : File := ⟨bytes, false, false⟩

inductive LinesCode where
  | continue
  | ok
  | eread
deriving DecidableEq

/-- `data` has room for `cap` bytes and a terminator. -/
structure LinesCtx where
  fp : File
  cap : ℕ
  len : ℕ
  end_ : ℕ
  lineoff : ℕ
  data : Bytes

/-- `LINES_CHUNKSIZE` -/
def chunksize : ℕ := 1024 * 512

/-- What `malloc` leaves in the chunk buffer is never read; here it is zeros. -/
def linesInit (fp : File) : LinesCtx where
  fp := fp
  cap := chunksize
  len := 0
  end_ := 0
  lineoff := 0
  data := List.replicate (chunksize + 1) 0

def lf : UInt8 := 10

/-- The loop for the end of the last complete line, which does not look at the
first byte. -/
def lastNewline (data : Bytes) : ℕ → ℕ
  | 0 => 0
  | i + 1 => if byteAt data (i + 1) = lf then i + 1 else lastNewline data i

/-- Move what follows the last complete line to the front of the buffer. -/
def movePartial (ctx : LinesCtx) : LinesCtx :=
  if ctx.end_ < ctx.len then
    let len := ctx.len - (ctx.end_ + 1)
    let data := write ctx.data 0 (slice ctx.data (ctx.end_ + 1) len)
    { ctx with data := write data len [0], len := len }
  else { ctx with data := write ctx.data 0 [0], len := 0 }

def linesNextChunk (ctx : LinesCtx) : LinesCode × LinesCtx :=
  if feof ctx.fp then (.ok, ctx)
  else
    let ctx := movePartial ctx
    let (bytes, fp) := fread ctx.fp (ctx.cap - ctx.len)
    let data := write ctx.data ctx.len bytes
    if bytes.length = 0 then
      (if ferror fp then .eread else .ok, { ctx with fp := fp, data := data })
    else
      let len := ctx.len + bytes.length
      let data := write data len [0]
      let i := lastNewline data (len - 1)
      (.continue,
        { ctx with
          fp := fp
          data := data
          len := len
          end_ := if i = 0 then len else i
          lineoff := 0 })

/-- The loop for the next newline, over the `n` bytes from `i` on. -/
def nextNewline (data : Bytes) : ℕ → ℕ → ℕ
  | 0, i => i
  | n + 1, i => if byteAt data i = lf then i else nextNewline data n (i + 1)

/-- The offset and length of the next line of the chunk; `none` is `LINES_OK`. -/
def linesNext (ctx : LinesCtx) : Option (ℕ × ℕ) × LinesCtx :=
  if ctx.lineoff ≥ ctx.end_ then (none, ctx)
  else
    let i := nextNewline ctx.data (ctx.end_ - ctx.lineoff) ctx.lineoff
    (some (ctx.lineoff, i - ctx.lineoff),
      { ctx with data := write ctx.data i [0], lineoff := i + 1 })

theorem le_nextNewline (data : Bytes) (n : ℕ) : ∀ i, i ≤ nextNewline data n i := by
  induction n with
  | zero =>
    intro i
    exact le_rfl
  | succ n ih =>
    intro i
    rw [nextNewline]
    split
    · exact le_rfl
    · exact (Nat.le_succ i).trans (ih (i + 1))

theorem linesNext_fp (ctx : LinesCtx) : (linesNext ctx).2.fp = ctx.fp := by
  unfold linesNext
  split <;> rfl

variable {after : LinesCtx}

variable {ctx : LinesCtx}

theorem linesNext_progress {line : ℕ × ℕ}
    (h : linesNext ctx = (some line, after)) :
    after.end_ - after.lineoff < ctx.end_ - ctx.lineoff := by
  unfold linesNext at h
  split at h
  · cases h
  · have hle := le_nextNewline ctx.data (ctx.end_ - ctx.lineoff) ctx.lineoff
    cases h
    dsimp only
    omega

theorem linesNextChunk_progress (h : linesNextChunk ctx = (.continue, after)) :
    after.fp.rest.length < ctx.fp.rest.length := by
  have hfp : (movePartial ctx).fp = ctx.fp := by
    unfold movePartial
    split <;> rfl
  unfold linesNextChunk at h
  split at h
  · cases h
  · dsimp only [fread] at h
    rw [hfp] at h
    split at h
    · split at h <;> cases h
    · rename_i hsome
      cases h
      rw [List.length_take] at hsome
      rw [List.length_drop]
      omega

/-! The chunk that a call leaves in the buffer -/

def leftover (ctx : LinesCtx) : Bytes :=
  slice ctx.data (ctx.end_ + 1) (ctx.len - (ctx.end_ + 1))

/-- The bytes of the chunk that no line was made of so far. -/
def unread (ctx : LinesCtx) : Bytes :=
  slice ctx.data ctx.lineoff (ctx.end_ - ctx.lineoff)

def chunkEnd (text : Bytes) : ℕ :=
  let i := lastNewline text (text.length - 1)
  if i = 0 then text.length else i

structure Sized (ctx : LinesCtx) : Prop where
  cap_pos : 0 < ctx.cap
  length_data : ctx.data.length = ctx.cap + 1
  len_le : ctx.len ≤ ctx.cap

theorem sized_linesInit (fp : File) : Sized (linesInit fp) :=
  ⟨(by decide : 0 < chunksize), List.length_replicate, Nat.zero_le _⟩

namespace Sized

theorem length_leftover (h : Sized ctx) :
    (leftover ctx).length = ctx.len - (ctx.end_ + 1) := by
  have hlen := h.len_le
  rw [leftover, length_slice, h.length_data]
  omega

theorem length_leftover_lt (h : Sized ctx) : (leftover ctx).length < ctx.cap := by
  have hpos := h.cap_pos
  have hlen := h.len_le
  rw [h.length_leftover]
  omega

theorem movePartial (h : Sized ctx) : ∃ data : Bytes, data.length = ctx.cap + 1 ∧
    slice data 0 (leftover ctx).length = leftover ctx ∧
    movePartial ctx = { ctx with data := data, len := (leftover ctx).length } := by
  have hpos := h.cap_pos
  have hlen := h.len_le
  have hdata := h.length_data
  have hleftover := h.length_leftover
  unfold Lines.movePartial
  split
  · rename_i hlt
    have hmoved : 0 + (leftover ctx).length ≤ ctx.data.length := by omega
    have hfits : ctx.len - (ctx.end_ + 1) + [(0 : UInt8)].length ≤
        (write ctx.data 0 (leftover ctx)).length := by
      rw [length_write hmoved, List.length_singleton]
      omega
    refine ⟨write (write ctx.data 0 (leftover ctx)) (ctx.len - (ctx.end_ + 1)) [0], ?_, ?_, ?_⟩
    · rw [length_write hfits, length_write hmoved, hdata]
    · rw [slice_write_of_disjoint hfits (Or.inl (by omega)), slice_write_self hmoved]
    · rw [hleftover]
      rfl
  · rename_i hge
    have hempty : (leftover ctx).length = 0 := by omega
    have hfits : 0 + [(0 : UInt8)].length ≤ ctx.data.length := by
      rw [List.length_singleton]
      omega
    refine ⟨write ctx.data 0 [0], ?_, ?_, ?_⟩
    · rw [length_write hfits, hdata]
    · rw [List.length_eq_zero_iff.mp hempty]
      rfl
    · rw [hempty]

end Sized

theorem lastNewline_congr {left right : Bytes} {m : ℕ}
    (h : ∀ i, i ≤ m → byteAt left i = byteAt right i) : lastNewline left m = lastNewline right m := by
  induction m with
  | zero => rfl
  | succ m ih =>
    rw [lastNewline, lastNewline, h (m + 1) le_rfl, ih fun i hi => h i (by omega)]

variable {data : Bytes}

theorem lastNewline_eq {k m : ℕ} (hle : k ≤ m)
    (hnewline : k = 0 ∨ byteAt data k = lf) (hafter : ∀ i, k < i → i ≤ m → byteAt data i ≠ lf) :
    lastNewline data m = k := by
  induction m with
  | zero => exact (Nat.le_zero.mp hle).symm
  | succ m ih =>
    rw [lastNewline]
    by_cases hk : k = m + 1
    · subst hk
      rw [if_pos (hnewline.resolve_left (Nat.succ_ne_zero m))]
    · rw [if_neg (hafter (m + 1) (by omega) le_rfl)]
      exact ih (by omega) fun i hi him => hafter i hi (by omega)

theorem lastNewline_le (data : Bytes) (m : ℕ) : lastNewline data m ≤ m := by
  induction m with
  | zero => exact le_rfl
  | succ m ih =>
    rw [lastNewline]
    split
    · exact le_rfl
    · exact ih.trans (Nat.le_succ m)

theorem chunkEnd_le (text : Bytes) : chunkEnd text ≤ text.length := by
  have hle := lastNewline_le text (text.length - 1)
  unfold chunkEnd
  dsimp only
  split
  · exact le_rfl
  · omega

variable {text : Bytes}

theorem lastNewline_of_slice (h : slice data 0 text.length = text) :
    lastNewline data (text.length - 1) = lastNewline text (text.length - 1) := by
  by_cases htext : text.length = 0
  · rw [htext]
    rfl
  · apply lastNewline_congr
    intro i hi
    have hbyte : text[i]? = data[i]? := by
      rw [← h, getElem?_slice, if_pos (by omega), Nat.zero_add]
    rw [byteAt, byteAt, hbyte]

/-- The bytes that the file and the incomplete line in the buffer still hold. -/
def pending (ctx : LinesCtx) : Bytes := leftover ctx ++ ctx.fp.rest

/-- The state after a chunk of `text` was read. -/
structure Chunk (ctx after : LinesCtx) (text : Bytes) : Prop where
  sized : Sized after
  cap_eq : after.cap = ctx.cap
  rest_eq : after.fp.rest = (pending ctx).drop ctx.cap
  broken_eq : after.fp.broken = ctx.fp.broken
  short_eq : after.fp.short = (ctx.fp.short || decide ((pending ctx).length < ctx.cap))
  len_eq : after.len = text.length
  end_eq : after.end_ = chunkEnd text
  lineoff_eq : after.lineoff = 0
  data_eq : slice after.data 0 text.length = text

theorem Chunk.end_le (chunk : Chunk ctx after text) :
    after.end_ ≤ after.len := by
  rw [chunk.end_eq, chunk.len_eq]
  exact chunkEnd_le text

theorem Chunk.unread_eq (chunk : Chunk ctx after text) :
    unread after = text.take (chunkEnd text) := by
  have hdata : after.data.take text.length = text := chunk.data_eq
  rw [unread, chunk.lineoff_eq, chunk.end_eq, slice, List.drop_zero, Nat.sub_zero]
  conv => rhs; rw [← hdata]
  rw [List.take_take, Nat.min_eq_left (by rw [hdata]; exact chunkEnd_le text), hdata]

theorem Chunk.leftover_eq (chunk : Chunk ctx after text) :
    leftover after = text.drop (chunkEnd text + 1) := by
  have hdata : after.data.take text.length = text := chunk.data_eq
  rw [leftover, chunk.end_eq, chunk.len_eq, slice, ← List.drop_take, hdata]

namespace Sized

theorem linesNextChunk_none (h : Sized ctx) (hrest : ctx.fp.rest = [])
    (hbroken : ctx.fp.broken = false) :
    ∃ after, linesNextChunk ctx = (.ok, after) ∧ after.fp.rest = [] := by
  unfold linesNextChunk
  split
  · exact ⟨ctx, rfl, hrest⟩
  · obtain ⟨data, -, -, hmove⟩ := h.movePartial
    simp only [hmove, fread, hrest, List.take_nil, List.length_nil, if_true, ferror, hbroken,
      Bool.and_false, List.drop_nil]
    exact ⟨_, rfl, rfl⟩

theorem linesNextChunk_continue (h : Sized ctx) (hopen : feof ctx.fp = false)
    (hrest : ctx.fp.rest ≠ []) :
    ∃ after, linesNextChunk ctx = (.continue, after) ∧
      Chunk ctx after ((pending ctx).take ctx.cap) := by
  have hlt := h.length_leftover_lt
  obtain ⟨data, hdata, hfront, hmove⟩ := h.movePartial
  set front := leftover ctx
  set bytes := ctx.fp.rest.take (ctx.cap - front.length) with hbytes
  have hsome : bytes.length ≠ 0 := by
    have hpos := List.length_pos_iff.mpr hrest
    rw [hbytes, List.length_take]
    omega
  have htext : (pending ctx).take ctx.cap = front ++ bytes := by
    rw [pending, List.take_append, List.take_of_length_le hlt.le]
  have hfits : front.length + bytes.length ≤ data.length := by
    rw [hbytes, List.length_take, hdata]
    omega
  have hterminated : front.length + bytes.length + [(0 : UInt8)].length ≤
      (write data front.length bytes).length := by
    rw [length_write hfits, hdata, List.length_singleton, hbytes, List.length_take]
    omega
  set final := write (write data front.length bytes) (front.length + bytes.length) [0] with hfinal
  have hslice : slice final 0 (front ++ bytes).length = front ++ bytes := by
    have hsplit : slice (write data front.length bytes) 0 (front.length + bytes.length) =
        front ++ bytes := by
      have htake : data.take front.length = front := hfront
      rw [slice, List.drop_zero, write, htake, ← List.length_append, List.take_left]
    rw [hfinal, List.length_append, slice_write_of_disjoint hterminated (Or.inl (by omega)), hsplit]
  unfold linesNextChunk
  rw [hopen, if_neg (by decide), hmove]
  dsimp only [fread]
  rw [← hbytes, if_neg hsome]
  refine ⟨_, rfl, ?_⟩
  rw [htext]
  refine ⟨⟨h.cap_pos, ?_, ?_⟩, rfl, ?_, rfl, ?_, ?_, ?_, rfl, ?_⟩
  · rw [length_write hterminated, length_write hfits, hdata]
  · have hcap : bytes.length ≤ ctx.cap - front.length := List.length_take_le _ _
    dsimp only
    omega
  · rw [pending, List.drop_append, List.drop_of_length_le hlt.le, List.nil_append]
  · have hshort : ctx.fp.rest.length < ctx.cap - front.length ↔ (pending ctx).length < ctx.cap := by
      change _ ↔ (front ++ ctx.fp.rest).length < ctx.cap
      rw [List.length_append]
      omega
    rw [decide_eq_decide.mpr hshort]
  · rw [List.length_append]
  · rw [chunkEnd, ← lastNewline_of_slice hslice, List.length_append]
  · exact hslice

end Sized

/-- A text cut at its newlines; what follows the last one is a line too, unless
it is empty. -/
def linesOf : Bytes → List Bytes
  | [] => []
  | ch :: text =>
    if ch = lf then [] :: linesOf text
    else
      match linesOf text with
      | [] => [[ch]]
      | line :: lines => (ch :: line) :: lines

def unlines (lines : List Bytes) : Bytes := lines.flatMap (· ++ [lf])

def firstLine (text : Bytes) : Bytes := text.takeWhile (· ≠ lf)

theorem linesOf_eq (h : text ≠ []) :
    linesOf text = firstLine text :: linesOf (text.drop ((firstLine text).length + 1)) := by
  induction text with
  | nil => contradiction
  | cons ch text ih =>
    rw [linesOf]
    by_cases hch : ch = lf
    · have hfirst : firstLine (ch :: text) = [] := by
        rw [firstLine, List.takeWhile_cons_of_neg (by simp [hch])]
      rw [if_pos hch, hfirst]
      rfl
    · have hfirst : firstLine (ch :: text) = ch :: firstLine text := by
        rw [firstLine, List.takeWhile_cons_of_pos (by simp [hch])]
        rfl
      rw [if_neg hch, hfirst, List.length_cons, List.drop_succ_cons]
      by_cases htext : text = []
      · subst htext
        rfl
      · rw [ih htext]

variable {line : Bytes}

theorem firstLine_append (hline : lf ∉ line) :
    firstLine (line ++ lf :: text) = line := by
  have hall : ∀ ch ∈ line, decide (ch ≠ lf) = true := by
    intro ch hch
    exact decide_eq_true fun h => hline (h ▸ hch)
  rw [firstLine, List.takeWhile_append_of_pos hall, List.takeWhile_cons_of_neg (by simp),
    List.append_nil]

theorem linesOf_append (hline : lf ∉ line) :
    linesOf (line ++ lf :: text) = line :: linesOf text := by
  have hdrop : (line ++ lf :: text).drop (line.length + 1) = text := by
    rw [List.drop_append]
    simp
  rw [linesOf_eq (by simp), firstLine_append hline, hdrop]

theorem linesOf_line (hline : lf ∉ line) :
    linesOf line = if line = [] then [] else [line] := by
  split
  · rename_i h
    rw [h]
    rfl
  · rename_i h
    have hall : ∀ ch ∈ line, decide (ch ≠ lf) = true := by
      intro ch hch
      exact decide_eq_true fun heq => hline (heq ▸ hch)
    have hfirst : firstLine line = line := List.takeWhile_eq_self_iff.mpr hall
    rw [linesOf_eq h, hfirst, List.drop_of_length_le (Nat.le_succ _)]
    rfl

theorem unlines_cons (line : Bytes) (lines : List Bytes) :
    unlines (line :: lines) = line ++ lf :: unlines lines := by
  rw [unlines, List.flatMap_cons, List.append_assoc]
  rfl

theorem unlines_append (left right : List Bytes) :
    unlines (left ++ right) = unlines left ++ unlines right :=
  List.flatMap_append

theorem linesOf_unlines_append {lines : List Bytes} (hlines : ∀ line ∈ lines, lf ∉ line)
    (text : Bytes) : linesOf (unlines lines ++ text) = lines ++ linesOf text := by
  induction lines with
  | nil => rfl
  | cons line lines ih =>
    rw [unlines_cons, List.append_assoc, List.cons_append,
      linesOf_append (hlines line List.mem_cons_self),
      ih fun other h => hlines other (List.mem_cons_of_mem line h), List.cons_append]

/-! The lines that the calls hand out -/

theorem slice_succ {i : ℕ} (h : i < data.length) (n : ℕ) :
    slice data i (n + 1) = byteAt data i :: slice data (i + 1) n := by
  have hbyte : byteAt data i = data[i] := by
    rw [byteAt, List.getElem?_eq_getElem h, Option.getD_some]
  rw [slice, slice, List.drop_eq_getElem_cons h, List.take_succ_cons, hbyte]

theorem nextNewline_eq (n : ℕ) : ∀ {i : ℕ}, i + n ≤ data.length →
    nextNewline data n i = i + (firstLine (slice data i n)).length := by
  induction n with
  | zero =>
    intro i _
    rw [nextNewline, slice, List.take_zero]
    rfl
  | succ n ih =>
    intro i hfits
    rw [nextNewline, slice_succ (by omega), firstLine]
    split
    · rename_i hch
      rw [List.takeWhile_cons_of_neg (by simp [hch]), List.length_nil, Nat.add_zero]
    · rename_i hch
      rw [List.takeWhile_cons_of_pos (by simp [hch]), ih (by omega), List.length_cons, firstLine]
      omega

theorem length_firstLine_le (text : Bytes) : (firstLine text).length ≤ text.length :=
  (List.takeWhile_sublist _).length_le

theorem take_firstLine (text : Bytes) : text.take (firstLine text).length = firstLine text :=
  (List.prefix_iff_eq_take.mp (List.takeWhile_prefix _)).symm

structure Follows (ctx after : LinesCtx) : Prop where
  sized : Sized after
  fp_eq : after.fp = ctx.fp
  cap_eq : after.cap = ctx.cap
  len_eq : after.len = ctx.len
  end_eq : after.end_ = ctx.end_
  leftover_eq : leftover after = leftover ctx

theorem Follows.refl (h : Sized ctx) : Follows ctx ctx :=
  ⟨h, rfl, rfl, rfl, rfl, rfl⟩

theorem Follows.trans {a b c : LinesCtx} (hab : Follows a b) (hbc : Follows b c) : Follows a c :=
  ⟨hbc.sized, hbc.fp_eq.trans hab.fp_eq, hbc.cap_eq.trans hab.cap_eq, hbc.len_eq.trans hab.len_eq,
    hbc.end_eq.trans hab.end_eq, hbc.leftover_eq.trans hab.leftover_eq⟩

theorem linesNext_none (h : Sized ctx) (hend : ctx.end_ ≤ ctx.len)
    (hunread : unread ctx = []) : linesNext ctx = (none, ctx) := by
  have hlength : (unread ctx).length = 0 := by rw [hunread, List.length_nil]
  have hdata := h.length_data
  have hlen := h.len_le
  rw [unread, length_slice] at hlength
  exact if_pos (by omega)

theorem linesNext_some (h : Sized ctx) (hend : ctx.end_ ≤ ctx.len)
    (hunread : unread ctx ≠ []) : ∃ after,
      linesNext ctx = (some (ctx.lineoff, (firstLine (unread ctx)).length), after) ∧
      slice after.data ctx.lineoff (firstLine (unread ctx)).length = firstLine (unread ctx) ∧
      unread after = (unread ctx).drop ((firstLine (unread ctx)).length + 1) ∧
      Follows ctx after := by
  have hdata := h.length_data
  have hlen := h.len_le
  have hlength : (unread ctx).length = ctx.end_ - ctx.lineoff := by
    rw [unread, length_slice]
    omega
  have hpos := List.length_pos_iff.mpr hunread
  have hle := length_firstLine_le (unread ctx)
  set line := firstLine (unread ctx) with hline
  have hscan : nextNewline ctx.data (ctx.end_ - ctx.lineoff) ctx.lineoff =
      ctx.lineoff + line.length := nextNewline_eq _ (by omega)
  have hfits : ctx.lineoff + line.length + [(0 : UInt8)].length ≤ ctx.data.length := by
    rw [List.length_singleton]
    omega
  unfold linesNext
  rw [if_neg (by omega), hscan]
  dsimp only
  rw [Nat.add_sub_cancel_left]
  refine ⟨_, rfl, ?_, ?_, ⟨⟨h.cap_pos, ?_, h.len_le⟩, rfl, rfl, rfl, rfl, ?_⟩⟩
  · dsimp only
    rw [slice_write_of_disjoint hfits (Or.inl le_rfl)]
    have htake : slice ctx.data ctx.lineoff line.length = (unread ctx).take line.length := by
      rw [unread, slice, slice, List.take_take, Nat.min_eq_left (by omega)]
    rw [htake, hline, take_firstLine]
  · have hdrop : (unread ctx).drop (line.length + 1) =
        slice ctx.data (ctx.lineoff + line.length + 1)
          (ctx.end_ - (ctx.lineoff + line.length + 1)) := by
      rw [unread, slice, slice, List.drop_take, List.drop_drop, Nat.add_assoc]
      congr 1
      omega
    rw [hdrop, unread]
    exact slice_write_of_disjoint hfits (Or.inr (by simp))
  · rw [length_write hfits, hdata]
  · rw [leftover, leftover]
    exact slice_write_of_disjoint hfits (Or.inr (by simp; omega))

end Yans.Util.Lines
