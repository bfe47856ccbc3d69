import Mathlib.Data.List.TakeWhile
import Yans.Util.Buf

/-! `lib/util/csv.c`: the writer that quotes a column where it has to, and the
reader of one row. A stream is the bytes that are still to be read from it, and
reading it does not fail. Columns are the strings a `char *` stands for; `none`
is NULL. -/
namespace Yans.Util.Csv

open Library.Memory

def quote : UInt8 := 34
def comma : UInt8 := 44
def cr : UInt8 := 13
def lf : UInt8 := 10

/-- The loop of `csv_encode_escaped`. -/
def escapeLoop (buf : Buf) : Bytes → Buf
  | [] => buf
  | ch :: s => escapeLoop (if ch = quote then buf.adata [quote, quote] else buf.achar ch) s

def csvEncodeEscaped (buf : Buf) (s : Bytes) : Buf :=
  (escapeLoop (buf.achar quote) s).achar quote

/-- A byte of the set that `strcspn` looks for. -/
def IsSpecial (ch : UInt8) : Prop := ch = cr ∨ ch = lf ∨ ch = quote ∨ ch = comma

instance (ch : UInt8) : Decidable (IsSpecial ch) := inferInstanceAs (Decidable (_ ∨ _))

/-- `strcspn` with the bytes that need quoting. -/
def strcspn (s : Bytes) : ℕ := (s.takeWhile fun ch => ¬ IsSpecial ch).length

/-- A column of `csv_encode`, behind its separator. -/
def encodeColumn (dst : Buf) : Option Bytes → Buf
  | none => dst
  | some col =>
    if byteAt col 0 = 0 then dst
    else
      let off := strcspn col
      if byteAt col off = 0 then dst.adata (col.take off) else csvEncodeEscaped dst col

/-- The loop of `csv_encode` from column `i` on. -/
def encodeColumns (dst : Buf) (i : ℕ) : List (Option Bytes) → Buf
  | [] => dst
  | col :: cols =>
    let dst := if i ≠ 0 then dst.achar comma else dst
    encodeColumns (encodeColumn dst col) (i + 1) cols

def csvEncode (dst : Buf) (cols : List (Option Bytes)) : Buf :=
  let dst := encodeColumns dst 0 cols
  if cols.length > 0 then dst.adata [cr, lf] else dst

/-- The columns of a row one after the other, and their offsets as words. -/
structure CsvReader where
  data : Buf
  cols : Buf

def csvReaderInit : CsvReader := ⟨Buf.init 4096, Buf.init 512⟩

def csvReaderNelems (r : CsvReader) : ℕ := r.cols.len / 8

def csvReaderElem (r : CsvReader) (i : ℕ) : Option ℕ :=
  if i ≥ csvReaderNelems r then none else some (readWord 8 r.cols.data (8 * i))

/-- After a carriage return: a line feed belongs to it, any other byte is put
back. -/
def skipLf : Bytes → Bytes
  | [] => []
  | ch :: rest => if ch = lf then rest else ch :: rest

/-- The loop of `read_escaped`; the first result says whether the row goes on. -/
def escapedLoop : Bytes → Buf → Bool × Bytes × Buf
  | [], data => (false, [], data)
  | ch :: rest, data =>
    if ch = quote then
      match rest with
      | [] => (false, [], data)
      | ch :: rest =>
        if ch = comma then (true, rest, data)
        else if ch = cr then (false, skipLf rest, data)
        else if ch = lf then (false, rest, data)
        -- the second of two quotes, like any other byte, is the text
        else escapedLoop rest (data.achar ch)
    else escapedLoop rest (data.achar ch)

/-- The loop of `read_unescaped`. -/
def unescapedLoop : Bytes → Buf → Bool × Bytes × Buf
  | [], data => (false, [], data)
  | ch :: rest, data =>
    if ch = cr then (false, skipLf rest, data)
    else if ch = lf then (false, rest, data)
    else if ch = comma then (true, rest, data)
    else unescapedLoop rest (data.achar ch)

/-- A column that started at `off` ends here. -/
def endColumn (r : CsvReader) (data : Buf) (off : ℕ) : CsvReader :=
  ⟨data.achar 0, r.cols.adata (littleEndian 8 off)⟩

def readEscaped (r : CsvReader) (input : Bytes) : Bool × Bytes × CsvReader :=
  let (cont, rest, data) := escapedLoop input r.data
  (cont, rest, endColumn r data r.data.len)

def readUnescaped (r : CsvReader) (input : Bytes) : Bool × Bytes × CsvReader :=
  let (cont, rest, data) := unescapedLoop input r.data
  (cont, rest, endColumn r data r.data.len)

def readEmpty (r : CsvReader) : CsvReader := endColumn r r.data r.data.len

theorem length_skipLf_le (rest : Bytes) : (skipLf rest).length ≤ rest.length := by
  unfold skipLf
  split
  · exact le_rfl
  · split
    · exact Nat.le_succ _
    · exact le_rfl

theorem length_escapedLoop_le (input : Bytes) (data : Buf) :
    (escapedLoop input data).2.1.length ≤ input.length := by
  fun_induction escapedLoop input data with
  | case4 => exact (length_skipLf_le _).trans (by simp; omega)
  | _ => simp_all <;> omega

theorem length_unescapedLoop_le (input : Bytes) (data : Buf) :
    (unescapedLoop input data).2.1.length ≤ input.length - 1 := by
  fun_induction unescapedLoop input data with
  | case2 => exact length_skipLf_le _
  | _ => simp_all <;> omega

variable {r : CsvReader} {input : Bytes}

theorem readEscaped_length_le {after : CsvReader} {rest : Bytes} {cont : Bool}
    (h : readEscaped r input = (cont, rest, after)) : rest.length ≤ input.length := by
  have hle := length_escapedLoop_le input r.data
  unfold readEscaped at h
  simp only [Prod.mk.injEq] at h
  rwa [h.2.1] at hle

theorem readUnescaped_length_le {after : CsvReader} {ch : UInt8} {rest : Bytes}
    {cont : Bool} (h : readUnescaped r (ch :: input) = (cont, rest, after)) :
    rest.length ≤ input.length := by
  have hle := length_unescapedLoop_le (ch :: input) r.data
  unfold readUnescaped at h
  simp only [Prod.mk.injEq] at h
  rwa [h.2.1] at hle

/-- The loop of `csv_read_row`. -/
def rowLoop (lastsep : Bool) (r : CsvReader) (input : Bytes) : CsvReader × Bytes :=
  match input with
  | [] => (if lastsep then readEmpty r else r, [])
  | ch :: rest =>
    if ch = cr then (if lastsep then readEmpty r else r, skipLf rest)
    else if ch = lf then (if lastsep then readEmpty r else r, rest)
    else if ch = quote then
      match _hread : readEscaped r rest with
      | (false, rest, r) => (r, rest)
      | (true, rest, r) => rowLoop true r rest
    else if ch = comma then rowLoop true (readEmpty r) rest
    else
      match _hread : readUnescaped r (ch :: rest) with
      | (false, rest, r) => (r, rest)
      | (true, rest, r) => rowLoop true r rest
termination_by input.length
decreasing_by
  · exact Nat.lt_succ_of_le (readEscaped_length_le _hread)
  · exact Nat.lt_succ_self _
  · exact Nat.lt_succ_of_le (readUnescaped_length_le _hread)

theorem length_rowLoop_le (lastsep : Bool) (r : CsvReader) (input : Bytes) :
    (rowLoop lastsep r input).2.length ≤ input.length - 1 := by
  fun_induction rowLoop lastsep r input with
  | case1 => exact Nat.le_refl 0
  | case2 => exact length_skipLf_le _
  | case3 => exact Nat.le_refl _
  | case4 _ _ _ _ _ hread => exact readEscaped_length_le hread
  | case5 _ _ _ _ _ hread _ _ ih =>
    have hle := readEscaped_length_le hread
    rw [List.length_cons]
    omega
  | case6 _ _ _ _ _ _ ih =>
    rw [List.length_cons]
    omega
  | case7 _ _ _ _ _ _ _ _ _ _ hread => exact readUnescaped_length_le hread
  | case8 _ _ _ _ _ _ _ _ _ _ hread ih =>
    have hle := readUnescaped_length_le hread
    rw [List.length_cons]
    omega

def csvReadRow (r : CsvReader) (input : Bytes) : CsvReader × Bytes :=
  rowLoop false ⟨r.data.clear, r.cols.clear⟩ input

theorem length_csvReadRow_lt (r : CsvReader) (h : input ≠ []) :
    (csvReadRow r input).2.length < input.length := by
  have hle := length_rowLoop_le false ⟨r.data.clear, r.cols.clear⟩ input
  have hpos := List.length_pos_iff.mpr h
  unfold csvReadRow
  omega

def escape (s : Bytes) : Bytes := s.flatMap fun ch => if ch = quote then [quote, quote] else [ch]

def columnText (col : Bytes) : Bytes :=
  if ∀ ch ∈ col, ¬ IsSpecial ch then col else [quote] ++ escape col ++ [quote]

/-- The columns behind the first one, up to the end of the row. -/
def moreText (cols : List Bytes) : Bytes :=
  cols.flatMap (fun col => comma :: columnText col) ++ [cr, lf]

def rowText : List Bytes → Bytes
  | [] => []
  | col :: cols => columnText col ++ moreText cols

theorem contents_escapeLoop (s : Bytes) :
    ∀ buf : Buf, (escapeLoop buf s).contents = buf.contents ++ escape s := by
  induction s with
  | nil => exact fun buf => (List.append_nil _).symm
  | cons ch s ih =>
    intro buf
    have hcons : escape (ch :: s) = (if ch = quote then [quote, quote] else [ch]) ++ escape s := rfl
    rw [escapeLoop, ih, hcons]
    split
    · rw [Buf.contents_adata, List.append_assoc]
    · rw [Buf.contents_achar, List.append_assoc]

theorem strcspn_of_plain {s : Bytes} (h : ∀ ch ∈ s, ¬ IsSpecial ch) : strcspn s = s.length := by
  unfold strcspn
  rw [List.takeWhile_eq_self_iff.mpr (by simpa using h)]

theorem byteAt_length (s : Bytes) : byteAt s s.length = 0 := by
  unfold byteAt
  rw [List.getElem?_eq_none le_rfl]
  rfl

theorem byteAt_strcspn {s : Bytes} (h : ¬ ∀ ch ∈ s, ¬ IsSpecial ch) :
    byteAt s (strcspn s) ≠ 0 := by
  induction s with
  | nil => exact absurd (by simp) h
  | cons ch s ih =>
    by_cases hspecial : IsSpecial ch
    · have hzero : strcspn (ch :: s) = 0 := by
        unfold strcspn
        rw [List.takeWhile_cons_of_neg (by simpa using hspecial)]
        rfl
      rw [hzero]
      rintro rfl
      exact absurd hspecial (by decide)
    · have hsucc : strcspn (ch :: s) = strcspn s + 1 := by
        unfold strcspn
        rw [List.takeWhile_cons_of_pos (by simpa using hspecial)]
        rfl
      rw [hsucc]
      apply ih
      intro hall
      apply h
      intro other hother
      obtain rfl | hother := List.mem_cons.mp hother
      · exact hspecial
      · exact hall other hother

theorem contents_encodeColumn {dst : Buf} {col : Option Bytes}
    (hcol : ∀ s, col = some s → ∀ ch ∈ s, ch ≠ 0) :
    (encodeColumn dst col).contents = dst.contents ++ columnText (col.getD []) := by
  cases col with
  | none => exact (List.append_nil _).symm
  | some s =>
    have hs := hcol s rfl
    unfold encodeColumn columnText
    rw [Option.getD_some]
    dsimp only
    split
    · rename_i hfirst
      cases s with
      | nil => exact (List.append_nil _).symm
      | cons ch s => exact absurd hfirst (hs ch List.mem_cons_self)
    · by_cases hplain : ∀ ch ∈ s, ¬ IsSpecial ch
      · rw [strcspn_of_plain hplain, if_pos (byteAt_length s), if_pos hplain, List.take_length,
          Buf.contents_adata]
      · rw [if_neg (byteAt_strcspn hplain), if_neg hplain, csvEncodeEscaped, Buf.contents_achar,
          contents_escapeLoop, Buf.contents_achar, List.append_assoc, List.append_assoc,
          List.append_assoc]

theorem contents_encodeColumns {cols : List (Option Bytes)} :
    ∀ {dst : Buf} {i : ℕ}, i ≠ 0 → (∀ col ∈ cols, ∀ s, col = some s → ∀ ch ∈ s, ch ≠ 0) →
      (encodeColumns dst i cols).contents =
        dst.contents ++ (cols.map (·.getD [])).flatMap fun col => comma :: columnText col := by
  induction cols with
  | nil => exact fun _ _ => (List.append_nil _).symm
  | cons col cols ih =>
    intro dst i hi hcols
    rw [encodeColumns, if_pos hi, ih (Nat.succ_ne_zero i) fun other hother =>
        hcols other (List.mem_cons_of_mem _ hother),
      contents_encodeColumn (hcols col List.mem_cons_self), Buf.contents_achar, List.map_cons,
      List.flatMap_cons, List.append_assoc, List.append_assoc]
    rfl

theorem contents_csvEncode {dst : Buf} {cols : List (Option Bytes)}
    (hcols : ∀ col ∈ cols, ∀ s, col = some s → ∀ ch ∈ s, ch ≠ 0) :
    (csvEncode dst cols).contents = dst.contents ++ rowText (cols.map (·.getD [])) := by
  cases cols with
  | nil => exact (List.append_nil _).symm
  | cons col cols =>
    unfold csvEncode
    rw [if_pos (by simp), Buf.contents_adata, encodeColumns, if_neg (fun h => h rfl), contents_encodeColumns (by decide) fun other hother =>
        hcols other (List.mem_cons_of_mem _ hother),
      contents_encodeColumn (hcols col List.mem_cons_self), List.append_assoc, List.append_assoc]
    rfl

def push (r : CsvReader) (col : Bytes) : CsvReader :=
  endColumn r (col.foldl Buf.achar r.data) r.data.len

theorem escapedLoop_escape (s : Bytes) : ∀ (more : Bytes) (data : Buf),
    escapedLoop (escape s ++ more) data = escapedLoop more (s.foldl Buf.achar data) := by
  induction s with
  | nil => exact fun _ _ => rfl
  | cons ch s ih =>
    intro more data
    rw [escape, List.flatMap_cons, List.append_assoc, List.foldl_cons, ← ih]
    by_cases hquote : ch = quote
    · rw [if_pos hquote, hquote]
      rfl
    · rw [if_neg hquote, List.singleton_append, escapedLoop.eq_def]
      dsimp only
      rw [if_neg hquote]
      rfl

theorem unescapedLoop_plain {s : Bytes} (h : ∀ ch ∈ s, ¬ IsSpecial ch) :
    ∀ (more : Bytes) (data : Buf),
      unescapedLoop (s ++ more) data = unescapedLoop more (s.foldl Buf.achar data) := by
  induction s with
  | nil => exact fun _ _ => rfl
  | cons ch s ih =>
    intro more data
    have hch := h ch List.mem_cons_self
    unfold IsSpecial at hch
    simp only [not_or] at hch
    rw [List.cons_append, unescapedLoop, if_neg hch.1, if_neg hch.2.1, if_neg hch.2.2.2,
      List.foldl_cons]
    exact ih (fun other hother => h other (List.mem_cons_of_mem _ hother)) more _

theorem readEscaped_escape {r : CsvReader} {col tail rest : Bytes} {cont : Bool}
    (htail : ∀ data, escapedLoop (quote :: tail) data = (cont, rest, data)) :
    readEscaped r (escape col ++ [quote] ++ tail) = (cont, rest, push r col) := by
  unfold readEscaped
  rw [List.append_assoc, List.singleton_append, escapedLoop_escape, htail]
  rfl

theorem readUnescaped_plain {r : CsvReader} {col tail rest : Bytes} {cont : Bool}
    (hcol : ∀ ch ∈ col, ¬ IsSpecial ch)
    (htail : ∀ data, unescapedLoop tail data = (cont, rest, data)) :
    readUnescaped r (col ++ tail) = (cont, rest, push r col) := by
  unfold readUnescaped
  rw [unescapedLoop_plain hcol, htail]
  rfl

theorem rowLoop_column {lastsep cont : Bool} {r : CsvReader} {col tail rest : Bytes}
    (hcol : col ≠ [])
    (hescaped : ∀ data, escapedLoop (quote :: tail) data = (cont, rest, data))
    (hplain : ∀ data, unescapedLoop tail data = (cont, rest, data)) :
    rowLoop lastsep r (columnText col ++ tail) =
      if cont then rowLoop true (push r col) rest else (push r col, rest) := by
  unfold columnText
  split
  · rename_i hall
    obtain ⟨ch, s, rfl⟩ := List.exists_cons_of_ne_nil hcol
    have hch := hall ch List.mem_cons_self
    have hread := @readUnescaped_plain r (ch :: s) tail rest cont hall hplain
    unfold IsSpecial at hch
    simp only [not_or] at hch
    rw [List.cons_append] at hread ⊢
    rw [rowLoop]
    rw [if_neg hch.1, if_neg hch.2.1, if_neg hch.2.2.1, if_neg hch.2.2.2]
    split
    · rename_i hcall
      rw [hread] at hcall
      cases hcall
      rfl
    · rename_i hcall
      rw [hread] at hcall
      cases hcall
      rfl
  · have hread := @readEscaped_escape r col tail rest cont hescaped
    rw [List.append_assoc, List.append_assoc, List.singleton_append, rowLoop,
      ← List.append_assoc]
    rw [if_neg (by decide), if_neg (by decide), if_pos rfl]
    split
    · rename_i hcall
      rw [hread] at hcall
      cases hcall
      rfl
    · rename_i hcall
      rw [hread] at hcall
      cases hcall
      rfl

theorem rowLoop_comma (lastsep : Bool) (r : CsvReader) (col rest : Bytes) :
    rowLoop lastsep r (columnText col ++ comma :: rest) = rowLoop true (push r col) rest := by
  by_cases hcol : col = []
  · subst hcol
    rw [show columnText [] ++ comma :: rest = comma :: rest from rfl, rowLoop,
      if_neg (by decide), if_neg (by decide), if_neg (by decide), if_pos rfl]
    rfl
  · exact @rowLoop_column lastsep true r col (comma :: rest) rest hcol (fun _ => rfl) (fun _ => rfl)

theorem rowLoop_crlf {lastsep : Bool} {col : Bytes} (hseen : lastsep = true ∨ col ≠ [])
    (r : CsvReader) (rest : Bytes) :
    rowLoop lastsep r (columnText col ++ cr :: lf :: rest) = (push r col, rest) := by
  by_cases hcol : col = []
  · obtain rfl := hseen.resolve_right (fun h => h hcol)
    subst hcol
    rw [show columnText [] ++ cr :: lf :: rest = cr :: lf :: rest from rfl, rowLoop, if_pos rfl]
    rfl
  · exact @rowLoop_column lastsep false r col (cr :: lf :: rest) rest hcol (fun _ => rfl)
      (fun _ => rfl)

/-- The induction is on the columns behind the one that comes next. -/
theorem rowLoop_columns (cols : List Bytes) : ∀ {lastsep : Bool} {col : Bytes},
    lastsep = true ∨ col ≠ [] ∨ cols ≠ [] → ∀ (r : CsvReader) (rest : Bytes),
      rowLoop lastsep r (columnText col ++ moreText cols ++ rest) =
        ((col :: cols).foldl push r, rest) := by
  induction cols with
  | nil =>
    intro lastsep col hseen r rest
    rw [moreText, List.flatMap_nil, List.nil_append, List.append_assoc]
    apply rowLoop_crlf
    rcases hseen with hsep | hcol | hnil
    · exact .inl hsep
    · exact .inr hcol
    · exact absurd rfl hnil
  | cons next cols ih =>
    intro lastsep col _ r rest
    have hmore : columnText col ++ moreText (next :: cols) ++ rest =
        columnText col ++ comma :: (columnText next ++ moreText cols ++ rest) := by
      simp [moreText, List.append_assoc]
    rw [hmore, rowLoop_comma, ih (.inl rfl)]
    rfl

/-- The columns in memory, each with its terminator. -/
def stored (cols : List Bytes) : Bytes := cols.flatMap (· ++ [0])

def offsets (cols : List Bytes) : List ℕ :=
  (List.range cols.length).map fun i => (stored (cols.take i)).length

structure Holds (r : CsvReader) (cols : List Bytes) : Prop where
  data : r.data.contents = stored cols
  cols : r.cols.contents = (offsets cols).flatMap (littleEndian 8)

theorem stored_append (left right : List Bytes) :
    stored (left ++ right) = stored left ++ stored right :=
  List.flatMap_append

theorem offsets_concat (cols : List Bytes) (col : Bytes) :
    offsets (cols ++ [col]) = offsets cols ++ [(stored cols).length] := by
  have hlength : (cols ++ [col]).length = cols.length + 1 := List.length_append
  unfold offsets
  rw [hlength, List.range_succ, List.map_append, List.map_singleton, List.take_left]
  congr 1
  apply List.map_congr_left
  intro i hi
  rw [List.take_append_of_le_length (List.mem_range.mp hi).le]

theorem contents_foldl_achar (s : Bytes) :
    ∀ buf : Buf, (s.foldl Buf.achar buf).contents = buf.contents ++ s := by
  induction s with
  | nil => exact fun buf => (List.append_nil _).symm
  | cons ch s ih =>
    intro buf
    rw [List.foldl_cons, ih, Buf.contents_achar, List.append_assoc]
    rfl

variable {cols : List Bytes}

theorem Holds.push (h : Holds r cols) (col : Bytes) :
    Holds (push r col) (cols ++ [col]) := by
  have hlen : r.data.len = (stored cols).length := by
    rw [← h.data, Buf.length_contents]
  unfold Csv.push endColumn
  constructor
  · rw [Buf.contents_achar, contents_foldl_achar, h.data, stored_append, List.append_assoc]
    simp [stored]
  · rw [Buf.contents_adata, h.cols, offsets_concat, List.flatMap_append, hlen]
    simp

theorem Holds.foldl_push (more : List Bytes) : ∀ {r : CsvReader} {cols : List Bytes},
    Holds r cols → Holds (more.foldl Csv.push r) (cols ++ more) := by
  induction more with
  | nil =>
    intro r cols h
    rwa [List.append_nil]
  | cons col more ih =>
    intro r cols h
    rw [List.append_cons]
    exact ih (h.push col)

theorem length_flatMap_littleEndian (words : List ℕ) :
    (words.flatMap (littleEndian 8)).length = 8 * words.length := by
  induction words with
  | nil => rfl
  | cons word words ih =>
    rw [List.flatMap_cons, List.length_append, length_littleEndian, ih, List.length_cons]
    omega

theorem Holds.nelems (h : Holds r cols) :
    csvReaderNelems r = cols.length := by
  have hlen : r.cols.len = 8 * cols.length := by
    rw [← Buf.length_contents, h.cols, length_flatMap_littleEndian, offsets, List.length_map,
      List.length_range]
  rw [csvReaderNelems, hlen, Nat.mul_div_cancel_left _ (by decide)]

theorem length_stored_take_le (cols : List Bytes) (i : ℕ) :
    (stored (cols.take i)).length ≤ (stored cols).length := by
  have h := stored_append (cols.take i) (cols.drop i)
  rw [List.take_append_drop] at h
  rw [h, List.length_append]
  omega

theorem Holds.elem (h : Holds r cols)
    (hsize : (stored cols).length < 2 ^ 64) {i : ℕ} (hi : i < cols.length) :
    csvReaderElem r i = some (stored (cols.take i)).length := by
  have hoffset : (offsets cols)[i]? = some (stored (cols.take i)).length := by
    rw [offsets, List.getElem?_map, List.getElem?_range hi]
    rfl
  have hwords : ∀ n ∈ offsets cols, n < 256 ^ 8 := by
    intro n hn
    obtain ⟨j, -, rfl⟩ := List.mem_map.mp hn
    have hle := length_stored_take_le cols j
    omega
  have hlen : 8 * cols.length = r.cols.len := by
    rw [← Buf.length_contents, h.cols, length_flatMap_littleEndian, offsets, List.length_map,
      List.length_range]
  have hread : readWord 8 r.cols.data (8 * i) = readWord 8 r.cols.contents (8 * i) := by
    apply readWord_congr
    intro j hj
    rw [Buf.contents, byteAt_take, if_pos (by omega)]
  unfold csvReaderElem
  rw [h.nelems, if_neg (by omega), hread, h.cols, readWord_flatMap hwords i hoffset]

theorem Holds.string (h : Holds r cols)
    (hcols : ∀ col ∈ cols, ∀ ch ∈ col, ch ≠ 0) {i : ℕ} {col : Bytes} (hcol : cols[i]? = some col) :
    stringAt r.data.data (stored (cols.take i)).length = col := by
  obtain ⟨hi, hget⟩ := List.getElem?_eq_some_iff.mp hcol
  have hsplit : cols = cols.take i ++ col :: cols.drop (i + 1) := by
    rw [← hget, List.getElem_cons_drop, List.take_append_drop]
  have hstored : stored cols =
      stored (cols.take i) ++ (col ++ [0]) ++ stored (cols.drop (i + 1)) := by
    conv => lhs; rw [hsplit]
    rw [stored_append, List.append_assoc]
    rfl
  rw [Buf.data_eq, h.data, hstored, List.append_assoc (stored _ ++ (col ++ [0]))]
  exact stringAt_append (hcols col (List.mem_of_getElem? hcol))

/-- The strings that `csv_reader_elem` gives for a row. -/
def CsvReader.columns (r : CsvReader) : List (Option Bytes) :=
  (List.range (csvReaderNelems r)).map fun i => (csvReaderElem r i).map (stringAt r.data.data)

theorem Holds.columns (h : Holds r cols)
    (hcols : ∀ col ∈ cols, ∀ ch ∈ col, ch ≠ 0) (hsize : (stored cols).length < 2 ^ 64) :
    r.columns = cols.map some := by
  unfold CsvReader.columns
  rw [h.nelems]
  apply List.ext_getElem?
  intro i
  by_cases hi : i < cols.length
  · have hcol := List.getElem?_eq_getElem hi
    rw [List.getElem?_map, List.getElem?_range hi, List.getElem?_map, hcol, Option.map_some,
      h.elem hsize hi, Option.map_some, h.string hcols hcol]
    rfl
  · rw [List.getElem?_eq_none (by simpa using hi), List.getElem?_eq_none (by simpa using hi)]

/-- What `csv_encode` is given: at least one column, and not only an empty one. -/
structure Row where
  cols : List (Option Bytes)
  ne_nil : cols ≠ []
  ne_zero : ∀ col ∈ cols, ∀ s, col = some s → ∀ ch ∈ s, ch ≠ 0
  ne_blank : cols ≠ [none] ∧ cols ≠ [some []]

def Row.strings (row : Row) : List Bytes := row.cols.map (·.getD [])

theorem Row.strings_ne_zero (row : Row) : ∀ col ∈ row.strings, ∀ ch ∈ col, ch ≠ 0 := by
  intro col hcol
  obtain ⟨source, hsource, rfl⟩ := List.mem_map.mp hcol
  cases source with
  | none => simp
  | some s => exact row.ne_zero (some s) hsource s rfl

theorem length_le_columnText (col : Bytes) : col.length ≤ (columnText col).length := by
  have hescape : col.length ≤ (escape col).length := by
    induction col with
    | nil => exact le_rfl
    | cons ch col ih =>
      rw [escape, List.flatMap_cons, List.length_append, List.length_cons]
      have hone : 1 ≤ (if ch = quote then [quote, quote] else [ch]).length := by
        split <;> simp
      unfold escape at ih
      omega
  unfold columnText
  split
  · exact le_rfl
  · simp only [List.length_append, List.length_singleton]
    omega

theorem length_stored_le_rowText (cols : List Bytes) :
    (stored cols).length ≤ (rowText cols).length := by
  have hmore : ∀ cols : List Bytes, (stored cols).length + 2 ≤ (moreText cols).length := by
    intro cols
    induction cols with
    | nil => exact le_rfl
    | cons col cols ih =>
      have hcol := length_le_columnText col
      simp only [stored, moreText, List.flatMap_cons, List.length_append, List.length_cons,
        List.length_nil] at ih ⊢
      omega
  cases cols with
  | nil => exact le_rfl
  | cons col cols =>
    have hcol := length_le_columnText col
    have hrest := hmore cols
    have hstored : (stored (col :: cols)).length = col.length + 1 + (stored cols).length := by
      rw [stored, List.flatMap_cons, List.length_append, List.length_append]
      rfl
    rw [rowText, List.length_append]
    omega

theorem csvReadRow_row (row : Row) (r : CsvReader) (rest : Bytes) :
    ∃ after, csvReadRow r (rowText row.strings ++ rest) = (after, rest) ∧
      Holds after row.strings := by
  obtain ⟨first, more, hcols⟩ := List.exists_cons_of_ne_nil row.ne_nil
  have hstrings : row.strings = first.getD [] :: more.map (·.getD []) := by
    rw [Row.strings, hcols, List.map_cons]
  have hseen : first.getD [] ≠ [] ∨ more.map (·.getD []) ≠ [] := by
    by_cases hmore : more = []
    · left
      obtain ⟨hnone, hempty⟩ := row.ne_blank
      rw [hcols, hmore] at hnone hempty
      cases first with
      | none => exact absurd rfl hnone
      | some s =>
        rintro rfl
        exact hempty rfl
    · right
      simpa using hmore
  have hholds : Holds ⟨r.data.clear, r.cols.clear⟩ [] :=
    ⟨Buf.contents_clear _, Buf.contents_clear _⟩
  refine ⟨row.strings.foldl push ⟨r.data.clear, r.cols.clear⟩, ?_, ?_⟩
  · rw [csvReadRow, hstrings, rowText, rowLoop_columns _ (.inr hseen)]
  · exact hholds.foldl_push row.strings

def writeRows (dst : Buf) : List Row → Buf
  | [] => dst
  | row :: rows => writeRows (csvEncode dst row.cols) rows

/-- `n` calls of `csv_read_row`, the columns taken after each. -/
def readRows : ℕ → CsvReader → Bytes → List (List (Option Bytes)) × Bytes
  | 0, _, input => ([], input)
  | n + 1, r, input =>
    let (r, input) := csvReadRow r input
    let (rows, input) := readRows n r input
    (r.columns :: rows, input)

theorem contents_writeRows (rows : List Row) : ∀ dst : Buf,
    (writeRows dst rows).contents = dst.contents ++ rows.flatMap fun row => rowText row.strings := by
  induction rows with
  | nil => exact fun dst => (List.append_nil _).symm
  | cons row rows ih =>
    intro dst
    rw [writeRows, ih, contents_csvEncode row.ne_zero, List.flatMap_cons, List.append_assoc]
    rfl

theorem readRows_rows (rows : List Row) : ∀ (r : CsvReader) (rest : Bytes),
    (rows.flatMap fun row => rowText row.strings).length < 2 ^ 64 →
      readRows rows.length r ((rows.flatMap fun row => rowText row.strings) ++ rest) =
        (rows.map fun row => row.strings.map some, rest) := by
  induction rows with
  | nil => exact fun _ _ _ => rfl
  | cons row rows ih =>
    intro r rest hsize
    rw [List.flatMap_cons, List.length_append] at hsize
    have hstored := length_stored_le_rowText row.strings
    obtain ⟨after, hread, hholds⟩ := csvReadRow_row row r
      ((rows.flatMap fun row => rowText row.strings) ++ rest)
    rw [List.flatMap_cons, List.append_assoc, List.length_cons, readRows, hread]
    dsimp only
    rw [ih after rest (by omega), hholds.columns row.strings_ne_zero (by omega), List.map_cons]

/-- What `csv_encode` writes, `csv_read_row` reads back row by row, up to the end
of the stream. -/
theorem csv_round_trip (rows : List Row) (cap : ℕ) (r : CsvReader)
    (hsize : (writeRows (Buf.init cap) rows).len < 2 ^ 64) :
    readRows rows.length r (writeRows (Buf.init cap) rows).contents =
      (rows.map fun row => row.cols.map fun col => some (col.getD []), []) := by
  have hcontents := contents_writeRows rows (Buf.init cap)
  rw [Buf.contents_init, List.nil_append] at hcontents
  rw [← Buf.length_contents, hcontents] at hsize
  have hread := readRows_rows rows r [] hsize
  rw [List.append_nil] at hread
  rw [hcontents, hread]
  simp [Row.strings, List.map_map, Function.comp_def]

/-- Separators and line ends inside of columns, a NULL column and an empty last
one. -/
theorem csv_round_trip_run :
    let rows : List Row :=
      [⟨[some [34], none, some [65, 13, 10, 44]], by decide, by decide, by decide⟩,
        ⟨[some [66], some []], by decide, by decide, by decide⟩]
    readRows 2 csvReaderInit (writeRows (Buf.init 8) rows).contents =
      ([[some [34], some [], some [65, 13, 10, 44]], [some [66], some []]], []) := by
  intro rows
  have hsize : (writeRows (Buf.init 8) rows).len < 2 ^ 64 := by
    rw [← Buf.length_contents, contents_writeRows]
    decide
  exact csv_round_trip rows 8 csvReaderInit hsize

end Yans.Util.Csv
