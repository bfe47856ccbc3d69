import Yans.Net.Scgi
import Yans.Util.Lines

/-! `apps/a2/yapi.c`: how the body of a request is read. What came in with the header is
taken from the buffer of the header, and the rest from the stream behind it. -/
namespace Yans.Apps.Yapi

open Library.Memory Util Util.Lines Util.Netstring Net.Scgi

/-- What `yapi_read` uses of a `struct yapi_ctx`. `rest` is an offset into `mem`. -/
structure YapiCtx where
  contentLength : ℕ
  maxlen : ℕ
  input : File
  mem : Bytes
  rest : Option ℕ
  restlen : ℕ

/-- `ctx->rest = scgi_get_rest(&cgi, &ctx->restlen)` -/
def YapiCtx.keepRest (ctx : YapiCtx) (cgi : ScgiCtx) : YapiCtx :=
  let (rest, restlen) := scgiGetRest cgi
  { ctx with mem := cgi.buf.data, rest, restlen }

/-- The part of the body received with the headers, and the content length behind it. -/
def consumeRest (ctx : YapiCtx) (dst : Buf) : YapiCtx × Buf :=
  if ctx.restlen > 0 then
    let dst := dst.adata (slice ctx.mem (ctx.rest.getD 0) ctx.restlen)
    let left := if dst.len > ctx.contentLength then 0 else ctx.contentLength - dst.len
    ({ ctx with rest := none, restlen := 0, contentLength := left }, dst)
  else (ctx, dst)

/-- `sizeof(buf)` -/
def chunk : ℕ := 4096

/-- `while (left > 0)`; `rounds` bounds the loop. -/
def readLoop (maxlen : ℕ) : ℕ → ℕ → File → Buf → File × Buf
  | 0, _, input, dst => (input, dst)
  | rounds + 1, left, input, dst =>
    if left > 0 then
      let (buf, input) := fread input (min left chunk)
      let nread := buf.length
      if nread = 0 then (input, dst)
      else
        let dst := dst.adata buf
        if dst.len > maxlen then (input, dst)
        else readLoop maxlen rounds (if nread > left then 0 else left - nread) input dst
    else (input, dst)

def yapiRead (ctx : YapiCtx) (dst : Buf) : YapiCtx × Buf :=
  let (ctx, dst) := consumeRest ctx dst
  let left := min ctx.contentLength ctx.maxlen
  let (input, dst) := readLoop ctx.maxlen left left ctx.input dst
  ({ ctx with input }, dst.achar 0)

theorem contents_readLoop {maxlen : ℕ} (rounds : ℕ) : ∀ {left : ℕ} {input : File} {dst : Buf},
    left ≤ rounds → left ≤ input.rest.length → dst.len + left ≤ maxlen →
      (readLoop maxlen rounds left input dst).2.contents =
        dst.contents ++ input.rest.take left := by
  induction rounds with
  | zero =>
    intro left input dst hrounds _ _
    rw [Nat.le_zero.mp hrounds, List.take_zero, List.append_nil]
    rfl
  | succ rounds ih =>
    intro left input dst hrounds henough hfits
    rw [readLoop]
    by_cases hleft : left > 0
    · rw [if_pos hleft]
      dsimp only [fread]
      have hnread : (input.rest.take (min left chunk)).length = min left chunk := by
        rw [List.length_take]
        omega
      have hsome : 0 < min left chunk := Nat.lt_min.mpr ⟨hleft, by decide⟩
      rw [hnread, if_neg (by omega), Buf.len_adata, hnread, if_neg (by omega), if_neg (by omega)]
      rw [ih (by omega) ?_ ?_, Buf.contents_adata, List.append_assoc]
      · dsimp only
        rw [← List.take_add, Nat.add_sub_cancel' (Nat.min_le_left _ _)]
      · dsimp only
        rw [List.length_drop]
        omega
      · rw [Buf.len_adata, hnread]
        omega
    · rw [if_neg hleft, Nat.le_zero.mp (Nat.not_lt.mp hleft), List.take_zero, List.append_nil]

section
variable {cgi : ScgiCtx} {text front : Bytes}

theorem keepRest_eq (hcgi : Receiving cgi text (encode text ++ front))
    (hsize : (encode text ++ front).length < 2 ^ 64) (ctx : YapiCtx) :
    let kept := ctx.keepRest (scgiParseHeader cgi).2
    kept.restlen = front.length ∧
      (front ≠ [] → slice kept.mem (kept.rest.getD 0) kept.restlen = front) := by
  obtain ⟨-, hparsed, hnextoff, hlen⟩ := scgiParseHeader_receiving hcgi hsize
  have hpos := List.length_pos_iff.mpr (encode_ne_nil text)
  have hnlen : (scgiParseHeader cgi).2.buf.len - (scgiParseHeader cgi).2.nextoff =
      front.length := by
    rw [hlen, hnextoff, List.length_append, Nat.add_sub_cancel_left]
  unfold YapiCtx.keepRest scgiGetRest
  dsimp only
  rw [hnlen, hnextoff, if_pos hpos]
  refine ⟨rfl, fun hne => ?_⟩
  rw [if_pos (List.length_pos_iff.mpr hne), Option.getD_some, hparsed.data, ← List.append_assoc]
  apply slice_eq_of_append _ rfl
  simp only [encode, List.length_append, List.length_singleton]

theorem consumeRest_eq {ctx : YapiCtx} {dst : Buf} (hempty : dst.len = 0)
    (hrestlen : ctx.restlen = front.length)
    (hrest : front ≠ [] → slice ctx.mem (ctx.rest.getD 0) ctx.restlen = front) :
    (consumeRest ctx dst).2.contents = front ∧
      (consumeRest ctx dst).1.contentLength = ctx.contentLength - front.length ∧
      (consumeRest ctx dst).1.maxlen = ctx.maxlen ∧
      (consumeRest ctx dst).1.input = ctx.input := by
  have hnone : dst.contents = [] := by
    rw [← List.length_eq_zero_iff, Buf.length_contents]
    exact hempty
  unfold consumeRest
  by_cases hfront : front = []
  · rw [if_neg (by rw [hrestlen, hfront]; exact Nat.lt_irrefl 0), hfront]
    exact ⟨hnone, rfl, rfl, rfl⟩
  · rw [if_pos (by rw [hrestlen]; exact List.length_pos_iff.mpr hfront)]
    dsimp only
    rw [hrest hfront, Buf.contents_adata, hnone, Buf.len_adata, hempty]
    refine ⟨rfl, ?_, rfl, rfl⟩
    split
    · omega
    · omega

theorem contents_yapiRead {back : Bytes} {ctx : YapiCtx} {dst : Buf}
    (hcgi : Receiving cgi text (encode text ++ front))
    (hsize : (encode text ++ front).length < 2 ^ 64) (hinput : ctx.input.rest = back)
    (hmax : ctx.contentLength ≤ ctx.maxlen)
    (hlong : ctx.contentLength ≤ (front ++ back).length) (hempty : dst.len = 0) :
    (yapiRead (ctx.keepRest (scgiParseHeader cgi).2) dst).2.contents =
      (if front.length ≤ ctx.contentLength then (front ++ back).take ctx.contentLength
        else front) ++ [0] := by
  obtain ⟨hrestlen, hrest⟩ := keepRest_eq hcgi hsize ctx
  obtain ⟨hcontents, hleft, hmaxlen, hfile⟩ := consumeRest_eq hempty hrestlen hrest
  rw [List.length_append] at hlong
  unfold yapiRead
  generalize consumeRest (ctx.keepRest (scgiParseHeader cgi).2) dst = consumed at *
  obtain ⟨kept, dst'⟩ := consumed
  dsimp only at *
  have hstream : kept.input.rest = back := by
    rw [hfile]
    exact hinput
  have hkept : kept.contentLength = ctx.contentLength - front.length := hleft
  have hkeptMax : kept.maxlen = ctx.maxlen := hmaxlen
  have hlen : dst'.len = front.length := by
    rw [← hcontents, Buf.length_contents]
  rw [hkeptMax, Nat.min_eq_left (by omega), Buf.contents_achar, List.append_cancel_right_eq]
  by_cases hshort : front.length ≤ ctx.contentLength
  · rw [contents_readLoop _ le_rfl (by rw [hstream]; omega) (by omega), hcontents, hstream, hkept,
      List.take_append, List.take_of_length_le hshort, if_pos hshort]
  · -- nothing is read
    rw [show kept.contentLength = 0 by omega, if_neg hshort, readLoop]
    exact hcontents

/-- The body is cut at its length as long as no more than that is buffered. -/
theorem body_read_iff {back : Bytes} {ctx : YapiCtx} {dst : Buf}
    (hcgi : Receiving cgi text (encode text ++ front))
    (hsize : (encode text ++ front).length < 2 ^ 64) (hinput : ctx.input.rest = back)
    (hmax : ctx.contentLength ≤ ctx.maxlen)
    (hlong : ctx.contentLength ≤ (front ++ back).length) (hempty : dst.len = 0) :
    (yapiRead (ctx.keepRest (scgiParseHeader cgi).2) dst).2.contents =
        (front ++ back).take ctx.contentLength ++ [0] ↔
      front.length ≤ ctx.contentLength := by
  rw [contents_yapiRead hcgi hsize hinput hmax hlong hempty, List.append_cancel_right_eq]
  by_cases hshort : front.length ≤ ctx.contentLength
  · rw [if_pos hshort]
    exact iff_of_true rfl hshort
  · rw [if_neg hshort]
    refine iff_of_false (fun heq => hshort ?_) hshort
    rw [heq, List.length_take]
    exact Nat.min_le_left _ _

end

theorem receiving_buffered (text front : Bytes) (hsize : (encode text ++ front).length < 2 ^ 64) :
    Receiving (feed (scgiInit 16) [encode text ++ front]).2 text (encode text ++ front) :=
  (feed_receiving hsize [encode text ++ front] (receiving_scgiInit 16 text) (by simp)).2

theorem size_buffered : (encode [65, 0, 49, 0] ++ [1, 2]).length < 2 ^ 64 := by
  have hnumeral := @Library.Decimal.numeral_small 4 (by decide)
  simp [encode, lengthPrefix, hnumeral]

theorem body_read_split :
    let cgi := (feed (scgiInit 16) [encode [65, 0, 49, 0] ++ [1, 2]]).2
    let ctx : YapiCtx := ⟨3, 10, ⟨[3, 4], false, false⟩, [], none, 0⟩
    (yapiRead (ctx.keepRest (scgiParseHeader cgi).2) (Buf.init 8)).2.contents =
      ([1, 2] ++ [3, 4] : Bytes).take 3 ++ [0] :=
  (body_read_iff (receiving_buffered [65, 0, 49, 0] [1, 2] size_buffered) size_buffered rfl
    (by decide) (by decide) rfl).mpr (by decide)

/-- One byte too many -/
theorem body_too_long : ¬ ∀ (cgi : ScgiCtx) (text front back : Bytes) (ctx : YapiCtx) (dst : Buf),
    Receiving cgi text (encode text ++ front) → (encode text ++ front).length < 2 ^ 64 →
    ctx.input.rest = back → ctx.contentLength ≤ ctx.maxlen →
    ctx.contentLength ≤ (front ++ back).length → dst.len = 0 →
    (yapiRead (ctx.keepRest (scgiParseHeader cgi).2) dst).2.contents =
      (front ++ back).take ctx.contentLength ++ [0] := by
  intro h
  let ctx : YapiCtx := ⟨1, 10, ⟨[], false, false⟩, [], none, 0⟩
  have hcgi := receiving_buffered [65, 0, 49, 0] [1, 2] size_buffered
  have hcut := h _ _ [1, 2] [] ctx (Buf.init 8) hcgi size_buffered rfl (by decide) (by decide) rfl
  have hwhole := contents_yapiRead hcgi size_buffered (rfl : ctx.input.rest = []) (by decide)
    (by decide) (rfl : (Buf.init 8).len = 0)
  exact absurd (hcut.symm.trans hwhole) (by decide)

end Yans.Apps.Yapi
