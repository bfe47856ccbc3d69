import Yans.Util.Netstring

/-! `lib/net/scgi.c`: a request that arrives in pieces is buffered until its
header block, a netstring, is complete; the block is then parsed in place and
its fields are read one by one. Pointers into the buffer are offsets. The
descriptor, its flag and the error text belong to `scgi_read_header`. -/
namespace Yans.Net.Scgi

open Library.Memory Util Util.Netstring

inductive ScgiCode where
  | again
  | ok
  | eparse
  | enoHeader
deriving DecidableEq

structure ScgiCtx where
  buf : Buf
  maxhdrsz : ℕ
  nextoff : ℕ
  hdr : Option ℕ
  hdrlen : ℕ

structure ScgiHeader where
  key : Option ℕ
  keylen : ℕ
  value : Option ℕ
  valuelen : ℕ
deriving DecidableEq

def ScgiHeader.zeroed : ScgiHeader := ⟨none, 0, none, 0⟩

def dflHdrbuf : ℕ := 2 ^ 15

def scgiInit (maxhdrsz : ℕ) : ScgiCtx where
  buf := Buf.init (min dflHdrbuf maxhdrsz)
  maxhdrsz := maxhdrsz
  nextoff := 0
  hdr := none
  hdrlen := 0

def scgiAdata (ctx : ScgiCtx) (data : Bytes) : ScgiCode × ScgiCtx :=
  let ctx := { ctx with buf := ctx.buf.adata data }
  match netstringTryparse ctx.buf.contents with
  | .ok nextoff => (.ok, { ctx with nextoff := nextoff })
  | .error .errincomplete => (.ok, ctx)
  | .error _ => (.eparse, ctx)

theorem le_length_netstringParse (mem : Bytes) (src srclen : ℕ) :
    mem.length ≤ (netstringParse mem src srclen).2.length := by
  unfold netstringParse
  split
  · exact le_rfl
  · simp only [write, List.length_append, List.length_take, List.length_drop]
    omega

def scgiParseHeader (ctx : ScgiCtx) : ScgiCode × ScgiCtx :=
  if ctx.hdr.isSome then (.ok, ctx)
  else
    let parsed := netstringParse ctx.buf.data 0 ctx.buf.len
    let buf : Buf := ⟨parsed.2, ctx.buf.len,
      ctx.buf.len_le.trans (le_length_netstringParse _ _ _)⟩
    match parsed.1 with
    | .error _ => (.eparse, { ctx with buf := buf })
    | .ok out => (.ok, { ctx with buf := buf, hdr := some out.off, hdrlen := out.len })

def strlen (mem : Bytes) (off : ℕ) : ℕ := (stringAt mem off).length

/-- Where the next field is looked for: after the last value, or at the start
when the last value lies outside of the header block. -/
def nextStart (base limit : ℕ) (hdr : ScgiHeader) : Option ℕ :=
  match hdr.value with
  | none => some base
  | some value =>
    if value < base ∨ value ≥ limit then some base
    else
      let start := value + hdr.valuelen + 1
      if start < base ∨ start ≥ limit then none else some start

def scgiGetNextHeader (ctx : ScgiCtx) (hdr : ScgiHeader) : ScgiCode × ScgiHeader :=
  match ctx.hdr with
  | none => (.enoHeader, hdr)
  | some base =>
    match nextStart base (base + ctx.hdrlen) hdr with
    | none => (.ok, hdr)
    | some start =>
      let len := strlen ctx.buf.data start
      if len = 0 then (.ok, hdr)
      else
        let hdr := { hdr with key := some start, keylen := len }
        let start := start + len + 1
        if start ≥ base + ctx.hdrlen then (.eparse, hdr)
        else (.again, { hdr with value := some start, valuelen := strlen ctx.buf.data start })

def scgiGetRest (ctx : ScgiCtx) : Option ℕ × ℕ :=
  if ctx.nextoff > 0 then
    let nlen := ctx.buf.len - ctx.nextoff
    (if nlen > 0 then some ctx.nextoff else none, nlen)
  else (none, 0)

/-! Requests, and the calls a receiver makes for one -/

structure Field where
  name : Bytes
  value : Bytes
  name_ne_nil : name ≠ []
  name_ne_zero : ∀ byte ∈ name, byte ≠ 0
  value_ne_zero : ∀ byte ∈ value, byte ≠ 0

def Field.text (field : Field) : Bytes := field.name ++ [0] ++ (field.value ++ [0])

def headerText (fields : List Field) : Bytes := fields.flatMap Field.text

def request (fields : List Field) (body : Bytes) : Bytes := encode (headerText fields) ++ body

/-- One `scgi_adata` call for each piece, with the results. -/
def feed (ctx : ScgiCtx) : List Bytes → List ScgiCode × ScgiCtx
  | [] => ([], ctx)
  | data :: rest =>
    let (code, ctx) := scgiAdata ctx data
    let (codes, ctx) := feed ctx rest
    (code :: codes, ctx)

/-- The name and the value that a call has stored. -/
def ScgiCtx.read (ctx : ScgiCtx) (hdr : ScgiHeader) : Option (Bytes × Bytes) := do
  let key ← hdr.key
  let value ← hdr.value
  pure (slice ctx.buf.data key hdr.keylen, slice ctx.buf.data value hdr.valuelen)

/-- Calls of `scgi_get_next_header` as long as it returns `SCGI_AGAIN`, with
what each stored and the result of the last; `none` when `calls` of them were
too few. -/
def collectHeaders (ctx : ScgiCtx) :
    ℕ → ScgiHeader → Option (List (Option (Bytes × Bytes)) × ScgiCode)
  | 0, _ => none
  | calls + 1, hdr =>
    match scgiGetNextHeader ctx hdr with
    | (.again, hdr) => do
      let (rest, code) ← collectHeaders ctx calls hdr
      pure (ctx.read hdr :: rest, code)
    | (code, _) => some ([], code)

/-- A request of which `fed` has been buffered and nothing parsed. -/
structure Receiving (ctx : ScgiCtx) (text fed : Bytes) : Prop where
  contents : ctx.buf.contents = fed
  nextoff : ctx.nextoff = if (encode text).length ≤ fed.length then (encode text).length else 0
  unparsed : ctx.hdr = none

theorem receiving_scgiInit (maxhdrsz : ℕ) (text : Bytes) :
    Receiving (scgiInit maxhdrsz) text [] where
  contents := Buf.contents_init _
  nextoff := by
    have hpos := List.length_pos_iff.mpr (encode_ne_nil text)
    rw [List.length_nil, if_neg (by omega)]
    rfl
  unparsed := rfl

variable {body text : Bytes}

theorem netstringTryparse_front {fed more : Bytes}
    (hsplit : fed ++ more = encode text ++ body) (hsize : (encode text ++ body).length < 2 ^ 64) :
    netstringTryparse fed =
      if (encode text).length ≤ fed.length then .ok (encode text).length
      else .error .errincomplete := by
  split
  · rename_i hwhole
    obtain ⟨front, hfront⟩ : encode text <+: fed :=
      List.prefix_of_prefix_length_le ⟨body, rfl⟩ ⟨more, hsplit⟩ hwhole
    rw [← hfront]
    apply netstringTryparse_encode
    have hlength := congrArg List.length hsplit
    rw [List.length_append] at hlength
    rw [hfront]
    omega
  · rename_i hcut
    obtain ⟨rest, hrest⟩ : fed <+: encode text :=
      List.prefix_of_prefix_length_le ⟨more, hsplit⟩ ⟨body, rfl⟩ (by omega)
    apply netstringTryparse_cut hrest
    · rintro rfl
      rw [List.append_nil] at hrest
      rw [hrest] at hcut
      exact hcut le_rfl
    · rw [List.length_append] at hsize
      omega

variable {ctx : ScgiCtx}

theorem scgiAdata_receiving {fed data more : Bytes}
    (hctx : Receiving ctx text fed) (hsplit : fed ++ data ++ more = encode text ++ body)
    (hsize : (encode text ++ body).length < 2 ^ 64) :
    (scgiAdata ctx data).1 = .ok ∧ Receiving (scgiAdata ctx data).2 text (fed ++ data) := by
  have hcontents : (ctx.buf.adata data).contents = fed ++ data := by
    rw [Buf.contents_adata, hctx.contents]
  have hparse := netstringTryparse_front hsplit hsize
  have hnextoff := hctx.nextoff
  have hlonger : (fed ++ data).length = fed.length + data.length := List.length_append
  unfold scgiAdata
  dsimp only
  rw [hcontents, hparse]
  by_cases hwhole : (encode text).length ≤ (fed ++ data).length
  · rw [if_pos hwhole]
    exact ⟨rfl, hcontents, (if_pos hwhole).symm, hctx.unparsed⟩
  · rw [if_neg hwhole]
    rw [if_neg (by omega)] at hnextoff
    exact ⟨rfl, hcontents, hnextoff.trans (if_neg hwhole).symm, hctx.unparsed⟩

/-- However the request is cut. The induction is on the pieces still to come. -/
theorem feed_receiving (hsize : (encode text ++ body).length < 2 ^ 64)
    (chunks : List Bytes) : ∀ {ctx : ScgiCtx} {fed : Bytes}, Receiving ctx text fed →
      fed ++ chunks.flatten = encode text ++ body →
      (∀ code ∈ (feed ctx chunks).1, code = .ok) ∧
        Receiving (feed ctx chunks).2 text (encode text ++ body) := by
  induction chunks with
  | nil =>
    intro ctx fed hctx hall
    rw [List.flatten_nil, List.append_nil] at hall
    rw [← hall]
    exact ⟨nofun, hctx⟩
  | cons data rest ih =>
    intro ctx fed hctx hall
    rw [List.flatten_cons, ← List.append_assoc] at hall
    obtain ⟨hcode, hnext⟩ := scgiAdata_receiving hctx hall hsize
    obtain ⟨hcodes, hlast⟩ := ih hnext hall
    refine ⟨?_, hlast⟩
    intro code hmem
    obtain rfl | hmem := List.mem_cons.mp hmem
    · exact hcode
    · exact hcodes code hmem

/-- The header block stands at `base`, with a zero byte behind it. -/
structure Parsed (ctx : ScgiCtx) (before text after : Bytes) : Prop where
  data : ctx.buf.data = before ++ text ++ [0] ++ after
  hdr : ctx.hdr = some before.length
  hdrlen : ctx.hdrlen = text.length

theorem scgiParseHeader_receiving (hctx : Receiving ctx text (encode text ++ body))
    (hsize : (encode text ++ body).length < 2 ^ 64) :
    (scgiParseHeader ctx).1 = .ok ∧
      Parsed (scgiParseHeader ctx).2 (lengthPrefix text) text
        (body ++ ctx.buf.data.drop ctx.buf.len) ∧
      (scgiParseHeader ctx).2.nextoff = (encode text).length ∧
      (scgiParseHeader ctx).2.buf.len = (encode text ++ body).length := by
  have hlen : ctx.buf.len = (encode text ++ body).length := by
    rw [← hctx.contents, Buf.length_contents]
  have hparse := @netstringParse_encode [] text body (ctx.buf.data.drop ctx.buf.len) hsize
  rw [List.nil_append, ← hctx.contents, ← Buf.data_eq, Buf.length_contents, List.length_nil]
    at hparse
  have hnextoff := hctx.nextoff
  rw [if_pos (by rw [List.length_append]; omega)] at hnextoff
  unfold scgiParseHeader
  rw [hctx.unparsed]
  simp only [Option.isSome_none, Bool.false_eq_true, if_false, hparse]
  refine ⟨trivial, ⟨?_, ?_, rfl⟩, hnextoff, hlen⟩
  · simp [consumed, List.append_assoc]
  · exact congrArg some (Nat.zero_add _)

/-- Where an iteration over `done ++ rest` has read `done`. -/
def At (base : ℕ) (hdr : ScgiHeader) (done : Bytes) : Prop :=
  done = [] ∧ hdr.value = none ∨
    ∃ value, hdr.value = some value ∧ base ≤ value ∧
      value + hdr.valuelen + 1 = base + done.length

variable {hdr : ScgiHeader} {done : Bytes}

theorem nextStart_at {base : ℕ} {rest : Bytes} (hat : At base hdr done)
    (hrest : rest ≠ []) :
    nextStart base (base + (done ++ rest).length) hdr = some (base + done.length) := by
  have hpos := List.length_pos_iff.mpr hrest
  unfold nextStart
  rcases hat with ⟨rfl, hvalue⟩ | ⟨value, hvalue, hbase, hstart⟩
  · rw [hvalue]
    rfl
  · rw [hvalue, List.length_append]
    dsimp only
    rw [if_neg (by omega), if_neg (by omega), hstart]

theorem slice_append_zero (before text after : Bytes) :
    slice (before ++ (text ++ [0]) ++ after) before.length text.length = text := by
  rw [List.append_assoc, List.append_assoc text, ← List.append_assoc before]
  exact slice_eq_of_append rfl rfl

variable {after before : Bytes}

theorem scgiGetNextHeader_field {fields : List Field} {field : Field}
    (hctx : Parsed ctx before (done ++ headerText (field :: fields)) after)
    (hat : At before.length hdr done) :
    ∃ next, scgiGetNextHeader ctx hdr = (.again, next) ∧
      ctx.read next = some (field.name, field.value) ∧
      At before.length next (done ++ field.text) := by
  have htext : headerText (field :: fields) = field.text ++ headerText fields := rfl
  have hname : ctx.buf.data = (before ++ done) ++ (field.name ++ [0]) ++
      (field.value ++ [0] ++ (headerText fields ++ [0] ++ after)) := by
    simp [hctx.data, htext, Field.text, List.append_assoc]
  have hvalue : ctx.buf.data = (before ++ done ++ field.name ++ [0]) ++ (field.value ++ [0]) ++
      (headerText fields ++ [0] ++ after) := by
    simp [hctx.data, htext, Field.text, List.append_assoc]
  have hlen : strlen ctx.buf.data (before ++ done).length = field.name.length := by
    rw [strlen, hname, stringAt_append field.name_ne_zero]
  have hvaluelen : strlen ctx.buf.data (before ++ done ++ field.name ++ [0]).length =
      field.value.length := by
    rw [strlen, hvalue, stringAt_append field.value_ne_zero]
  have hnext : (before ++ done).length + field.name.length + 1 =
      (before ++ done ++ field.name ++ [0]).length := by
    simp only [List.length_append, List.length_singleton]
  have hbound : ¬ (before ++ done ++ field.name ++ [0]).length ≥
      before.length + (done ++ headerText (field :: fields)).length := by
    simp only [htext, Field.text, List.length_append, List.length_singleton]
    omega
  have hnonempty : field.name.length ≠ 0 :=
    Nat.ne_of_gt (List.length_pos_iff.mpr field.name_ne_nil)
  have hmore : headerText (field :: fields) ≠ [] := by simp [htext, Field.text]
  have hstart := nextStart_at hat hmore
  rw [← @List.length_append _ before done] at hstart
  unfold scgiGetNextHeader
  rw [hctx.hdr]
  dsimp only
  rw [hctx.hdrlen, hstart]
  dsimp only
  rw [hlen, if_neg hnonempty, hnext, if_neg hbound, hvaluelen]
  refine ⟨_, rfl, ?_, .inr ⟨_, rfl, ?_, ?_⟩⟩
  · have hreadName : slice ctx.buf.data (before ++ done).length field.name.length =
        field.name := by
      rw [hname, slice_append_zero]
    have hreadValue : slice ctx.buf.data (before ++ done ++ field.name ++ [0]).length
        field.value.length = field.value := by
      rw [hvalue, slice_append_zero]
    change some (slice ctx.buf.data _ _, slice ctx.buf.data _ _) = _
    rw [hreadName, hreadValue]
  · simp only [List.length_append]
    omega
  · simp only [Field.text, List.length_append, List.length_singleton]
    omega

theorem scgiGetNextHeader_end
    (hctx : Parsed ctx before done after) (hat : At before.length hdr done) :
    scgiGetNextHeader ctx hdr = (.ok, hdr) := by
  unfold scgiGetNextHeader
  rw [hctx.hdr]
  dsimp only
  rw [hctx.hdrlen]
  unfold nextStart
  rcases hat with ⟨rfl, hvalue⟩ | ⟨value, hvalue, hbase, hstart⟩
  · -- an empty block: the byte at its start is the zero behind it
    have hempty : strlen ctx.buf.data before.length = 0 := by
      have htext := @stringAt_append before [] after nofun
      rw [strlen, hctx.data, List.append_nil]
      rw [List.nil_append] at htext
      rw [htext, List.length_nil]
    rw [hvalue]
    dsimp only
    rw [hempty, if_pos rfl]
  · rw [hvalue]
    dsimp only
    rw [if_neg (by omega), hstart, if_pos (.inr le_rfl)]

/-- The induction is on the fields to come; those already read are `done`. -/
theorem collectHeaders_fields (fields : List Field) :
    ∀ {done : Bytes} {hdr : ScgiHeader}, Parsed ctx before (done ++ headerText fields) after →
      At before.length hdr done →
      collectHeaders ctx (fields.length + 1) hdr =
        some (fields.map fun field => some (field.name, field.value), .ok) := by
  induction fields with
  | nil =>
    intro done hdr hctx hat
    rw [headerText, List.flatMap_nil, List.append_nil] at hctx
    rw [List.length_nil, Nat.zero_add, collectHeaders, scgiGetNextHeader_end hctx hat]
    rfl
  | cons field fields ih =>
    intro done hdr hctx hat
    obtain ⟨next, hcall, hread, hnext⟩ := scgiGetNextHeader_field hctx hat
    have hmoved : done ++ headerText (field :: fields) =
        done ++ field.text ++ headerText fields := by
      rw [headerText, List.flatMap_cons, ← List.append_assoc]
      rfl
    rw [hmoved] at hctx
    rw [List.length_cons, collectHeaders, hcall]
    dsimp only
    rw [ih hctx hnext, hread]
    rfl

/-- A request is delivered as it was sent, however it was cut: every piece is
taken, the block parses, the fields come in order and the body is left. -/
theorem scgi_delivers_request (maxhdrsz : ℕ) (fields : List Field) (body : Bytes)
    (chunks : List Bytes) (hcut : chunks.flatten = request fields body)
    (hsize : (request fields body).length < 2 ^ 64) :
    let fed := feed (scgiInit maxhdrsz) chunks
    let parsed := scgiParseHeader fed.2
    (∀ code ∈ fed.1, code = .ok) ∧ parsed.1 = .ok ∧
      collectHeaders parsed.2 (fields.length + 1) .zeroed =
        some (fields.map fun field => some (field.name, field.value), .ok) ∧
      (body = [] → scgiGetRest parsed.2 = (none, 0)) ∧
      (body ≠ [] → ∃ off, scgiGetRest parsed.2 = (some off, body.length) ∧
        slice parsed.2.buf.data off body.length = body) := by
  intro fed parsed
  obtain ⟨hcodes, hfed⟩ := feed_receiving hsize chunks
    (receiving_scgiInit maxhdrsz (headerText fields)) hcut
  obtain ⟨hcode, hparsed, hnextoff, hlen⟩ := scgiParseHeader_receiving hfed hsize
  have hpos := List.length_pos_iff.mpr (encode_ne_nil (headerText fields))
  have hnlen : parsed.2.buf.len - parsed.2.nextoff = body.length := by
    rw [hlen, hnextoff, List.length_append, Nat.add_sub_cancel_left]
  have hrest : scgiGetRest parsed.2 =
      (if body.length > 0 then some (encode (headerText fields)).length else none,
        body.length) := by
    unfold scgiGetRest
    rw [hnlen, hnextoff, if_pos hpos]
  refine ⟨hcodes, hcode, ?_, ?_, ?_⟩
  · exact @collectHeaders_fields _ _ _ fields [] .zeroed hparsed (.inl ⟨rfl, rfl⟩)
  · rintro rfl
    exact hrest
  · intro hbody
    refine ⟨(encode (headerText fields)).length, ?_, ?_⟩
    · rw [hrest, if_pos (List.length_pos_iff.mpr hbody)]
    · rw [hparsed.data, ← List.append_assoc]
      apply slice_eq_of_append _ rfl
      simp only [encode, List.length_append, List.length_singleton]

/-- Two fields with an empty value last, and a body that looks like framing
itself, cut inside of the length, of the block and of the body. -/
theorem scgi_delivers_run :
    let parsed := scgiParseHeader (feed (scgiInit 16)
      [[55], [58, 65, 0, 49], [], [0, 66, 0, 0, 44, 49], [58, 97, 44]]).2
    collectHeaders parsed.2 3 .zeroed = some ([some ([65], [49]), some ([66], [])], .ok) ∧
      ∃ off, scgiGetRest parsed.2 = (some off, 4) ∧
        slice parsed.2.buf.data off 4 = [49, 58, 97, 44] := by
  intro parsed
  let fields : List Field :=
    [⟨[65], [49], by decide, by decide, by decide⟩, ⟨[66], [], by decide, by decide, by decide⟩]
  have hcut : ([[55], [58, 65, 0, 49], [], [0, 66, 0, 0, 44, 49], [58, 97, 44]] :
      List Bytes).flatten = request fields [49, 58, 97, 44] := by
    have hnumeral := @Library.Decimal.numeral_small 7 (by decide)
    simp [request, encode, lengthPrefix, headerText, Field.text, fields, hnumeral, colon, comma]
  have hsize : (request fields [49, 58, 97, 44]).length < 2 ^ 64 := by
    rw [← hcut]
    decide
  obtain ⟨-, -, hheaders, -, hbody⟩ := scgi_delivers_request 16 fields [49, 58, 97, 44] _ hcut hsize
  exact ⟨hheaders, hbody (by decide)⟩

end Yans.Net.Scgi
