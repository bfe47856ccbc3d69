import Yans.Ycl.Ycl

/-! The functions that `apps/yclgen/genycl.c` generates for a message. They are
an instance of one template for each message schema, so the schema is an
argument here. Pointers into the buffers of a message are 64-bit words; where
the allocator has put these buffers is an argument too. -/
namespace Yans.Ycl

open Library.Memory Util Util.Netstring

/-- A `long`, a `size_t` or a pointer. -/
abbrev Word := BitVec 64

inductive FieldType where
  | dataarr
  | longarr
  | data
  | long
deriving DecidableEq

structure Field where
  typ : FieldType
  name : Bytes
deriving DecidableEq

def IsLetter (ch : UInt8) : Prop := 65 ≤ ch ∧ ch ≤ 90 ∨ 97 ≤ ch ∧ ch ≤ 122

instance (ch : UInt8) : Decidable (IsLetter ch) := inferInstanceAs (Decidable (_ ∨ _))

/-- The token `LIT`: a letter, and at most 30 letters, digits and underscores. -/
def IsName (name : Bytes) : Prop :=
  name.length ≤ 31 ∧ name.head?.any (fun ch => IsLetter ch) = true ∧
    ∀ ch ∈ name, IsLetter ch ∨ 48 ≤ ch ∧ ch ≤ 57 ∨ ch = 95

instance (name : Bytes) : Decidable (IsName name) := inferInstanceAs (Decidable (_ ∧ _ ∧ _))

def maxFields : ℕ := 32

/-- A message that yclgen accepts; the members of a C struct have distinct
names. -/
structure Schema where
  fields : List Field
  nfields_le : fields.length ≤ maxFields
  isName : ∀ field ∈ fields, IsName field.name
  distinct : (fields.map Field.name).Nodup

/-- What a member of the message struct refers to; `none` is a NULL array. -/
def FieldType.Value : FieldType → Type
  | .dataarr => Option (List Bytes)
  | .longarr => Option (List Word)
  | .data => Bytes
  | .long => Word

/-- `struct ycl_msg_%s` as the caller of `ycl_msg_create_%s` fills it in. -/
inductive Members : List Field → Type where
  | nil : Members []
  | cons {field : Field} {fields : List Field} (value : field.typ.Value) (rest : Members fields) :
      Members (field :: fields)

/-- The size of `numbuf`. -/
def numbufSize : ℕ := 48

/-- The loop of `l2s`, with the room that is left in front of what is written;
the shift keeps the sign. -/
def l2s : ℕ → Word → Bytes → Bytes
  | 0, _, s => s
  | len + 1, l, s =>
    let s := UInt8.ofNat (48 + (l &&& 7#64).toNat) :: s
    let l := l.sshiftRight 3
    if l = 0 then s else l2s len l s

/-- The loop of `s2l` over the memory from `s` on. -/
def s2l : Word → Bytes → Word
  | res, [] => res
  | res, ch :: s =>
    if 48 ≤ ch ∧ ch ≤ 55 then s2l ((res <<< 3) + BitVec.ofNat 64 (ch.toNat - 48)) s else res

def longText (l : Word) : Bytes := l2s numbufSize l []

def appendData (msg : YclMsg) (name data : Bytes) : YclMsg :=
  if data.length > 0 then { msg with mbuf := netstringAppendPair msg.mbuf name data } else msg

def appendLong (msg : YclMsg) (name : Bytes) (l : Word) : YclMsg :=
  if l ≠ 0 then { msg with mbuf := netstringAppendPair msg.mbuf name (longText l) } else msg

def appendArray (msg : YclMsg) (name : Bytes) : Option (List Bytes) → YclMsg
  | none => msg
  | some elems =>
    if elems.length > 0 then
      let optbuf := netstringAppendList msg.optbuf.clear elems
      { msg with optbuf := optbuf, mbuf := netstringAppendPair msg.mbuf name optbuf.contents }
    else msg

/-- The block of `ycl_msg_create_%s` for a field. -/
def appendField (msg : YclMsg) : (field : Field) → field.typ.Value → YclMsg
  | ⟨.data, name⟩, data => appendData msg name data
  | ⟨.long, name⟩, l => appendLong msg name l
  | ⟨.dataarr, name⟩, elems => appendArray msg name elems
  | ⟨.longarr, name⟩, elems => appendArray msg name (Option.map (List.map longText) elems)

def appendFields : {fields : List Field} → Members fields → YclMsg → YclMsg
  | _, .nil, msg => msg
  | _, .cons value rest, msg => appendFields rest (appendField msg _ value)

def yclMsgCreate (schema : Schema) (r : Members schema.fields) (msg : YclMsg) : YclMsg :=
  let msg := yclMsgReset msg
  if schema.fields = [] then { msg with buf := msg.buf.adata [48, 58, 44] }
  else
    let msg := appendFields r msg
    { msg with buf := netstringAppendBuf msg.buf msg.mbuf.contents }

structure YclData where
  len : Word
  data : Word
deriving DecidableEq

/-- The words of a member of the message struct, as `ycl_msg_parse_%s` leaves
them. -/
inductive Slot where
  | data (data : YclData)
  | long (l : Word)
  | arr (ptr nelems : Word)
deriving DecidableEq

/-- What `memset` makes of a member. -/
def FieldType.zero : FieldType → Slot
  | .dataarr | .longarr => .arr 0 0
  | .data => .data ⟨0, 0⟩
  | .long => .long 0

/-- The loop of `load_datas` and `load_longs`: `emit` gives the bytes of one
element. `none` is an element that does not parse. -/
def loadLoop (emit : Bytes → Slice → Bytes) (b : Buf) (cur : Cursor) (count : ℕ) :
    Option ℕ × Buf × Bytes :=
  if cur.datalen > 0 then
    match _hnext : netstringNext cur with
    | (.error _, cur) => (none, b, cur.mem)
    | (.ok elem, after) => loadLoop emit (b.adata (emit after.mem elem)) after (count + 1)
  else (some count, b, cur.mem)
termination_by cur.datalen
decreasing_by exact netstringNext_datalen_lt _hnext

/-- The offset of the elements stands in for their address until the buffer
does not grow any more. -/
def load (emit : Bytes → Slice → Bytes) (b : Buf) (mem : Bytes) (value : Slice) :
    Option Slot × Bytes × Buf :=
  let b := b.align
  let offset := b.len
  match loadLoop emit b ⟨mem, value.off, value.len⟩ 0 with
  | (none, b, mem) => (none, mem, b)
  | (some count, b, mem) => (some (.arr (BitVec.ofNat 64 offset) (BitVec.ofNat 64 count)), mem, b)

def wordBytes (word : Word) : Bytes := littleEndian 8 word.toNat

def YclData.toBytes (data : YclData) : Bytes := wordBytes data.len ++ wordBytes data.data

/-- A pointer to bytes of `buf`. -/
def dataAt (bufAddr : Word) (bytes : Slice) : YclData :=
  ⟨BitVec.ofNat 64 bytes.len, bufAddr + BitVec.ofNat 64 bytes.off⟩

def loadDatas (bufAddr : Word) : Buf → Bytes → Slice → Option Slot × Bytes × Buf :=
  load fun _ elem => (dataAt bufAddr elem).toBytes

def loadLongs : Buf → Bytes → Slice → Option Slot × Bytes × Buf :=
  load fun mem elem => wordBytes (s2l 0 (mem.drop elem.off))

def loadField (bufAddr : Word) (b : Buf) (mem : Bytes) (value : Slice) :
    FieldType → Option Slot × Bytes × Buf
  | .dataarr => loadDatas bufAddr b mem value
  | .longarr => loadLongs b mem value
  | .data => (some (.data (dataAt bufAddr value)), mem, b)
  | .long => (some (.long (s2l 0 (mem.drop value.off))), mem, b)

/-- The search for a key starts where the next field is expected and goes around
once. -/
def search (fields : List Field) (key : Bytes) (pairoff : ℕ) : ℕ → ℕ → Option (ℕ × FieldType)
  | 0, _ => none
  | n + 1, currpair =>
    match fields[currpair]? with
    | none => none
    | some field =>
      if key = field.name then some (currpair, field.typ)
      else
        let currpair := (currpair + 1) % fields.length
        if currpair ≠ pairoff then search fields key pairoff n currpair else none

/-- What the loop over the pairs works on; the cursor is over the memory of
`buf`. -/
structure Parsing where
  cur : Cursor
  mbuf : Buf
  r : List Slot

inductive Status where
  | ok
  | err
deriving DecidableEq

/-- The loop of `ycl_msg_parse_%s`. A key that is no field is skipped. -/
def pairLoop (fields : List Field) (bufAddr : Word) (st : Parsing) (pairoff : ℕ) :
    Status × Parsing :=
  match _hnext : netstringNextPair st.cur with
  | (.error _, cur) => (.ok, { st with cur := cur })
  | (.ok pair, cur) =>
    let nextoff := (pairoff + 1) % fields.length
    match search fields (stringAt cur.mem pair.key.off) pairoff fields.length pairoff with
    | none => pairLoop fields bufAddr { st with cur := cur } nextoff
    | some (currpair, typ) =>
      match loadField bufAddr st.mbuf cur.mem pair.value typ with
      | (none, mem, mbuf) => (.err, ⟨{ cur with mem := mem }, mbuf, st.r⟩)
      | (some slot, mem, mbuf) =>
        pairLoop fields bufAddr ⟨{ cur with mem := mem }, mbuf, st.r.set currpair slot⟩ nextoff
termination_by st.cur.datalen
decreasing_by
  · exact netstringNextPair_datalen_lt _hnext
  · exact netstringNextPair_datalen_lt _hnext

def relocate (mbufAddr : Word) : Slot → Slot
  | .arr ptr nelems => if nelems > 0 then .arr (mbufAddr + ptr) nelems else .arr ptr nelems
  | slot => slot

/-- What `ycl_msg_parse_%s` returns, the memory of `buf` and the scratch buffer
after it, and the message struct. -/
structure Parsed where
  status : Status
  mem : Bytes
  mbuf : Buf
  r : List Slot

/-- `bufAddr` is the address of `buf`, and `mbufAddr` the one that `mbuf` has in
the end. -/
def yclMsgParse (schema : Schema) (bufAddr mbufAddr : Word) (msg : YclMsg) : Parsed :=
  let zeros := schema.fields.map fun field => field.typ.zero
  if schema.fields = [] then ⟨.ok, msg.buf.data, msg.mbuf, zeros⟩
  else
    let mbuf := msg.mbuf.clear
    match netstringParse msg.buf.data 0 msg.buf.len with
    | (.error _, mem) => ⟨.err, mem, mbuf, zeros⟩
    | (.ok out, mem) =>
      match pairLoop schema.fields bufAddr ⟨⟨mem, out.off, out.len⟩, mbuf, zeros⟩ 0 with
      | (.err, st) => ⟨.err, st.cur.mem, st.mbuf, st.r⟩
      | (.ok, st) => ⟨.ok, st.cur.mem, st.mbuf, st.r.map (relocate mbufAddr)⟩

end Yans.Ycl
