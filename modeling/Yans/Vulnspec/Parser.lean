import Yans.Library.Strings
import Yans.Util.Buf
import Yans.Util.Objtbl
import Yans.Vulnspec.Format
import Yans.Vulnspec.Reader

/-! `lib/vulnspec/parser.c` and `progn.c`: the compiler. Nodes are allocated in
the program while the text is read and linked by offsets, and strings go
through a table so that equal ones share their bytes. A computation that bails
out keeps the state it had reached. -/
namespace Yans.Vulnspec

open Library.Memory Library.Strings Util Util.Objtbl Util.Vaguever

def uint32Max : ℕ := 2 ^ 32 - 1

/-- `vulnspec_progn_alloc`: the offset of new aligned room, if it has 32 bits. -/
def vulnspecPrognAlloc (progn : Buf) (len : ℕ) : Option ℕ × Buf :=
  match progn.alloc len with
  | none => (none, progn)
  | some (off, buf) => if off > uint32Max then (none, buf.align) else (some off, buf.align)

/-- `str` is the memory that the pointer of the entry leads to. -/
structure StrtabEntry where
  str : Bytes
  len : ℕ
  val : ℕ
deriving DecidableEq, Inhabited

def strtabCmp (key entry : StrtabEntry) : ℤ := memcmp (min key.len entry.len) key.str entry.str

def strtabHash (entry : StrtabEntry) (seed : UInt32) : UInt32 := objtblStrhash (some entry.str) seed

/-- `strtab_new` copies the string up to its first zero. -/
def strtabNew (s : Bytes) (len val : ℕ) : StrtabEntry := ⟨s.takeWhile (· ≠ 0) ++ [0], len, val⟩

def strtabOpts : ObjtblOpts StrtabEntry := ⟨0, strtabHash, strtabCmp⟩

def strtabEntries : UInt32 := 4096

structure Parser where
  vtype : VersionType
  strtab : ObjtblCtx StrtabEntry
  progn : Buf
  r : Reader

/-- A computation that may bail out with a code; `none` is one that is not over
yet. -/
def ParserM (α : Type) : Type := Parser → Option (Except Code α × Parser)

namespace ParserM

def pure {α : Type} (a : α) : ParserM α := fun p => some (.ok a, p)

def bind {α β : Type} (m : ParserM α) (f : α → ParserM β) : ParserM β := fun p =>
  match m p with
  | none => none
  | some (.error err, p) => some (.error err, p)
  | some (.ok a, p) => f a p

instance : Monad ParserM where
  pure := pure
  bind := bind

def bail {α : Type} (err : Code) : ParserM α := fun p => some (.error err, p)

def failIf (condition : Prop) [Decidable condition] (err : Code) : ParserM Unit :=
  if condition then bail err else pure ()

def unfinished {α : Type} : ParserM α := fun _ => none

def get : ParserM Parser := fun p => some (.ok p, p)

/-- The 32-bit fields of a node from an offset on. -/
def storeWords (off : ℕ) (words : List ℕ) : ParserM Unit := fun p =>
  some (.ok (), { p with progn := p.progn.store off (words.flatMap (littleEndian 4)) })

def storeBytes (off : ℕ) (bytes : Bytes) : ParserM Unit := fun p =>
  some (.ok (), { p with progn := p.progn.store off bytes })

def setVtype (vtype : VersionType) : ParserM Unit := fun p =>
  some (.ok (), { p with vtype := vtype })

def readToken : ParserM Token := fun p =>
  let (token, r) := vulnspecReadToken p.r
  some (.ok token, { p with r := r })

def expect (t : Token) : ParserM Unit := do
  let token ← readToken
  failIf (token ≠ t) .eunexpectedToken

def prognAlloc (len : ℕ) : ParserM ℕ := fun p =>
  match vulnspecPrognAlloc p.progn len with
  | (none, progn) => some (.error .emalloc, { p with progn := progn })
  | (some off, progn) => some (.ok off, { p with progn := progn })

def strtabGet (key : StrtabEntry) : ParserM (ObjtblCode × Option StrtabEntry) := fun p =>
  (objtblGet p.strtab (some key)).map fun reply => (.ok reply, p)

def strtabInsert (ent : StrtabEntry) : ParserM ObjtblCode := fun p =>
  (objtblInsert p.strtab (some ent)).map fun (ret, strtab) => (.ok ret, { p with strtab := strtab })

/-- The lengths are `size_t` in the table and 32 bits wide in the program. -/
def cvalueOf (ent : StrtabEntry) : Cvalue := ⟨ent.len % 2 ^ 32, ent.val⟩

def loads : ParserM Cvalue := do
  expect .tstring
  let p ← get
  let str := vulnspecReaderString p.r ++ [0]
  let e : StrtabEntry := ⟨str, str.length, 0⟩
  match ← strtabGet e with
  | (.ok, some ent) => return cvalueOf ent
  | (.enotfound, _) =>
    let val ← prognAlloc e.len
    storeBytes val e.str
    let ent := strtabNew e.str e.len val
    let ret ← strtabInsert ent
    failIf (ret ≠ .ok) .estrtab
    return cvalueOf ent
  | _ => bail .estrtab

/-- The symbols are C strings: what follows a zero byte is not looked at. -/
def symbol2node (symbol : Bytes) : NodeType :=
  let sym := symbol.takeWhile (· ≠ 0)
  if sym = [118] then .or
  else if sym = [94] then .and
  else if sym = [60] then .lt
  else if sym = [60, 61] then .le
  else if sym = [61] then .eq
  else if sym = [62, 61] then .ge
  else if sym = [62] then .gt
  else if sym = [99, 118, 101] then .cve
  else if sym = [110, 97, 108, 112, 104, 97] then .nalpha
  else .invalid

def readSymbol : ParserM NodeType := do
  let t ← readToken
  failIf (t ≠ .tsymbol) .eunexpectedToken
  let p ← get
  return symbol2node p.r.symbol

def vagueverWords (v : VagueverVersion) : List ℕ :=
  v.nused.toUInt32.toNat :: v.fields.toList.map fun field => field.toUInt32.toNat

/-- The version of a comparison is read and the node is filled in. -/
def comparFields (t : NodeType) (compar : ℕ) (cvendprod : Cvalue) : ParserM Unit := do
  let p ← get
  if p.vtype = .vvague then
    -- the version is not a string of the program
    expect .tstring
    let p ← get
    let versionstr := (vulnspecReaderString p.r).takeWhile (· ≠ 0)
    storeWords compar ([t.toCode, cvendprod.length, cvendprod.offset, 0] ++
      vagueverWords (vagueverInit versionstr))
  else
    let cversion ← loads
    storeWords compar [t.toCode, cvendprod.length, cvendprod.offset, 1, cversion.length,
      cversion.offset]

def compar (t : NodeType) : ParserM ℕ := do
  let compar ← prognAlloc comparSize
  let cvendprod ← loads
  comparFields t compar cvendprod
  expect .trparen
  return compar

/-- The `next` of the node before, if there is one. -/
def linkNext (prev curr : ℕ) : ParserM Unit :=
  if prev ≠ 0 then storeWords (prev + 4) [curr] else pure ()

mutual

def vulnexpr : ℕ → ParserM ℕ
  | 0 => unfinished
  | fuel + 1 => do
    let nodet ← readSymbol
    if nodet.isCompar then
      compar nodet
    else if nodet.isBoolean then
      boolean nodet fuel 0 0
    else if nodet = .nalpha then
      let p ← get
      let tmp := p.vtype
      setVtype .vnalpha
      expect .tlparen
      let val ← vulnexpr fuel
      expect .trparen
      setVtype tmp
      return val
    else
      bail .eunexpectedToken

/-- The loop of `boolean`; an offset of zero stands for no node yet. -/
def boolean (nodet : NodeType) : ℕ → ℕ → ℕ → ParserM ℕ
  | 0, _, _ => unfinished
  | fuel + 1, bnode, prev => do
    let tok ← readToken
    if tok = .tlparen then
      let curr ← prognAlloc booleanSize
      let bnode := if bnode = 0 then curr else bnode
      let val ← vulnexpr fuel
      storeWords curr [nodet.toCode]
      storeWords (curr + 8) [val]
      linkNext prev curr
      boolean nodet fuel bnode curr
    else if tok ≠ .trparen then
      bail .eunexpectedToken
    else if bnode = 0 then
      bail .eunexpectedToken
    else
      return bnode

end

/-- `fixedPoint` is the conversion `(uint32_t)(dval * 100.0)`. -/
def cve (fixedPoint : Num → UInt32) (fuel : ℕ) : ParserM ℕ := do
  let cve ← prognAlloc cveSize
  let id ← loads
  storeWords (cve + 16) [id.length, id.offset]
  expect .tdouble
  let p ← get
  storeWords (cve + 8) [(fixedPoint p.r.num).toNat]
  expect .tdouble
  let p ← get
  storeWords (cve + 12) [(fixedPoint p.r.num).toNat]
  storeWords cve [NodeType.cve.toCode]
  let description ← loads
  storeWords (cve + 24) [description.length, description.offset]
  expect .tlparen
  let vexpr ← vulnexpr fuel
  storeWords (cve + 32) [vexpr]
  return cve

/-- The loop of `vulnspec_parse`. -/
def parseLoop (fixedPoint : Num → UInt32) : ℕ → ℕ → ParserM Unit
  | 0, _ => unfinished
  | fuel + 1, prev => do
    let tok ← readToken
    if tok = .teof then
      return ()
    else
      failIf (tok ≠ .tlparen) .eunexpectedToken
      let nodet ← readSymbol
      failIf (nodet ≠ .cve) .eunexpectedToken
      let curr ← cve fixedPoint fuel
      expect .trparen
      linkNext prev curr
      parseLoop fixedPoint fuel curr

end ParserM

def defaultPrognSize : ℕ := 512 * 1024

def vulnspecParserInit : Option Parser := do
  let strtab ← objtblInit strtabOpts strtabEntries
  return ⟨.vvague, strtab, Buf.init defaultPrognSize, vulnspecReaderInit []⟩

/-- The reader and the program start over; the string table and the version
type stay as the last call left them. -/
def vulnspecParse (fixedPoint : Num → UInt32) (p : Parser) (input : Bytes) (fuel : ℕ) :
    Option (Except Code Unit × Parser) :=
  ParserM.parseLoop fixedPoint fuel 0
    { p with r := vulnspecReaderInit input, progn := p.progn.clear.adata header }

def vulnspecParserData (p : Parser) : Bytes := p.progn.contents

end Yans.Vulnspec
