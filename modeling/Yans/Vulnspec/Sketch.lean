import Yans.Library.Computations
import Yans.Vulnspec.Strtab
import Yans.Vulnspec.Words

/-! What the words of a text make of a program in a place that nobody used
before. A sketch has no table and no buffer: it lists the strings it entered,
the strings it looked up and the bytes it wrote. -/
namespace Yans.Vulnspec

open Library.Memory Library.Computations Util Util.Objtbl Util.Vaguever

structure Sketch where
  words : List Word
  vtype : VersionType
  strings : List StrtabEntry
  len : ℕ
  looked : List Bytes
  /-- A version outside of `nalpha` has been read. -/
  vague : Bool
  writes : List (ℕ × Bytes)

/-- The byte written last at an offset, if one was. -/
def Sketch.written (s : Sketch) (i : ℕ) : Option UInt8 :=
  (s.writes.find? fun write => write.1 ≤ i ∧ i < write.1 + write.2.length).map fun write =>
    byteAt write.2 (i - write.1)

abbrev SketchM (α : Type) : Type := Computation Sketch Code α

namespace SketchM

def readToken : SketchM Token := fun s =>
  match s.words with
  | [] => some (.ok .teof, s)
  | word :: words => some (.ok word.token, { s with words := words })

def take {α : Type} (test : Word → Option α) : SketchM α := fun s =>
  match s.words with
  | [] => some (.error .eunexpectedToken, s)
  | word :: words =>
    match test word with
    | none => some (.error .eunexpectedToken, { s with words := words })
    | some a => some (.ok a, { s with words := words })

def expect (t : Token) : SketchM Unit := take fun word => if word.token = t then some () else none

def readText : SketchM Bytes := take fun
  | .string text => some text
  | _ => none

def readNum : SketchM Num := take fun
  | .double num => some num
  | _ => none

def readSymbol : SketchM NodeType := take fun
  | .symbol name => some (ParserM.symbol2node name.bytes)
  | _ => none

def vtype : SketchM VersionType := fun s => some (.ok s.vtype, s)

def setVtype (vtype : VersionType) : SketchM Unit := fun s =>
  some (.ok (), { s with vtype := vtype })

def versionRead : SketchM Unit := fun s => some (.ok (), { s with vague := true })

def alloc (len : ℕ) : SketchM ℕ := fun s =>
  let after := { s with len := Buf.alignOffset (s.len + len) }
  if s.len > uint32Max then some (.error .emalloc, after) else some (.ok s.len, after)

/-- A write outside of the program has no meaning. -/
def storeBytes (off : ℕ) (bytes : Bytes) : SketchM Unit := fun s =>
  if off + bytes.length ≤ s.len then
    some (.ok (), { s with writes := (off, bytes) :: s.writes })
  else none

def storeWords (off : ℕ) (words : List ℕ) : SketchM Unit :=
  storeBytes off (words.flatMap (littleEndian 4))

def find (text : Bytes) : SketchM (Option StrtabEntry) := fun s =>
  some (.ok (s.strings.find? ((copyHashing bare).same (keyOf text))),
    { s with looked := text :: s.looked })

def enter (ent : StrtabEntry) : SketchM Unit := fun s =>
  some (.ok (), { s with strings := (copyHashing bare).liveInsert ent s.strings })

def addString (text : Bytes) : SketchM Cvalue := do
  let val ← alloc (keyOf text).len
  storeBytes val (keyOf text).str
  let ent := strtabNew (keyOf text).str (keyOf text).len val
  enter ent
  return ParserM.cvalueOf ent

def intern (text : Bytes) : SketchM Cvalue := do
  match ← find text with
  | some ent => return ParserM.cvalueOf ent
  | none => addString text

def loads : SketchM Cvalue := do
  let text ← readText
  intern text

def comparFields (t : NodeType) (compar : ℕ) (cvendprod : Cvalue) : SketchM Unit := do
  let vtype ← vtype
  if vtype = .vvague then
    let text ← readText
    versionRead
    storeWords compar ([t.toCode, cvendprod.length, cvendprod.offset, 0] ++
      ParserM.vagueverWords (vagueverInit (text.takeWhile (· ≠ 0))))
  else
    let cversion ← loads
    storeWords compar [t.toCode, cvendprod.length, cvendprod.offset, 1, cversion.length,
      cversion.offset]

def compar (t : NodeType) : SketchM ℕ := do
  let compar ← alloc comparSize
  let cvendprod ← loads
  comparFields t compar cvendprod
  expect .trparen
  return compar

def linkNext (prev curr : ℕ) : SketchM Unit :=
  if prev ≠ 0 then storeWords (prev + 4) [curr] else pure ()

mutual

def vulnexpr : ℕ → SketchM ℕ
  | 0 => fun _ => none
  | fuel + 1 => do
    let nodet ← readSymbol
    if nodet.isCompar then
      compar nodet
    else if nodet.isBoolean then
      boolean nodet fuel 0 0
    else if nodet = .nalpha then
      let tmp ← vtype
      setVtype .vnalpha
      expect .tlparen
      let val ← vulnexpr fuel
      expect .trparen
      setVtype tmp
      return val
    else
      Computation.bail .eunexpectedToken

def boolean (nodet : NodeType) : ℕ → ℕ → ℕ → SketchM ℕ
  | 0, _, _ => fun _ => none
  | fuel + 1, bnode, prev => do
    let tok ← readToken
    if tok = .tlparen then
      let curr ← alloc booleanSize
      let bnode := if bnode = 0 then curr else bnode
      let val ← vulnexpr fuel
      storeWords curr [nodet.toCode]
      storeWords (curr + 8) [val]
      linkNext prev curr
      boolean nodet fuel bnode curr
    else if tok ≠ .trparen then
      Computation.bail .eunexpectedToken
    else if bnode = 0 then
      Computation.bail .eunexpectedToken
    else
      return bnode

end

def cve (fixedPoint : Num → UInt32) (fuel : ℕ) : SketchM ℕ := do
  let cve ← alloc cveSize
  let id ← loads
  storeWords (cve + 16) [id.length, id.offset]
  let cvss2 ← readNum
  storeWords (cve + 8) [(fixedPoint cvss2).toNat]
  let cvss3 ← readNum
  storeWords (cve + 12) [(fixedPoint cvss3).toNat]
  storeWords cve [NodeType.cve.toCode]
  let description ← loads
  storeWords (cve + 24) [description.length, description.offset]
  expect .tlparen
  let vexpr ← vulnexpr fuel
  storeWords (cve + 32) [vexpr]
  return cve

def parseLoop (fixedPoint : Num → UInt32) : ℕ → ℕ → SketchM Unit
  | 0, _ => fun _ => none
  | fuel + 1, prev => do
    let tok ← readToken
    if tok = .teof then
      return ()
    else if tok ≠ .tlparen then
      Computation.bail .eunexpectedToken
    else
      let nodet ← readSymbol
      if nodet ≠ .cve then
        Computation.bail .eunexpectedToken
      else
        let curr ← cve fixedPoint fuel
        expect .trparen
        linkNext prev curr
        parseLoop fixedPoint fuel curr

end SketchM

/-- The header is there before the first word is read. -/
def emptySketch (words : List Word) : Sketch :=
  ⟨words, .vvague, [], headerSize, [], false, [(0, header)]⟩

def sketchParse (fixedPoint : Num → UInt32) (words : List Word) (fuel : ℕ) :
    Option (Except Code Unit × Sketch) :=
  SketchM.parseLoop fixedPoint fuel 0 (emptySketch words)

end Yans.Vulnspec
