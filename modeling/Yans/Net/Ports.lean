import Yans.Library.Decimal
import Yans.Library.Intervals
import Yans.Util.Buf

/-! `lib/net/ports.c`: sets of ports as arrays of ranges, sorted and merged when
they are used. The array is as long as its allocation; the entries behind
`nranges` are whatever an earlier use has left there. -/
namespace Yans.Net.Ports

open Library Library.Memory Library.Decimal Util

structure PortRange where
  start : UInt16
  end_ : UInt16
deriving DecidableEq

/-- `cap` is the length of `ranges`, `dirty` the flag `PORT_RANGES_DIRTY`. -/
structure PortRanges where
  ranges : List PortRange
  nranges : ℕ
  currRange : ℕ
  currPort : UInt16
  dirty : Bool
deriving DecidableEq

namespace PortRanges

def cap (rs : PortRanges) : ℕ := rs.ranges.length

def entries (rs : PortRanges) : List PortRange := rs.ranges.take rs.nranges

def zero : PortRanges := ⟨[], 0, 0, 0, false⟩

end PortRanges

def dirtLimit : ℕ := 65536

def rangecmp (r₀ r₁ : PortRange) : ℤ :=
  if r₀.start = r₁.start then (r₀.end_.toNat : ℤ) - r₁.end_.toNat
  else (r₀.start.toNat : ℤ) - r₁.start.toNat

/-- Equal entries are the same, so that every sorting function gives this. -/
def qsort (ranges : List PortRange) : List PortRange :=
  ranges.insertionSort fun r₀ r₁ => rangecmp r₀ r₁ ≤ 0

/-- The sums are computed as `int` and do not wrap. -/
def joins (curr next : PortRange) : Bool := curr.end_.toNat + 1 ≥ next.start.toNat

def absorb (curr next : PortRange) : PortRange :=
  if next.end_ > curr.end_ then { curr with end_ := next.end_ } else curr

/-- The entries are moved with `memmove`, and `nranges` stays as it is during
the scan. -/
def compressRanges (ranges : List PortRange) (nranges : ℕ) : List PortRange × ℕ :=
  Compaction.compact joins absorb false ranges nranges

/-- `_undirtify` -/
def undirtifyAlways (rs : PortRanges) : PortRanges :=
  let sorted := qsort (rs.ranges.take rs.nranges) ++ rs.ranges.drop rs.nranges
  let (ranges, nranges) := compressRanges sorted rs.nranges
  { rs with ranges := ranges, nranges := nranges, dirty := false }

def undirtify (rs : PortRanges) : PortRanges := if rs.dirty then undirtifyAlways rs else rs

/-- Allocation succeeds; new entries hold zeros here. -/
def prepInsertion (rs : PortRanges) (needed : ℕ) : PortRanges :=
  let rs := if rs.nranges > dirtLimit then undirtify rs else rs
  if needed > rs.cap - rs.nranges then
    let n := rs.cap + needed
    let n := n + n / 2
    { rs with ranges := rs.ranges ++ List.replicate (n - rs.cap) ⟨0, 0⟩ }
  else rs

/-- Copy ranges to the array from index `at'` on. -/
def storeRanges (ranges : List PortRange) (at' : ℕ) (new : List PortRange) : List PortRange :=
  ranges.take at' ++ new ++ ranges.drop (at' + new.length)

def appendRanges (dst : PortRanges) (new : List PortRange) : PortRanges :=
  { dst with
    ranges := storeRanges dst.ranges dst.nranges new
    nranges := dst.nranges + new.length
    dirty := true }

def portRangesAddRange (dst : PortRanges) (r : PortRange) : PortRanges :=
  appendRanges (prepInsertion dst 1) [r]

def portRangesAddPort (dst : PortRanges) (port : UInt16) : PortRanges :=
  portRangesAddRange dst ⟨port, port⟩

/-- `from` may be `dst` itself: its ranges are read after `dst` is prepared. -/
def portRangesAddRanges (dst : PortRanges) (source : PortRanges) (same : Bool) : PortRanges :=
  if source.nranges = 0 then dst
  else
    let dst := prepInsertion dst source.nranges
    let source := if same then dst else source
    appendRanges dst source.entries

/-- An entry of the array; past its allocation the model reads zeros. -/
def rangeAt (rs : PortRanges) (i : ℕ) : PortRange := rs.ranges.getD i ⟨0, 0⟩

def portRangesReset (rs : PortRanges) : PortRanges := { rs with currRange := 0, currPort := 0 }

/-- `none` at the end of the iteration, which also resets it. -/
def portRangesNext (rs : PortRanges) : Option UInt16 × PortRanges :=
  let rs := undirtify rs
  if rs.currRange ≥ rs.nranges then (none, portRangesReset rs)
  else
    let r := rangeAt rs rs.currRange
    let rs := if rs.currRange = 0 ∧ rs.currPort = 0 then { rs with currPort := r.start } else rs
    let out := rs.currPort
    if r.end_ > rs.currPort then (some out, { rs with currPort := rs.currPort + 1 })
    else
      let rs := { rs with currRange := rs.currRange + 1 }
      (some out, { rs with currPort := (rangeAt rs rs.currRange).start })

/-- `IS_PORT_RANGE_SEP`: CR, LF, TAB, space and comma -/
def isPortRangeSep (ch : UInt8) : Bool :=
  ch = 13 || ch = 10 || ch = 9 || ch = 32 || ch = 44

def dash : UInt8 := 45

inductive S where
  | skipSep
  | parseLhs
  | parseRhs
deriving DecidableEq

/-- The local variables of `port_ranges_from_str`. -/
structure FromStr where
  s : S
  num : ℕ
  hasLhs : Bool
  hasRhs : Bool
  range : PortRange
  buf : Buf

/-- The bytes of a `struct port_range`. -/
def rangeBytes (r : PortRange) : Bytes :=
  littleEndian 2 r.start.toNat ++ littleEndian 2 r.end_.toNat

/-- `ends` swapped if they are the wrong way round. -/
def ordered (r : PortRange) : PortRange := if r.end_ < r.start then ⟨r.end_, r.start⟩ else r

def FromStr.append (p : FromStr) (r : PortRange) : FromStr :=
  { p with s := .skipSep, range := ⟨0, 0⟩, buf := p.buf.adata (rangeBytes r) }

/-- The case `PARSE_LHS`; `none` is `goto fail`. -/
def parseLhs (p : FromStr) (ch : UInt8) : Option FromStr :=
  if ch = dash ∨ isPortRangeSep ch then
    let p := { p with range := { p.range with start := UInt16.ofNat p.num } }
    if ch = dash then
      if ¬ p.hasLhs then none else some { p with num := 0, s := .parseRhs }
    else some (p.append (ordered ⟨p.range.start, p.range.start⟩))
  else if ¬ IsDigit ch then none
  else
    let num := p.num * 10 + digitValue ch
    if num > 65535 then none else some { p with hasLhs := true, num := num }

def parseRhs (p : FromStr) (ch : UInt8) : Option FromStr :=
  if isPortRangeSep ch then
    if ¬ p.hasRhs then none
    else some (p.append (ordered { p.range with end_ := UInt16.ofNat p.num }))
  else if ¬ IsDigit ch then none
  else
    let num := p.num * 10 + digitValue ch
    if num > 65535 then none else some { p with hasRhs := true, num := num }

def fromStrStep (p : FromStr) (ch : UInt8) : Option FromStr :=
  match p.s with
  | .skipSep =>
    if isPortRangeSep ch then some p
    else parseLhs { p with num := 0, hasLhs := false, hasRhs := false, s := .parseLhs } ch
  | .parseLhs => parseLhs p ch
  | .parseRhs => parseRhs p ch

/-- The loop over the string, with the offset of the character it fails at. -/
def fromStrLoop (p : FromStr) (off : ℕ) : Bytes → Except ℕ FromStr
  | [] => .ok p
  | ch :: rest =>
    match fromStrStep p ch with
    | none => .error off
    | some p => fromStrLoop p (off + 1) rest

def fromStrLast (p : FromStr) : Option Buf :=
  match p.s with
  | .skipSep => some p.buf
  | .parseLhs =>
    some (p.buf.adata (rangeBytes (ordered ⟨UInt16.ofNat p.num, UInt16.ofNat p.num⟩)))
  | .parseRhs =>
    if ¬ p.hasRhs then none
    else some (p.buf.adata (rangeBytes (ordered { p.range with end_ := UInt16.ofNat p.num })))

/-- Bytes read as an array of `struct port_range`. -/
def rangesOfBytes : Bytes → List PortRange
  | a :: b :: c :: d :: rest =>
    ⟨UInt16.ofNat (ofLittleEndian [a, b]), UInt16.ofNat (ofLittleEndian [c, d])⟩ ::
      rangesOfBytes rest
  | _ => []

/-- The ranges take over the buffer, or are empty. -/
def takeBuf (buf : Buf) : PortRanges :=
  if buf.len ≥ 4 then ⟨rangesOfBytes buf.data, buf.len / 4, 0, 0, true⟩ else .zero

/-- The failure offset, if it fails, and the ranges. -/
def portRangesFromStr (s : Bytes) : Option ℕ × PortRanges :=
  if s = [] then (none, .zero)
  else
    match fromStrLoop ⟨.skipSep, 0, false, false, ⟨0, 0⟩, Buf.init (256 * 4)⟩ 0 s with
    | .error off => (some off, .zero)
    | .ok p =>
      match fromStrLast p with
      | none => (some s.length, .zero)
      | some buf => (none, takeBuf buf)

/-- The size of `pad`. -/
def padSize : ℕ := 16

/-- What `append_range` prints behind the separator. -/
def rangeText (r : PortRange) : Bytes :=
  if r.start = r.end_ then numeral r.start.toNat
  else numeral r.start.toNat ++ dash :: numeral r.end_.toNat

/-- `none` is a text that does not fit. -/
def appendRange (buf : Buf) (r : PortRange) (sep : Bytes) : Option Buf :=
  let pad := sep ++ rangeText r
  if pad.length = 0 ∨ pad.length ≥ padSize then none else some (buf.adata pad)

/-- The loop over the ranges behind the current one. -/
def printRanges (buf : Buf) : List PortRange → Option Buf
  | [] => some buf
  | r :: rest => do
    let buf ← appendRange buf r [32]
    printRanges buf rest

/-- The current range is printed with its start set to `curr_port` for a moment.
`none` is a failure. -/
def portRangesToBuf (rs : PortRanges) (buf : Buf) : Option (Buf × PortRanges) :=
  let rs := undirtify rs
  let buf := buf.clear
  if rs.currRange ≥ rs.nranges then some (buf, rs)
  else do
    let r := rangeAt rs rs.currRange
    let rs := if rs.currRange = 0 ∧ rs.currPort = 0 then { rs with currPort := r.start } else rs
    let buf ← appendRange buf { r with start := rs.currPort } []
    let buf ← printRanges buf (rs.entries.drop (rs.currRange + 1))
    pure (buf, rs)

end Yans.Net.Ports
