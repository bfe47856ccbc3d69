import Yans.Library.Decimal
import Yans.Library.Memory

/-! `lib/vulnspec/reader.c`: tokens from a stream of bytes. The payload of a
token stays in the reader until it is overwritten. Signed arithmetic wraps:
`long` has 64 bits and `int` has 32. Rows and columns are not modelled. -/
namespace Yans.Vulnspec

open Library.Memory Library.Decimal

inductive Token where
  | tinvalid
  | teof
  | tlparen
  | trparen
  | tstring
  | tlong
  | tdouble
  | tsymbol
deriving DecidableEq

def wrapLong (n : ℤ) : ℤ := n.bmod (2 ^ 64)

def wrapInt (n : ℤ) : ℤ := n.bmod (2 ^ 32)

/-- The union `num`; a double is the quotient that it was computed as. -/
inductive Num where
  | dval (ival fpdiv : ℤ)
  | ival (n : ℤ)
deriving DecidableEq

structure Reader where
  input : Bytes
  symbol : Bytes
  sval : Bytes
  num : Num
deriving DecidableEq

def isBlank (ch : UInt8) : Bool := ch = 32 ∨ ch = 9 ∨ ch = 13 ∨ ch = 10

def isDelimiter (ch : UInt8) : Bool := ch = 40 ∨ ch = 41 ∨ isBlank ch

def isNumberStart (ch : UInt8) : Bool := ch = 46 ∨ ch = 45 ∨ IsDigit ch

/-- The loop of `read_number`: `none` for a second dot or an overflow that
shows, and the input that is left. -/
def readNumberLoop : Bytes → ℤ → ℤ → Option (ℤ × ℤ) × Bytes
  | [], ival, fpdiv => (some (ival, fpdiv), [])
  | ch :: rest, ival, fpdiv =>
    if ch ≠ 46 ∧ ¬ IsDigit ch then (some (ival, fpdiv), ch :: rest)
    else
      let fpdiv := wrapInt (fpdiv * 10)
      if ch = 46 then
        if fpdiv ≠ 0 then (none, rest) else readNumberLoop rest ival 1
      else
        let tmp := wrapLong (wrapLong (ival * 10) + digitValue ch)
        if tmp < ival then (none, rest) else readNumberLoop rest tmp fpdiv

def readNumber (r : Reader) (first : UInt8) : Token × Reader :=
  let ival : ℤ := if IsDigit first then digitValue first else 0
  let fpdiv : ℤ := if first = 46 then 1 else 0
  match readNumberLoop r.input ival fpdiv with
  | (none, rest) => (.tinvalid, { r with input := rest })
  | (some (ival, fpdiv), rest) =>
    let ival := if first = 45 then wrapLong (-ival) else ival
    if fpdiv ≠ 0 then (.tdouble, { r with input := rest, num := .dval ival fpdiv })
    else (.tlong, { r with input := rest, num := .ival ival })

/-- The loop of `read_string`, with what `sval` holds so far. -/
def readStringLoop : Bytes → Bytes → Token × Bytes × Bytes
  | [], sval => (.tinvalid, sval, [])
  | ch :: rest, sval =>
    if ch = 34 then (.tstring, sval ++ [0], rest)
    else if ch = 92 then
      match rest with
      | [] => (.tinvalid, sval, [])
      | ch :: rest => readStringLoop rest (sval ++ [ch])
    else readStringLoop rest (sval ++ [ch])

def readString (r : Reader) : Token × Reader :=
  let (token, sval, rest) := readStringLoop r.input []
  (token, { r with input := rest, sval := sval })

/-- The loop of the reader's `read_symbol`; `symbol` has room for 31 bytes and a
zero. -/
def readSymbolLoop : Bytes → Bytes → Token × Bytes × Bytes
  | [], symbol => (.tsymbol, symbol, [])
  | ch :: rest, symbol =>
    if isDelimiter ch then (.tsymbol, symbol, ch :: rest)
    else if (symbol ++ [ch]).length ≥ 31 then (.tinvalid, symbol ++ [ch], rest)
    else readSymbolLoop rest (symbol ++ [ch])

def readSymbolToken (r : Reader) : Token × Reader :=
  let (token, symbol, rest) := readSymbolLoop r.input []
  (token, { r with input := rest, symbol := symbol })

/-- The loop of `vulnspec_read_token` over the input that is left. -/
def readTokenLoop (r : Reader) : Bytes → Token × Reader
  | [] => (.teof, { r with input := [] })
  | ch :: rest =>
    if isBlank ch then readTokenLoop r rest
    else if ch = 40 then (.tlparen, { r with input := rest })
    else if ch = 41 then (.trparen, { r with input := rest })
    else if isNumberStart ch then readNumber { r with input := rest } ch
    else if ch = 34 then readString { r with input := rest }
    else readSymbolToken { r with input := ch :: rest }

def vulnspecReadToken (r : Reader) : Token × Reader := readTokenLoop r r.input

def vulnspecReaderInit (input : Bytes) : Reader := ⟨input, [], [], .ival 0⟩

/-- `vulnspec_reader_string`: the string without its zero, empty before the
first string. -/
def vulnspecReaderString (r : Reader) : Bytes := r.sval.dropLast

end Yans.Vulnspec
