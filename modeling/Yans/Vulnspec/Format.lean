import Yans.Util.Vaguever

/-! `lib/vulnspec/vulnspec.h`: the layout of a compiled program. Nodes are C
structs at offsets into the program and refer to each other by 32-bit offsets;
words are little-endian, enumerations are four bytes wide. -/
namespace Yans.Vulnspec

open Library.Memory Util.Vaguever

/-- The error codes; `VULNSPEC_OK` is a result that is none of them. -/
inductive Code where
  | eunexpectedToken
  | emalloc
  | estrtab
  | einvalidOffset
  | einvalidNode
  | eload
  | eheader
deriving DecidableEq

def Code.toInt : Code → ℤ
  | .eunexpectedToken => -1
  | .emalloc => -2
  | .estrtab => -3
  | .einvalidOffset => -4
  | .einvalidNode => -5
  | .eload => -6
  | .eheader => -7

/-- `VULNSPEC_HEADER` with the terminating zero of the string literal. -/
def header : Bytes := [86, 77, 48, 0, 0, 0, 0, 0]

def headerSize : ℕ := 8

inductive NodeType where
  | invalid
  | cve
  | or
  | and
  | seq
  | lt
  | le
  | eq
  | ge
  | gt
  | nalpha
deriving DecidableEq

namespace NodeType

def toCode : NodeType → ℕ
  | .invalid => 0
  | .cve => 1
  | .or => 2
  | .and => 3
  | .seq => 4
  | .lt => 5
  | .le => 6
  | .eq => 7
  | .ge => 8
  | .gt => 9
  | .nalpha => 10

/-- `none` is a number that no enumerator has. -/
def ofCode : ℕ → Option NodeType
  | 0 => some .invalid
  | 1 => some .cve
  | 2 => some .or
  | 3 => some .and
  | 4 => some .seq
  | 5 => some .lt
  | 6 => some .le
  | 7 => some .eq
  | 8 => some .ge
  | 9 => some .gt
  | 10 => some .nalpha
  | _ => none

@[simp] theorem ofCode_toCode (type : NodeType) : ofCode type.toCode = some type := by
  cases type <;> rfl

theorem toCode_lt (type : NodeType) : type.toCode < 256 ^ 4 := by
  cases type <;> decide

/-- The node types that `vulnexpr` hands to `compar`. -/
def isCompar : NodeType → Bool
  | .lt | .le | .eq | .ge | .gt => true
  | _ => false

/-- The node types that `vulnexpr` hands to `boolean`. -/
def isBoolean : NodeType → Bool
  | .and | .or => true
  | _ => false

end NodeType

/-- `enum vulnspec_version_type`; other numbers occur in programs that nobody
compiled. -/
inductive VersionType where
  | vvague
  | vnalpha
  | other (n : ℕ)
deriving DecidableEq

def VersionType.ofCode : ℕ → VersionType
  | 0 => .vvague
  | 1 => .vnalpha
  | n => .other n

structure Cvalue where
  length : ℕ
  offset : ℕ
deriving DecidableEq

structure ComparNode where
  type : Option NodeType
  vendprod : Cvalue
  vtype : VersionType
  /-- The two readings of the union. -/
  vague : VagueverVersion
  cval : Cvalue
deriving DecidableEq

structure BooleanNode where
  type : Option NodeType
  next : ℕ
  value : ℕ
deriving DecidableEq

structure CveNode where
  type : Option NodeType
  next : ℕ
  cvss2Base : ℕ
  cvss3Base : ℕ
  id : Cvalue
  description : Cvalue
  vulnexpr : ℕ
deriving DecidableEq

def typeSize : ℕ := 4

def comparSize : ℕ := 36

def booleanSize : ℕ := 12

def cveSize : ℕ := 36

def read32 (mem : Bytes) (off : ℕ) : ℕ := readWord 4 mem off

def readInt32 (mem : Bytes) (off : ℕ) : Int32 := (UInt32.ofNat (read32 mem off)).toInt32

def typeAt (mem : Bytes) (off : ℕ) : Option NodeType := NodeType.ofCode (read32 mem off)

def cvalueAt (mem : Bytes) (off : ℕ) : Cvalue := ⟨read32 mem off, read32 mem (off + 4)⟩

def vagueverAt (mem : Bytes) (off : ℕ) : VagueverVersion where
  nused := readInt32 mem off
  fields := #v[readInt32 mem (off + 4), readInt32 mem (off + 8), readInt32 mem (off + 12),
    readInt32 mem (off + 16)]

def comparAt (mem : Bytes) (off : ℕ) : ComparNode where
  type := typeAt mem off
  vendprod := cvalueAt mem (off + 4)
  vtype := VersionType.ofCode (read32 mem (off + 12))
  vague := vagueverAt mem (off + 16)
  cval := cvalueAt mem (off + 16)

def booleanAt (mem : Bytes) (off : ℕ) : BooleanNode where
  type := typeAt mem off
  next := read32 mem (off + 4)
  value := read32 mem (off + 8)

def cveAt (mem : Bytes) (off : ℕ) : CveNode where
  type := typeAt mem off
  next := read32 mem (off + 4)
  cvss2Base := read32 mem (off + 8)
  cvss3Base := read32 mem (off + 12)
  id := cvalueAt mem (off + 16)
  description := cvalueAt mem (off + 24)
  vulnexpr := read32 mem (off + 32)

theorem read32_lt (mem : Bytes) (off : ℕ) : read32 mem off < 2 ^ 32 := readWord_lt 4 mem off

section Congr

variable {left right : Bytes} {off : ℕ}

theorem read32_congr {size k : ℕ}
    (h : ∀ i, off ≤ i → i < off + size → byteAt left i = byteAt right i) (hk : k + 4 ≤ size) :
    read32 left (off + k) = read32 right (off + k) := by
  apply readWord_congr
  intro i hi
  exact h _ (by omega) (by omega)

theorem cvalueAt_congr {size k : ℕ}
    (h : ∀ i, off ≤ i → i < off + size → byteAt left i = byteAt right i) (hk : k + 8 ≤ size) :
    cvalueAt left (off + k) = cvalueAt right (off + k) := by
  unfold cvalueAt
  rw [read32_congr h (by omega), Nat.add_assoc, read32_congr h (by omega)]

theorem vagueverAt_congr {size k : ℕ}
    (h : ∀ i, off ≤ i → i < off + size → byteAt left i = byteAt right i) (hk : k + 20 ≤ size) :
    vagueverAt left (off + k) = vagueverAt right (off + k) := by
  have hword : ∀ j, j ≤ 16 → readInt32 left (off + k + j) = readInt32 right (off + k + j) := by
    intro j hj
    unfold readInt32
    rw [Nat.add_assoc, read32_congr h (by omega)]
  have hfirst := hword 0 (by omega)
  rw [Nat.add_zero] at hfirst
  unfold vagueverAt
  rw [hfirst, hword 4 (by omega), hword 8 (by omega), hword 12 (by omega), hword 16 (by omega)]

theorem typeAt_congr {size : ℕ}
    (h : ∀ i, off ≤ i → i < off + size → byteAt left i = byteAt right i) (hsize : 4 ≤ size) :
    typeAt left off = typeAt right off :=
  congrArg NodeType.ofCode (@read32_congr _ _ _ _ 0 h hsize)

theorem comparAt_congr
    (h : ∀ i, off ≤ i → i < off + comparSize → byteAt left i = byteAt right i) :
    comparAt left off = comparAt right off := by
  unfold comparAt
  rw [typeAt_congr h (by decide), cvalueAt_congr h (by decide), read32_congr h (by decide),
    vagueverAt_congr h (by decide), cvalueAt_congr h (by decide)]

end Congr

end Yans.Vulnspec
