import Yans.Library.Memory
import Yans.Library.Decimal

/-! `lib/util/vaguever.c`: versions of up to four numbers. Integer overflow is
ignored there, so the numbers are 32-bit words that wrap. -/
namespace Yans.Util.Vaguever

open Library.Memory Library.Decimal

structure VagueverVersion where
  nused : Int32
  fields : Vector Int32 4
deriving DecidableEq

/-- `memset(v, 0, sizeof(*v))`, also the parameter that was never set. -/
def zeroVersion : VagueverVersion := ⟨0, Vector.replicate 4 0⟩

/-- The version with `i` fields set. -/
def finish (fields : Vector Int32 4) (i : ℕ) : VagueverVersion :=
  ⟨Int32.ofNat (max i 1), fields⟩

/-- The loop of `vaguever_init` from `curr` on; the string ends with the list. -/
def initLoop : Bytes → ℕ → Int32 → Bool → Vector Int32 4 → VagueverVersion
  | [], i, val, hasval, fields =>
    if hasval then finish (fields.setIfInBounds i val) (i + 1) else finish fields i
  | ch :: curr, i, val, hasval, fields =>
    if IsDigit ch then
      initLoop curr i (val * 10 + Int32.ofNat (digitValue ch)) true fields
    else
      let fields := if hasval then fields.setIfInBounds i val else fields
      let i := if hasval then i + 1 else i
      if ch ≠ 46 ∨ i ≥ 4 then finish fields i else initLoop curr i 0 false fields

def vagueverInit (str : Bytes) : VagueverVersion :=
  initLoop str 0 0 false zeroVersion.fields

def cmpLoop : List Int32 → List Int32 → ℤ
  | left :: lefts, right :: rights =>
    let diff := (if left > right then 1 else 0) - (if left < right then 1 else 0)
    if diff ≠ 0 then diff else cmpLoop lefts rights
  | _, _ => 0

def vagueverCmp (v1 v2 : VagueverVersion) : ℤ := cmpLoop v1.fields.toList v2.fields.toList

end Yans.Util.Vaguever
