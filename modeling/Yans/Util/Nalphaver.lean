import Yans.Library.Memory
import Yans.Library.Decimal

/-! `lib/util/nalphaver.c`: versions as dot-separated fields of a number and a
suffix. A string is the list of its bytes without the terminating zero, a
pointer into it is what is left from there on. -/
namespace Yans.Util.Nalphaver

open Library.Memory Library.Decimal

def intMax : ℕ := 2 ^ 31 - 1

def uintMax : ℕ := 2 ^ 32 - 1

def ulongMax : ℕ := 2 ^ 64 - 1

/-- `isspace` of the C locale. -/
def isSpace (ch : UInt8) : Bool := ch = 32 ∨ 9 ≤ ch ∧ ch ≤ 13

/-- What is left of a number after the blanks and the sign. -/
def unsignedPart (nptr : Bytes) : Bytes :=
  let trimmed := nptr.dropWhile isSpace
  if trimmed.head? = some 45 ∨ trimmed.head? = some 43 then trimmed.tail else trimmed

/-- `strtoul` in base ten: blanks, an optional sign and digits, where a number
that does not fit gives `ULONG_MAX` and a sign negates modulo `2 ^ 64`. Without
digits nothing is consumed. -/
def strtoul (nptr : Bytes) : ℕ × Bytes :=
  let negative := (nptr.dropWhile isSpace).head? = some 45
  let unsigned := unsignedPart nptr
  let digits := unsigned.takeWhile (IsDigit ·)
  if digits = [] then (0, nptr)
  else
    let n := value 0 digits
    let l := if n > ulongMax then ulongMax else if negative then (2 ^ 64 - n) % 2 ^ 64 else n
    (l, unsigned.dropWhile (IsDigit ·))

structure NalphaverField where
  pos : Bytes
  suffix : Bytes
  val : ℕ
  suffixlen : ℕ

def next (na : NalphaverField) : Bool × NalphaverField :=
  if na.pos = [] then (false, { na with suffix := na.pos, val := 0, suffixlen := 0 })
  else
    let (l, cptr) := strtoul na.pos
    let off := min (cptr.takeWhile (· ≠ 46)).length uintMax
    (true,
      { pos := (cptr.drop off).dropWhile (· = 46)
        suffix := cptr
        val := min l intMax
        suffixlen := off })

/-- `strncmp`: the difference of the first two bytes that differ. -/
def strncmp : Bytes → Bytes → ℕ → ℤ
  | _, _, 0 => 0
  | left, right, n + 1 =>
    let a := left.headD 0
    let b := right.headD 0
    if a ≠ b then a.toNat - b.toNat
    else if a = 0 then 0
    else strncmp left.tail right.tail n

/-- A length converted to `int`. -/
def toInt (n : ℕ) : Int32 := (UInt32.ofNat n).toInt32

def cmp (l r : NalphaverField) : ℤ :=
  let val : ℤ := l.val - r.val
  let val := if val = 0 then strncmp l.suffix r.suffix (min l.suffixlen r.suffixlen) else val
  let val := if val = 0 then (toInt l.suffixlen - toInt r.suffixlen).toInt else val
  if val < -1 then -1 else if val > 1 then 1 else val

/-- The loop of `nalphaver_cmp`, with the fields before the two calls of
`next`. -/
def nalphaverLoop : ℕ → NalphaverField → NalphaverField → Option ℤ
  | 0, _, _ => none
  | fuel + 1, left, right =>
    let (r1, left) := next left
    let (r2, right) := next right
    if r1 ∨ r2 then
      let val := cmp left right
      if val ≠ 0 then some val else nalphaverLoop fuel left right
    else some 0

/-- The fields at the start; only `pos` is initialised, `next` sets the rest. -/
def startField (str : Bytes) : NalphaverField := ⟨str, [], 0, 0⟩

def nalphaverCmp (s1 s2 : Bytes) : ℤ :=
  (nalphaverLoop (s1.length + s2.length + 1) (startField s1) (startField s2)).getD 0

theorem length_unsignedPart_le (nptr : Bytes) : (unsignedPart nptr).length ≤ nptr.length := by
  have htrim : (nptr.dropWhile isSpace).length ≤ nptr.length :=
    (List.dropWhile_suffix isSpace).length_le
  unfold unsignedPart
  dsimp only
  split
  · rw [List.length_tail]
    omega
  · exact htrim

theorem strtoul_eq_or_lt (nptr : Bytes) :
    (strtoul nptr).2 = nptr ∨ (strtoul nptr).2.length < nptr.length := by
  unfold strtoul
  dsimp only
  split
  · exact .inl rfl
  · rename_i hdigits
    right
    have hle := length_unsignedPart_le nptr
    have hpos := List.length_pos_iff.mpr hdigits
    have hsplit := congrArg List.length
      (@List.takeWhile_append_dropWhile _ (fun ch => decide (IsDigit ch)) (unsignedPart nptr))
    rw [List.length_append] at hsplit
    dsimp only
    omega

theorem next_length_lt (na : NalphaverField) (h : na.pos ≠ []) :
    (next na).2.pos.length < na.pos.length := by
  unfold next
  rw [if_neg h]
  dsimp only
  generalize hoff : min _ uintMax = off
  have hdots : (((strtoul na.pos).2.drop off).dropWhile (· = 46)).length ≤ _ :=
    (List.dropWhile_suffix _).length_le
  have hdrop := List.length_drop (i := off) (l := (strtoul na.pos).2)
  obtain hsame | hless := strtoul_eq_or_lt na.pos
  · rw [hsame] at hoff hdots hdrop ⊢
    obtain ⟨ch, rest, hpos⟩ := List.exists_cons_of_ne_nil h
    rw [hpos] at hoff hdots hdrop ⊢
    by_cases hdot : ch = 46
    · have hzero : off = 0 := by
        rw [← hoff, hdot]
        rfl
      have hrest : (rest.dropWhile (· = 46)).length ≤ rest.length :=
        (List.dropWhile_suffix _).length_le
      simp only [hzero, List.drop_zero, hdot, decide_true, List.dropWhile_cons_of_pos,
        List.length_cons]
      omega
    · have honeLe : 1 ≤ off := by
        rw [← hoff, List.takeWhile_cons_of_pos (by simpa using hdot), List.length_cons]
        exact le_min (by omega) (by decide)
      simp only [List.length_cons] at hdots hdrop ⊢
      omega
  · omega

end Yans.Util.Nalphaver
