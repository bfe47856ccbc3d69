import Yans.Vulnspec.Syntax

/-! What the reader makes of number literals of any length. The value and the
divisor wrap around, and an overflow is noticed only where it makes the value
smaller. -/
namespace Yans.Vulnspec

open Library.Memory Library.Decimal

/-- `[-]d1..dm` or `[-]d1..dm.f1..fk`; without a dot there is no fraction. -/
structure Literal where
  negative : Bool
  whole : Bytes
  fraction : Bytes
  digits : ∀ ch ∈ whole ++ fraction, IsDigit ch
  whole_ne : whole ≠ []

/-- What stands behind the digits before the dot. -/
def fractionText (fraction : Bytes) : Bytes := if fraction = [] then [] else 46 :: fraction

namespace Literal

def text (literal : Literal) : Bytes :=
  (if literal.negative then [45] else []) ++ (literal.whole ++ fractionText literal.fraction)

def magnitude (literal : Literal) : ℕ := value 0 (literal.whole ++ literal.fraction)

def signed (literal : Literal) (n : ℤ) : ℤ := if literal.negative then -n else n

end Literal

def OverflowShows (start : ℕ) (digits : Bytes) : Prop :=
  ∃ before ch after, digits = before ++ ch :: after ∧
    wrapLong (value start (before ++ [ch])) < wrapLong (value start before)

section Overflow

variable {start : ℕ} {digits : Bytes}

theorem overflowShows_nil : ¬ OverflowShows start [] := by
  rintro ⟨before, ch, after, heq, -⟩
  simp at heq

theorem overflowShows_cons (ch : UInt8) : OverflowShows start (ch :: digits) ↔
    wrapLong (start * 10 + digitValue ch : ℕ) < wrapLong start ∨
      OverflowShows (start * 10 + digitValue ch) digits := by
  constructor
  · rintro ⟨before, ch', after, heq, hsmaller⟩
    cases before with
    | nil =>
      obtain ⟨rfl, rfl⟩ := List.cons.inj heq
      exact .inl hsmaller
    | cons first before =>
      obtain ⟨rfl, rfl⟩ := List.cons.inj heq
      exact .inr ⟨before, ch', after, rfl, hsmaller⟩
  · rintro (hsmaller | ⟨before, ch', after, rfl, hsmaller⟩)
    · exact ⟨[], ch, digits, rfl, hsmaller⟩
    · exact ⟨ch :: before, ch', after, rfl, hsmaller⟩

theorem overflowShows_append (others : Bytes) : ∀ start,
    OverflowShows start (digits ++ others) ↔
      OverflowShows start digits ∨ OverflowShows (value start digits) others := by
  induction digits with
  | nil => simp [overflowShows_nil, value]
  | cons ch digits ih =>
    intro start
    rw [List.cons_append, overflowShows_cons, overflowShows_cons, ih, or_assoc]
    rfl

theorem wrapLong_le_value : ∀ start, ¬ OverflowShows start digits →
    wrapLong start ≤ wrapLong (value start digits) := by
  induction digits with
  | nil => exact fun start _ => le_rfl
  | cons ch digits ih =>
    intro start h
    rw [overflowShows_cons, not_or, not_lt] at h
    exact h.1.trans (ih _ h.2)

theorem not_overflowShows_of_fits (hfits : value start digits < 2 ^ 63) :
    ¬ OverflowShows start digits := by
  rintro ⟨before, ch, after, rfl, hsmaller⟩
  have hafter := le_value after (value start (before ++ [ch]))
  rw [← value_append, List.append_assoc, List.singleton_append] at hafter
  have hbefore := le_value [ch] (value start before)
  rw [← value_append] at hbefore
  rw [wrapLong_of_lt (by omega) (by omega), wrapLong_of_lt (by omega) (by omega)] at hsmaller
  omega

end Overflow

theorem wrapLong_digit (v : ℕ) (ch : UInt8) : wrapLong (wrapLong (wrapLong v * 10) + digitValue ch) =
    wrapLong (v * 10 + digitValue ch : ℕ) := by
  unfold wrapLong
  rw [Int.bmod_add_bmod, ← Int.bmod_add_bmod, Int.bmod_mul_bmod, Int.bmod_add_bmod]
  push_cast
  rfl

theorem wrapInt_scale (f : ℤ) : wrapInt (wrapInt f * 10) = wrapInt (f * 10) := Int.bmod_mul_bmod

theorem readNumberLoop_wraps (rest : Bytes) {digits : Bytes} : ∀ (v : ℕ) (f : ℤ),
    (∀ ch ∈ digits, IsDigit ch) →
    (OverflowShows v digits ∧
        (readNumberLoop (digits ++ rest) (wrapLong v) (wrapInt f)).1 = none) ∨
      (¬ OverflowShows v digits ∧ readNumberLoop (digits ++ rest) (wrapLong v) (wrapInt f) =
        readNumberLoop rest (wrapLong (value v digits)) (wrapInt (f * 10 ^ digits.length))) := by
  induction digits with
  | nil =>
    intro v f _
    refine .inr ⟨overflowShows_nil, ?_⟩
    simp [value]
  | cons ch digits ih =>
    intro v f hdigits
    have hdigit := hdigits ch List.mem_cons_self
    have hnotDot : ch ≠ 46 := by
      rintro rfl
      exact absurd hdigit (by decide)
    have hstep : readNumberLoop (ch :: (digits ++ rest)) (wrapLong v) (wrapInt f) =
        if wrapLong (v * 10 + digitValue ch : ℕ) < wrapLong v then (none, digits ++ rest)
        else readNumberLoop (digits ++ rest) (wrapLong (v * 10 + digitValue ch : ℕ))
          (wrapInt (f * 10)) := by
      rw [readNumberLoop, if_neg (by simp [hdigit])]
      rw [if_neg hnotDot, wrapLong_digit, wrapInt_scale]
    rw [List.cons_append, hstep, overflowShows_cons]
    by_cases hsmaller : wrapLong (v * 10 + digitValue ch : ℕ) < wrapLong v
    · rw [if_pos hsmaller]
      exact .inl ⟨.inl hsmaller, rfl⟩
    · rw [if_neg hsmaller, List.length_cons, pow_succ', ← mul_assoc]
      have hrest := ih (v * 10 + digitValue ch) (f * 10)
        fun c hc => hdigits c (List.mem_cons_of_mem _ hc)
      simp only [hsmaller, false_or]
      exact hrest

def wrappedDivisor (fraction : Bytes) : ℤ :=
  if fraction = [] then 0 else wrapInt (10 ^ fraction.length)

variable {rest : Bytes}

theorem readNumberLoop_literal (hends : ∀ ch ∈ rest.head?, ch ≠ 46 ∧ ¬ IsDigit ch)
    {whole fraction : Bytes} (hdigits : ∀ ch ∈ whole ++ fraction, IsDigit ch) (v : ℕ) :
    (OverflowShows v (whole ++ fraction) ∧
        (readNumberLoop (whole ++ (fractionText fraction ++ rest)) (wrapLong v) 0).1 = none) ∨
      (¬ OverflowShows v (whole ++ fraction) ∧
        readNumberLoop (whole ++ (fractionText fraction ++ rest)) (wrapLong v) 0 =
          (some (wrapLong (value v (whole ++ fraction)), wrappedDivisor fraction), rest)) := by
  have hwhole := readNumberLoop_wraps (fractionText fraction ++ rest) v 0
    fun ch hch => hdigits ch (List.mem_append_left _ hch)
  have hzero : wrapInt 0 = 0 := rfl
  rw [hzero, zero_mul, hzero] at hwhole
  rw [overflowShows_append]
  unfold fractionText wrappedDivisor at *
  by_cases hnone : fraction = []
  · subst hnone
    simp only [if_true, List.nil_append, List.append_nil, overflowShows_nil, or_false] at hwhole ⊢
    rwa [readNumberLoop_end hends] at hwhole
  · have hfraction := readNumberLoop_wraps rest (value v whole) 1
      fun ch hch => hdigits ch (List.mem_append_right _ hch)
    have hone : wrapInt 1 = 1 := rfl
    rw [hone, one_mul, readNumberLoop_end hends, ← value_append] at hfraction
    rw [if_neg hnone, List.cons_append] at hwhole ⊢
    rw [if_neg hnone]
    obtain ⟨hshows, hstop⟩ | ⟨hquiet, hread⟩ := hwhole
    · exact .inl ⟨.inl hshows, hstop⟩
    · rw [hread, readNumberLoop_dot]
      obtain ⟨hshows, hstop⟩ | ⟨hquiet', hread'⟩ := hfraction
      · exact .inl ⟨.inr hshows, hstop⟩
      · exact .inr ⟨by simp [hquiet, hquiet'], hread'⟩

def numberToken (r : Reader) (ival fpdiv : ℤ) (rest : Bytes) : Token × Reader :=
  if fpdiv ≠ 0 then (.tdouble, { r with input := rest, num := .dval ival fpdiv })
  else (.tlong, { r with input := rest, num := .ival ival })

theorem readNumber_of_loop (r : Reader) {first : UInt8} {input : Bytes} {start n fpdiv : ℤ}
    {shows : Prop} (hstart : (if IsDigit first then (digitValue first : ℤ) else 0) = start)
    (hnotDot : first ≠ 46)
    (hloop : shows ∧ (readNumberLoop input start 0).1 = none ∨
      ¬ shows ∧ readNumberLoop input start 0 = (some (n, fpdiv), rest)) :
    shows ∧ (readNumber { r with input := input } first).1 = .tinvalid ∨
      ¬ shows ∧ readNumber { r with input := input } first =
        numberToken r (if first = 45 then wrapLong (-n) else n) fpdiv rest := by
  unfold readNumber
  simp only [hstart, if_neg hnotDot]
  obtain ⟨hshows, hstop⟩ | ⟨hquiet, hread⟩ := hloop
  · refine .inl ⟨hshows, ?_⟩
    split
    · rfl
    · rename_i heq
      rw [heq] at hstop
      contradiction
  · refine .inr ⟨hquiet, ?_⟩
    rw [hread]
    rfl

theorem readTokenLoop_number (r : Reader) {first : UInt8} (rest : Bytes)
    (hfirst : first = 45 ∨ IsDigit first) :
    readTokenLoop r (first :: rest) = readNumber { r with input := rest } first := by
  obtain ⟨hnumber, hblank, hlparen, hrparen⟩ :
      isNumberStart first = true ∧ isBlank first = false ∧ first ≠ 40 ∧ first ≠ 41 := by
    obtain rfl | hdigit := hfirst
    · decide
    · exact isNumberStart_of_isDigit hdigit
  rw [readTokenLoop, if_neg (by simp [hblank]), if_neg hlparen, if_neg hrparen, if_pos hnumber]

theorem wrapLong_signed (literal : Literal) (n : ℤ) :
    (if literal.negative then wrapLong (-wrapLong n) else wrapLong n) =
      wrapLong (literal.signed (wrapLong n)) := by
  unfold Literal.signed
  split
  · rfl
  · exact Int.bmod_bmod.symm

theorem overflowShows_first (first : UInt8) (digits : Bytes) :
    OverflowShows 0 (first :: digits) ↔ OverflowShows (digitValue first) digits := by
  have hsmall : digitValue first < 2 ^ 63 := by
    have hrange := first.toNat_lt
    unfold digitValue
    omega
  have hgrows : ¬ wrapLong (0 * 10 + digitValue first : ℕ) < wrapLong (0 : ℕ) := by
    rw [wrapLong_of_lt (by omega) (by omega), wrapLong_of_lt (by omega) (by omega)]
    omega
  rw [overflowShows_cons, or_iff_right hgrows, Nat.zero_mul, Nat.zero_add]

theorem readToken_literal (r : Reader) (literal : Literal)
    (hends : ∀ ch ∈ rest.head?, ch ≠ 46 ∧ ¬ IsDigit ch) :
    (OverflowShows 0 (literal.whole ++ literal.fraction) ∧
        (vulnspecReadToken { r with input := literal.text ++ rest }).1 = .tinvalid) ∨
      (¬ OverflowShows 0 (literal.whole ++ literal.fraction) ∧
        vulnspecReadToken { r with input := literal.text ++ rest } =
          numberToken r (wrapLong (literal.signed (wrapLong literal.magnitude)))
            (wrappedDivisor literal.fraction) rest) := by
  rw [← wrapLong_signed]
  unfold vulnspecReadToken Literal.text Literal.magnitude
  have hdigits := literal.digits
  cases hnegative : literal.negative with
  | true =>
    have hloop := @readNumberLoop_literal rest hends _ _ hdigits 0
    simp only [if_true, List.cons_append, List.nil_append, List.append_assoc]
    rw [readTokenLoop_number _ _ (.inl rfl)]
    have hzero : (0 : ℤ) = wrapLong (0 : ℕ) := by simp [wrapLong]
    have hstart : (if IsDigit 45 then (digitValue 45 : ℤ) else 0) = wrapLong (0 : ℕ) :=
      (if_neg (by decide)).trans hzero
    have hread := readNumber_of_loop r hstart (by decide) hloop
    rwa [if_pos rfl] at hread
  | false =>
    obtain ⟨first, others, hwhole⟩ := List.exists_cons_of_ne_nil literal.whole_ne
    rw [hwhole, List.cons_append] at hdigits
    have hfirst := hdigits first List.mem_cons_self
    have hloop := @readNumberLoop_literal rest hends _ _
      (fun ch hch => hdigits ch (List.mem_cons_of_mem _ hch)) (digitValue first)
    have hsmall : wrapLong (digitValue first) = digitValue first := by
      have hrange := first.toNat_lt
      apply wrapLong_of_lt <;> unfold digitValue <;> omega
    have hnotDot : first ≠ 46 := by
      rintro rfl
      exact absurd hfirst (by decide)
    have hnotMinus : first ≠ 45 := by
      rintro rfl
      exact absurd hfirst (by decide)
    have hvalue : value 0 (first :: (others ++ literal.fraction)) =
        value (digitValue first) (others ++ literal.fraction) := by
      simp [value]
    rw [hsmall] at hloop
    have hread := readNumber_of_loop r (if_pos hfirst) hnotDot hloop
    rw [if_neg hnotMinus] at hread
    simp only [hwhole, Bool.false_eq_true, if_false, List.cons_append, List.nil_append,
      List.append_assoc]
    rwa [readTokenLoop_number _ _ (.inr hfirst), overflowShows_first, hvalue]

/-- The digits are a `long`. -/
def Literal.Fits (literal : Literal) : Prop := literal.magnitude < 2 ^ 63

/-- A token with exactly the denoted number, or none at all where the digits do
not fit. -/
def Literal.ReadRight (literal : Literal) (read : Token × Reader) : Prop :=
  (read.1 = .tlong ∧ literal.fraction = [] ∧
    read.2.num = .ival (literal.signed literal.magnitude)) ∨
  (read.1 = .tdouble ∧ literal.fraction ≠ [] ∧
    read.2.num = .dval (literal.signed literal.magnitude) (10 ^ literal.fraction.length)) ∨
  (read.1 = .tinvalid ∧ ¬ literal.Fits)

theorem wrapLong_of_abs {n : ℤ} (hlow : -2 ^ 63 < n) (hhigh : n < 2 ^ 63) : wrapLong n = n :=
  Int.bmod_eq_of_le (by omega) (by omega)

theorem wrapLong_lt (n : ℤ) : wrapLong n < 2 ^ 63 := by
  have hlt := @Int.bmod_lt n (2 ^ 64) (by decide)
  unfold wrapLong
  omega

theorem signed_wrapLong_iff (literal : Literal)
    (hquiet : ¬ OverflowShows 0 (literal.whole ++ literal.fraction)) :
    wrapLong (literal.signed (wrapLong literal.magnitude)) = literal.signed literal.magnitude ↔
      literal.Fits := by
  have hpos : 0 ≤ wrapLong literal.magnitude := wrapLong_le_value 0 hquiet
  have hlt := wrapLong_lt literal.magnitude
  have houter : wrapLong (literal.signed (wrapLong literal.magnitude)) =
      literal.signed (wrapLong literal.magnitude) := by
    apply wrapLong_of_abs <;> unfold Literal.signed <;> split <;> omega
  have hinj : literal.signed (wrapLong literal.magnitude) = literal.signed literal.magnitude ↔
      wrapLong literal.magnitude = literal.magnitude := by
    unfold Literal.signed
    split <;> omega
  rw [houter, hinj]
  unfold Literal.Fits
  constructor
  · intro hexact
    omega
  · intro hfits
    exact wrapLong_of_lt (by omega) (by omega)

theorem wrapInt_lt (n : ℤ) : wrapInt n < 2 ^ 31 := by
  have hlt := @Int.bmod_lt n (2 ^ 32) (by decide)
  unfold wrapInt
  omega

theorem wrapInt_pow_iff (k : ℕ) : wrapInt (10 ^ k) = 10 ^ k ↔ k ≤ 9 := by
  constructor
  · intro hexact
    by_contra hlarge
    have hpow : (10 : ℤ) ^ 10 ≤ 10 ^ k := pow_le_pow_right₀ (by norm_num) (by omega)
    have hlt := wrapInt_lt (10 ^ k)
    rw [hexact] at hlt
    norm_num at hpow
    omega
  · intro hk
    have hpow : (10 : ℤ) ^ k ≤ 10 ^ 9 := pow_le_pow_right₀ (by norm_num) hk
    norm_num at hpow
    exact wrapInt_of_lt (by positivity) (by omega)

theorem readRight_long (r : Reader) (literal : Literal) (ival : ℤ) (rest : Bytes) :
    literal.ReadRight (numberToken r ival 0 rest) ↔
      literal.fraction = [] ∧ ival = literal.signed literal.magnitude := by
  unfold numberToken
  rw [if_neg (not_not.mpr rfl)]
  simp [Literal.ReadRight]

theorem readRight_double {r : Reader} {literal : Literal} {ival fpdiv : ℤ}
    (hfpdiv : fpdiv ≠ 0) : literal.ReadRight (numberToken r ival fpdiv rest) ↔
      literal.fraction ≠ [] ∧ ival = literal.signed literal.magnitude ∧
        fpdiv = 10 ^ literal.fraction.length := by
  unfold numberToken
  rw [if_pos hfpdiv]
  simp [Literal.ReadRight]

/-- A literal is read right exactly when its digits fit and its fraction has at
most nine of them, or when an overflow shows. -/
theorem readToken_right_iff (r : Reader) (literal : Literal) {rest : Bytes}
    (hends : ∀ ch ∈ rest.head?, ch ≠ 46 ∧ ¬ IsDigit ch) :
    literal.ReadRight (vulnspecReadToken { r with input := literal.text ++ rest }) ↔
      literal.Fits ∧ literal.fraction.length ≤ 9 ∨
        OverflowShows 0 (literal.whole ++ literal.fraction) := by
  obtain ⟨hshows, htoken⟩ | ⟨hquiet, hread⟩ := readToken_literal r literal hends
  · refine iff_of_true ?_ (.inr hshows)
    exact .inr (.inr ⟨htoken, fun hfits => not_overflowShows_of_fits hfits hshows⟩)
  · have hsigned := signed_wrapLong_iff literal hquiet
    rw [hread, or_iff_left hquiet]
    by_cases hnone : literal.fraction = []
    · have hdivisor : wrappedDivisor literal.fraction = 0 := if_pos hnone
      rw [hdivisor, readRight_long, hsigned, hnone]
      simp
    · have hdivisor : wrappedDivisor literal.fraction = wrapInt (10 ^ literal.fraction.length) :=
        if_neg hnone
      rw [hdivisor, ← wrapInt_pow_iff]
      by_cases hwrapped : wrapInt (10 ^ literal.fraction.length) = 0
      · have hpow : (0 : ℤ) ≠ 10 ^ literal.fraction.length := (pow_ne_zero _ (by norm_num)).symm
        rw [hwrapped, readRight_long]
        simp [hnone, hpow]
      · rw [readRight_double hwrapped, hsigned]
        simp [hnone]

theorem ends_blank : ∀ ch ∈ ([32] : Bytes).head?, ch ≠ 46 ∧ ¬ IsDigit ch := by
  intro ch hch
  cases hch
  decide

/-- `-12.5` -/
def smallLiteral : Literal := ⟨true, [49, 50], [53], by decide, by decide⟩

theorem readToken_right_iff_small : smallLiteral.ReadRight
    (vulnspecReadToken { vulnspecReaderInit [] with input := smallLiteral.text ++ [32] }) :=
  (readToken_right_iff (vulnspecReaderInit []) smallLiteral ends_blank).mpr
    (.inl ⟨by unfold Literal.Fits; decide, by decide⟩)

/-- `25000000000000000000` -/
def largeLiteral : Literal :=
  ⟨false, 50 :: 53 :: List.replicate 18 48, [], by decide, by decide⟩

theorem magnitude_largeLiteral : largeLiteral.magnitude = 25000000000000000000 := by
  decide

theorem not_readRight_largeLiteral : ¬ largeLiteral.ReadRight
    (.tlong, ⟨[32], [], [], .ival 6553255926290448384⟩) := by
  unfold Literal.ReadRight Literal.signed
  rw [magnitude_largeLiteral]
  simp [largeLiteral]

theorem large_literal_read_wrong : ¬ ∀ (r : Reader) (literal : Literal) (rest : Bytes),
    (∀ ch ∈ rest.head?, ch ≠ 46 ∧ ¬ IsDigit ch) →
    literal.ReadRight (vulnspecReadToken { r with input := literal.text ++ rest }) := by
  intro hright
  have hread : vulnspecReadToken
      { vulnspecReaderInit [] with input := largeLiteral.text ++ [32] } =
        (.tlong, ⟨[32], [], [], .ival 6553255926290448384⟩) := by
    set_option maxRecDepth 4000 in decide
  apply not_readRight_largeLiteral
  rw [← hread]
  exact hright (vulnspecReaderInit []) largeLiteral [32] ends_blank

end Yans.Vulnspec
