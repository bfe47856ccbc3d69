import Mathlib.Tactic.Linarith
import Mathlib.Tactic.Ring
import Yans.Vulnspec.Interp
import Yans.Vulnspec.Reader

/-! The vulnspec language: cve forms over expressions, their lexemes, and the
texts that spell them. Between lexemes there may be any blanks, and any byte of
a string may be escaped. -/
namespace Yans.Vulnspec

open Library.Memory Library.Decimal

/-- A decimal score, with as many digits as the reader's `long` and `int`
hold. -/
structure Score where
  whole : Bytes
  fraction : Bytes
  digits : ∀ ch ∈ whole ++ fraction, IsDigit ch
  whole_ne : whole ≠ []
  fraction_ne : fraction ≠ []
  fits : value 0 (whole ++ fraction) < 2 ^ 63
  fraction_le : fraction.length ≤ 9

def Score.text (score : Score) : Bytes := score.whole ++ 46 :: score.fraction

def Score.num (score : Score) : Num :=
  .dval (value 0 (score.whole ++ score.fraction)) (10 ^ score.fraction.length)

inductive CompareOp where
  | lt
  | le
  | eq
  | ge
  | gt
deriving DecidableEq

inductive BoolOp where
  | or
  | and
deriving DecidableEq

def CompareOp.nodeType : CompareOp → NodeType
  | .lt => .lt
  | .le => .le
  | .eq => .eq
  | .ge => .ge
  | .gt => .gt

def BoolOp.nodeType : BoolOp → NodeType
  | .or => .or
  | .and => .and

mutual

inductive Vexpr where
  | compar (op : CompareOp) (vendprod version : CString)
  | boolean (op : BoolOp) (operands : Operands)
  | nalpha (expr : Vexpr)

inductive Operands where
  | one (expr : Vexpr)
  | more (expr : Vexpr) (rest : Operands)

end

structure CveForm where
  id : CString
  cvss2 : Score
  cvss3 : Score
  description : CString
  expr : Vexpr

inductive Lexeme where
  | lparen
  | rparen
  | symbol (name : Bytes)
  | string (text : CString)
  | score (number : Score)

def keyword : NodeType → Bytes
  | .or => [118]
  | .and => [94]
  | .lt => [60]
  | .le => [60, 61]
  | .eq => [61]
  | .ge => [62, 61]
  | .gt => [62]
  | .cve => [99, 118, 101]
  | .nalpha => [110, 97, 108, 112, 104, 97]
  | .invalid | .seq => []

mutual

/-- The lexemes of an expression after its left parenthesis. -/
def Vexpr.lexemes : Vexpr → List Lexeme
  | .compar op vendprod version =>
    [.symbol (keyword op.nodeType), .string vendprod, .string version, .rparen]
  | .boolean op operands => .symbol (keyword op.nodeType) :: (operands.lexemes ++ [.rparen])
  | .nalpha expr => .symbol (keyword .nalpha) :: .lparen :: (expr.lexemes ++ [.rparen])

def Operands.lexemes : Operands → List Lexeme
  | .one expr => .lparen :: expr.lexemes
  | .more expr rest => .lparen :: (expr.lexemes ++ rest.lexemes)

end

def CveForm.lexemes (form : CveForm) : List Lexeme :=
  [.lparen, .symbol (keyword .cve), .string form.id, .score form.cvss2, .score form.cvss3,
    .string form.description, .lparen] ++ form.expr.lexemes ++ [.rparen]

inductive Escaped : Bytes → Bytes → Prop where
  | nil : Escaped [] []
  | plain {ch : UInt8} {bytes text : Bytes} (not_quote : ch ≠ 34) (not_escape : ch ≠ 92)
      (rest : Escaped bytes text) : Escaped (ch :: bytes) (ch :: text)
  | escape {ch : UInt8} {bytes text : Bytes} (rest : Escaped bytes text) :
      Escaped (ch :: bytes) (92 :: ch :: text)

def Lexeme.Spelled : Lexeme → Bytes → Prop
  | .lparen, text => text = [40]
  | .rparen, text => text = [41]
  | .symbol name, text => text = name
  | .string content, text => ∃ body, Escaped content.bytes body ∧ text = 34 :: body ++ [34]
  | .score number, text => text = number.text

def Lexeme.Ends : Lexeme → Bytes → Prop
  | .symbol _, rest => ∀ ch ∈ rest.head?, isDelimiter ch = true
  | .score _, rest => ∀ ch ∈ rest.head?, ch ≠ 46 ∧ ¬ IsDigit ch
  | _, _ => True

inductive Spells : List Lexeme → Bytes → Prop where
  | nil {blanks : Bytes} (isBlank : ∀ ch ∈ blanks, isBlank ch = true) : Spells [] blanks
  | cons {lexeme : Lexeme} {lexemes : List Lexeme} {blanks text rest : Bytes}
      (isBlank : ∀ ch ∈ blanks, isBlank ch = true) (spelled : lexeme.Spelled text)
      (ends : lexeme.Ends rest) (spells : Spells lexemes rest) :
      Spells (lexeme :: lexemes) (blanks ++ text ++ rest)

/-- One spelling of a lexeme, with every byte of a string escaped. -/
def Lexeme.spelling : Lexeme → Bytes
  | .lparen => [40]
  | .rparen => [41]
  | .symbol name => name
  | .string content => 34 :: content.bytes.flatMap (fun ch => [92, ch]) ++ [34]
  | .score number => number.text

def spelling (lexemes : List Lexeme) : Bytes := lexemes.flatMap fun lexeme => 32 :: lexeme.spelling

theorem escaped_all (bytes : Bytes) : Escaped bytes (bytes.flatMap fun ch => [92, ch]) := by
  induction bytes with
  | nil => exact .nil
  | cons ch bytes ih => exact .escape ih

theorem spells_spelling (lexemes : List Lexeme) : Spells lexemes (spelling lexemes) := by
  induction lexemes with
  | nil => exact .nil (by simp [spelling])
  | cons lexeme lexemes ih =>
    have hhead : ∀ ch ∈ (spelling lexemes).head?, ch = 32 := by
      cases lexemes <;> simp [spelling]
    refine @Spells.cons lexeme lexemes [32] _ _ (by simp [isBlank]) ?_ ?_ ih
    · cases lexeme with
      | string content => exact ⟨_, escaped_all content.bytes, rfl⟩
      | lparen | rparen | symbol | score => rfl
    · cases lexeme with
      | symbol name => exact fun ch hch => hhead ch hch ▸ rfl
      | score number => exact fun ch hch => hhead ch hch ▸ (by decide)
      | lparen | rparen | string => trivial

/-! The reader on a spelled text -/

def Lexeme.token : Lexeme → Token
  | .lparen => .tlparen
  | .rparen => .trparen
  | .symbol _ => .tsymbol
  | .string _ => .tstring
  | .score _ => .tdouble

def Lexeme.load (r : Reader) (rest : Bytes) : Lexeme → Reader
  | .lparen | .rparen => { r with input := rest }
  | .symbol name => { r with input := rest, symbol := name }
  | .string content => { r with input := rest, sval := content.bytes ++ [0] }
  | .score number => { r with input := rest, num := number.num }

/-- The symbols that the reader takes for one: no delimiters, no number, no
string, and short enough. -/
def SymbolName (name : Bytes) : Prop :=
  name ≠ [] ∧ name.length < 31 ∧ (∀ ch ∈ name, isDelimiter ch = false) ∧
    ∀ first ∈ name.head?, isNumberStart first = false ∧ first ≠ 34

theorem readTokenLoop_blanks (r : Reader) (rest : Bytes) {blanks : Bytes}
    (h : ∀ ch ∈ blanks, isBlank ch = true) :
    readTokenLoop r (blanks ++ rest) = readTokenLoop r rest := by
  induction blanks with
  | nil => rfl
  | cons ch blanks ih =>
    rw [List.cons_append, readTokenLoop, if_pos (h ch List.mem_cons_self)]
    exact ih fun c hc => h c (List.mem_cons_of_mem _ hc)

theorem readStringLoop_escaped {bytes body : Bytes} (h : Escaped bytes body) (rest : Bytes) :
    ∀ sval, readStringLoop (body ++ 34 :: rest) sval = (.tstring, sval ++ bytes ++ [0], rest) := by
  induction h with
  | nil =>
    intro sval
    rw [List.nil_append, readStringLoop.eq_def]
    simp
  | @plain ch bytes text hquote hescape _ ih =>
    intro sval
    rw [List.cons_append, readStringLoop.eq_def]
    simp [hquote, hescape, ih]
  | @escape ch bytes text _ ih =>
    intro sval
    rw [List.cons_append, List.cons_append, readStringLoop.eq_def]
    simp [ih]

theorem readSymbolLoop_name {rest : Bytes} (hends : ∀ ch ∈ rest.head?, isDelimiter ch = true)
    {name : Bytes} : ∀ {symbol : Bytes}, (symbol ++ name).length < 31 →
    (∀ ch ∈ name, isDelimiter ch = false) →
    readSymbolLoop (name ++ rest) symbol = (.tsymbol, symbol ++ name, rest) := by
  induction name with
  | nil =>
    intro symbol _ _
    cases rest with
    | nil => simp [readSymbolLoop]
    | cons ch rest =>
      rw [List.nil_append, readSymbolLoop, if_pos (hends ch rfl), List.append_nil]
  | cons ch name ih =>
    intro symbol hlength hname
    have hcut : (symbol ++ [ch]).length < 31 := by
      simp only [List.length_append, List.length_cons] at hlength ⊢
      simp only [List.length_nil]
      omega
    rw [List.cons_append, readSymbolLoop, if_neg (by simp [hname ch List.mem_cons_self]),
      if_neg (not_le.mpr hcut), ih (by simpa using hlength)
        fun c hc => hname c (List.mem_cons_of_mem _ hc)]
    simp

theorem wrapLong_of_lt {n : ℤ} (hlow : 0 ≤ n) (hhigh : n < 2 ^ 63) : wrapLong n = n :=
  Int.bmod_eq_of_le (by omega) (by omega)

theorem wrapInt_of_lt {n : ℤ} (hlow : 0 ≤ n) (hhigh : n < 2 ^ 31) : wrapInt n = n :=
  Int.bmod_eq_of_le (by omega) (by omega)

theorem readNumberLoop_digits (rest : Bytes) {digits : Bytes} : ∀ {n : ℕ} {fpdiv : ℤ},
    (∀ ch ∈ digits, IsDigit ch) → value n digits < 2 ^ 63 → 0 ≤ fpdiv →
    fpdiv * 10 ^ digits.length < 2 ^ 31 →
    readNumberLoop (digits ++ rest) n fpdiv =
      readNumberLoop rest (value n digits : ℕ) (fpdiv * 10 ^ digits.length) := by
  induction digits with
  | nil =>
    intro n fpdiv _ _ _ _
    simp [value]
  | cons ch digits ih =>
    intro n fpdiv hdigits hfits hpos hfpdiv
    have hdigit := hdigits ch List.mem_cons_self
    have hnotDot : ch ≠ 46 := by
      rintro rfl
      exact absurd hdigit (by decide)
    have hvalue : value n (ch :: digits) = value (n * 10 + digitValue ch) digits := rfl
    have hle := le_value digits (n * 10 + digitValue ch)
    rw [hvalue] at hfits ⊢
    have hpow : fpdiv * 10 ^ (ch :: digits).length = fpdiv * 10 * 10 ^ digits.length := by
      rw [List.length_cons, pow_succ]
      ring
    rw [hpow] at hfpdiv ⊢
    have hscaled : fpdiv * 10 < 2 ^ 31 := by
      have hone : (1 : ℤ) ≤ 10 ^ digits.length := one_le_pow₀ (by norm_num)
      nlinarith
    rw [List.cons_append, readNumberLoop, if_neg (by simp [hdigit])]
    rw [if_neg hnotDot, wrapInt_of_lt (by omega) hscaled,
      @wrapLong_of_lt ((n : ℤ) * 10) (by omega) (by omega), wrapLong_of_lt (by omega) (by omega),
      if_neg (by omega)]
    have hcast : (n : ℤ) * 10 + digitValue ch = ((n * 10 + digitValue ch : ℕ) : ℤ) := by push_cast; rfl
    rw [hcast]
    exact ih (fun c hc => hdigits c (List.mem_cons_of_mem _ hc)) hfits (by omega) hfpdiv

theorem readNumberLoop_end {rest : Bytes} (hends : ∀ ch ∈ rest.head?, ch ≠ 46 ∧ ¬ IsDigit ch)
    (ival fpdiv : ℤ) : readNumberLoop rest ival fpdiv = (some (ival, fpdiv), rest) := by
  cases rest with
  | nil => rfl
  | cons ch rest => rw [readNumberLoop, if_pos (hends ch rfl)]

theorem readNumberLoop_dot (rest : Bytes) (ival : ℤ) :
    readNumberLoop (46 :: rest) ival 0 = readNumberLoop rest ival 1 := by
  rw [readNumberLoop]
  simp [wrapInt]

theorem readNumber_score (r : Reader) (score : Score) {rest : Bytes}
    (hends : ∀ ch ∈ rest.head?, ch ≠ 46 ∧ ¬ IsDigit ch) {first : UInt8} {others : Bytes}
    (hwhole : score.whole = first :: others) :
    readNumber { r with input := others ++ 46 :: (score.fraction ++ rest) } first =
      (.tdouble, { r with input := rest, num := score.num }) := by
  have hdigits := score.digits
  have hfits := score.fits
  rw [hwhole] at hdigits hfits
  have hfirst : IsDigit first := hdigits first (by simp)
  have hothers : ∀ ch ∈ others, IsDigit ch := fun ch hch => hdigits ch (by simp [hch])
  have hfraction : ∀ ch ∈ score.fraction, IsDigit ch := fun ch hch => hdigits ch (by simp [hch])
  have hvalue : value 0 (first :: (others ++ score.fraction)) =
      value (value (digitValue first) others) score.fraction := by
    rw [← value_append]
    simp [value]
  rw [List.cons_append, hvalue] at hfits
  have hle := le_value score.fraction (value (digitValue first) others)
  have hscale : (10 : ℤ) ^ score.fraction.length < 2 ^ 31 :=
    lt_of_le_of_lt (pow_le_pow_right₀ (by norm_num) score.fraction_le) (by norm_num)
  have hloop : readNumberLoop (others ++ 46 :: (score.fraction ++ rest)) (digitValue first) 0 =
      (some (((value (value (digitValue first) others) score.fraction : ℕ) : ℤ),
        (10 : ℤ) ^ score.fraction.length), rest) := by
    rw [@readNumberLoop_digits _ _ (digitValue first) 0 hothers (by omega) le_rfl (by norm_num), zero_mul,
      readNumberLoop_dot, readNumberLoop_digits _ hfraction hfits (by norm_num) (by simpa using hscale),
      one_mul, readNumberLoop_end hends]
  have hnotDot : first ≠ 46 := by
    rintro rfl
    exact absurd hfirst (by decide)
  have hnotMinus : first ≠ 45 := by
    rintro rfl
    exact absurd hfirst (by decide)
  have hnonzero : (10 : ℤ) ^ score.fraction.length ≠ 0 := pow_ne_zero _ (by norm_num)
  simp [readNumber, hfirst, hnotDot, hnotMinus, hloop, hnonzero, Score.num, hwhole, hvalue]

theorem isNumberStart_of_isDigit {ch : UInt8} (h : IsDigit ch) :
    isNumberStart ch = true ∧ isBlank ch = false ∧ ch ≠ 40 ∧ ch ≠ 41 := by
  refine ⟨by simp [isNumberStart, h], ?_, ?_, ?_⟩
  · unfold isBlank
    simp only [decide_eq_false_iff_not]
    rintro (rfl | rfl | rfl | rfl) <;> exact absurd h (by decide)
  · rintro rfl
    exact absurd h (by decide)
  · rintro rfl
    exact absurd h (by decide)

def Lexeme.Readable : Lexeme → Prop
  | .symbol name => SymbolName name
  | _ => True

theorem readToken_spelled (r : Reader) {lexeme : Lexeme} {blanks text rest : Bytes}
    (hblanks : ∀ ch ∈ blanks, isBlank ch = true) (hreadable : lexeme.Readable)
    (hspelled : lexeme.Spelled text) (hends : lexeme.Ends rest)
    (hinput : r.input = blanks ++ text ++ rest) :
    vulnspecReadToken r = (lexeme.token, lexeme.load r rest) := by
  unfold vulnspecReadToken
  rw [hinput, List.append_assoc, readTokenLoop_blanks r _ hblanks]
  cases lexeme with
  | lparen =>
    obtain rfl : text = [40] := hspelled
    rfl
  | rparen =>
    obtain rfl : text = [41] := hspelled
    rfl
  | symbol name =>
    obtain rfl : text = name := hspelled
    obtain ⟨hnonempty, hlength, hname, hfirst⟩ := hreadable
    obtain ⟨first, others, rfl⟩ := List.exists_cons_of_ne_nil hnonempty
    obtain ⟨hnumber, hquote⟩ := hfirst first rfl
    have hdelimiter := hname first List.mem_cons_self
    have hother : isBlank first = false ∧ first ≠ 40 ∧ first ≠ 41 := by
      simp only [isDelimiter, decide_eq_false_iff_not, not_or] at hdelimiter
      exact ⟨by simpa using hdelimiter.2.2, hdelimiter.1, hdelimiter.2.1⟩
    have hloop := @readSymbolLoop_name _ hends _ [] hlength hname
    rw [List.cons_append, readTokenLoop, if_neg (by simp [hother.1]), if_neg hother.2.1,
      if_neg hother.2.2, if_neg (by simp [hnumber]), if_neg hquote, readSymbolToken]
    rw [← List.cons_append, hloop]
    rfl
  | string content =>
    obtain ⟨body, hbody, rfl⟩ := hspelled
    have hloop := readStringLoop_escaped hbody rest []
    simp only [List.cons_append, List.append_assoc, List.nil_append]
    rw [readTokenLoop, if_neg (by decide), if_neg (by decide), if_neg (by decide),
      if_neg (by decide), if_pos rfl, readString]
    rw [hloop]
    rfl
  | score number =>
    obtain rfl : text = number.text := hspelled
    obtain ⟨first, others, hwhole⟩ := List.exists_cons_of_ne_nil number.whole_ne
    have hfirst : IsDigit first := number.digits first (by simp [hwhole])
    obtain ⟨hnumber, hblank, hlparen, hrparen⟩ := isNumberStart_of_isDigit hfirst
    rw [Score.text, hwhole, List.cons_append, List.cons_append, readTokenLoop,
      if_neg (by simp [hblank]), if_neg hlparen, if_neg hrparen, if_pos hnumber]
    rw [List.append_assoc, List.cons_append, readNumber_score r number hends hwhole]
    rfl

theorem readToken_end (r : Reader) {blanks : Bytes} (hblanks : ∀ ch ∈ blanks, isBlank ch = true)
    (hinput : r.input = blanks) : vulnspecReadToken r = (.teof, { r with input := [] }) := by
  unfold vulnspecReadToken
  rw [hinput, ← List.append_nil blanks, readTokenLoop_blanks r _ hblanks]
  rfl

end Yans.Vulnspec
