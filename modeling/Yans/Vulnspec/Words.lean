import Yans.Vulnspec.Strtab

/-! The tokens that the reader delivers up to the end of its input, each with
its payload. -/
namespace Yans.Vulnspec

open Library.Memory Library.Decimal

inductive Word where
  | lparen
  | rparen
  | string (text : Bytes)
  | long
  | double (num : Num)
  | symbol (name : CString)
  | invalid

def Word.token : Word → Token
  | .lparen => .tlparen
  | .rparen => .trparen
  | .string _ => .tstring
  | .long => .tlong
  | .double _ => .tdouble
  | .symbol _ => .tsymbol
  | .invalid => .tinvalid

def firstString (bytes : Bytes) : CString :=
  ⟨bytes.takeWhile (· ≠ 0), fun byte hbyte => by simpa using List.mem_takeWhile_imp hbyte⟩

/-- A token with the payload that the reader holds. -/
def wordOf (r : Reader) : Token → Option Word
  | .teof => none
  | .tlparen => some .lparen
  | .trparen => some .rparen
  | .tstring => some (.string (vulnspecReaderString r))
  | .tlong => some .long
  | .tdouble => some (.double r.num)
  | .tsymbol => some (.symbol (firstString r.symbol))
  | .tinvalid => some .invalid

variable {r : Reader} {token : Token}

theorem wordOf_eq_none (h : wordOf r token = none) : token = .teof := by
  cases token <;> first | rfl | contradiction

theorem token_of_wordOf {word : Word}
    (h : wordOf r token = some word) : word.token = token := by
  cases token <;> first | contradiction | (obtain rfl := Option.some.inj h; rfl)

inductive Delivers : Reader → List Word → Prop where
  | eof {r r' : Reader} (read : vulnspecReadToken r = (.teof, r')) : Delivers r []
  | word {r r' : Reader} {token : Token} {word : Word} {words : List Word}
      (read : vulnspecReadToken r = (token, r')) (payload : wordOf r' token = some word)
      (rest : Delivers r' words) : Delivers r (word :: words)

theorem Delivers.unique {words words' : List Word} (h : Delivers r words)
    (h' : Delivers r words') : words = words' := by
  induction h generalizing words' with
  | eof read =>
    cases h' with
    | eof => rfl
    | word read' payload =>
      rw [read] at read'
      cases read'
      contradiction
  | word read payload _ ih =>
    cases h' with
    | eof read' =>
      rw [read] at read'
      cases read'
      contradiction
    | word read' payload' rest' =>
      rw [read] at read'
      cases read'
      rw [payload] at payload'
      rw [Option.some.inj payload', ih rest']

/-! Every token but the last takes bytes off the input -/

theorem readNumberLoop_length (input : Bytes) : ∀ ival fpdiv,
    (readNumberLoop input ival fpdiv).2.length ≤ input.length := by
  induction input with
  | nil => exact fun _ _ => le_rfl
  | cons ch rest ih =>
    intro ival fpdiv
    rw [readNumberLoop]
    dsimp only
    repeat' split
    all_goals first
      | exact le_rfl
      | exact Nat.le_succ _
      | exact (ih _ _).trans (Nat.le_succ _)

theorem readStringLoop_length (input sval : Bytes) :
    (readStringLoop input sval).2.2.length ≤ input.length := by
  fun_induction readStringLoop input sval with
  | case1 => exact le_rfl
  | case2 => exact Nat.le_succ _
  | case3 => exact Nat.zero_le _
  | case4 sval ch rest hquote ih =>
    simp only [List.length_cons]
    omega
  | case5 sval ch rest hquote hescape ih => exact ih.trans (Nat.le_succ _)

theorem readSymbolLoop_length (input : Bytes) : ∀ symbol,
    (readSymbolLoop input symbol).2.2.length ≤ input.length := by
  induction input with
  | nil => exact fun _ => le_rfl
  | cons ch rest ih =>
    intro symbol
    rw [readSymbolLoop]
    repeat' split
    all_goals first
      | exact le_rfl
      | exact Nat.le_succ _
      | exact (ih _).trans (Nat.le_succ _)

theorem readNumber_length (r : Reader) (first : UInt8) :
    (readNumber r first).2.input.length ≤ r.input.length := by
  have h := readNumberLoop_length r.input (if IsDigit first then digitValue first else 0)
    (if first = 46 then 1 else 0)
  unfold readNumber
  dsimp only
  split <;> rename_i hloop <;> rw [hloop] at h
  · exact h
  · split <;> exact h

theorem readSymbolToken_length {ch : UInt8} {rest : Bytes}
    (hinput : r.input = ch :: rest) (hch : isDelimiter ch = false) :
    (readSymbolToken r).2.input.length ≤ rest.length := by
  have h := readSymbolLoop_length rest [ch]
  unfold readSymbolToken
  rw [hinput, readSymbolLoop, if_neg (by simp [hch]), List.nil_append,
    if_neg (show ¬ [ch].length ≥ 31 by simp)]
  exact h

/-! The end of the input is a token of its own -/

theorem readNumber_ne_eof (r : Reader) (first : UInt8) : (readNumber r first).1 ≠ .teof := by
  unfold readNumber
  dsimp only
  repeat' split
  all_goals exact Token.noConfusion

theorem readStringLoop_ne_eof (input sval : Bytes) : (readStringLoop input sval).1 ≠ .teof := by
  fun_induction readStringLoop input sval with
  | case1 | case2 | case3 => exact Token.noConfusion
  | case4 sval ch rest hquote ih => exact ih
  | case5 sval ch rest hquote hescape ih => exact ih

theorem readSymbolLoop_ne_eof (input : Bytes) : ∀ symbol,
    (readSymbolLoop input symbol).1 ≠ .teof := by
  induction input with
  | nil => exact fun _ => Token.noConfusion
  | cons ch rest ih =>
    intro symbol
    rw [readSymbolLoop]
    split
    · exact Token.noConfusion
    · split
      · exact Token.noConfusion
      · exact ih _

theorem readTokenLoop_cases (r : Reader) (input : Bytes) :
    ((readTokenLoop r input).1 = .teof ∧ (readTokenLoop r input).2.input = []) ∨
      ((readTokenLoop r input).1 ≠ .teof ∧
        (readTokenLoop r input).2.input.length < input.length) := by
  induction input with
  | nil => exact .inl ⟨rfl, rfl⟩
  | cons ch rest ih =>
    rw [readTokenLoop]
    split
    · obtain hend | ⟨htoken, hshorter⟩ := ih
      · exact .inl hend
      · exact .inr ⟨htoken, hshorter.trans (Nat.lt_succ_self _)⟩
    · rename_i hblank
      right
      rw [List.length_cons, Nat.lt_succ_iff]
      split
      · exact ⟨Token.noConfusion, le_rfl⟩
      · rename_i hlparen
        split
        · exact ⟨Token.noConfusion, le_rfl⟩
        · rename_i hrparen
          split
          · exact ⟨readNumber_ne_eof _ ch, readNumber_length _ ch⟩
          · split
            · exact ⟨readStringLoop_ne_eof rest [], readStringLoop_length rest []⟩
            · refine ⟨readSymbolLoop_ne_eof (ch :: rest) [], ?_⟩
              apply readSymbolToken_length rfl
              simp [isDelimiter, hlparen, hrparen, hblank]

theorem readToken_shorter {r' : Reader}
    (h : vulnspecReadToken r = (token, r')) (htoken : token ≠ .teof) :
    r'.input.length < r.input.length := by
  unfold vulnspecReadToken at h
  obtain ⟨hend, -⟩ | ⟨-, hshorter⟩ := readTokenLoop_cases r r.input
  · rw [h] at hend
    exact absurd hend htoken
  · rwa [h] at hshorter

theorem Delivers.again {r' : Reader} (h : vulnspecReadToken r = (.teof, r')) :
    Delivers r' [] := by
  have hempty : r'.input = [] := by
    unfold vulnspecReadToken at h
    obtain ⟨-, hend⟩ | ⟨htoken, -⟩ := readTokenLoop_cases r r.input
    · rwa [h] at hend
    · rw [h] at htoken
      exact absurd rfl htoken
  refine @Delivers.eof _ { r' with input := [] } ?_
  unfold vulnspecReadToken
  rw [hempty]
  rfl

theorem Delivers.read_nil (h : Delivers r []) :
    ∃ r', vulnspecReadToken r = (.teof, r') ∧ Delivers r' [] := by
  cases h with
  | eof read => exact ⟨_, read, .again read⟩

theorem Delivers.read_cons {word : Word} {words : List Word}
    (h : Delivers r (word :: words)) : ∃ r', vulnspecReadToken r = (word.token, r') ∧
      wordOf r' word.token = some word ∧ Delivers r' words := by
  cases h with
  | word read payload rest =>
    rw [← token_of_wordOf payload] at read payload
    exact ⟨_, read, payload, rest⟩

/-- The words of a reader, as many as there is fuel for. -/
def wordsOf : ℕ → Reader → List Word
  | 0, _ => []
  | fuel + 1, r =>
    let (token, r) := vulnspecReadToken r
    match wordOf r token with
    | none => []
    | some word => word :: wordsOf fuel r

theorem delivers_wordsOf {fuel : ℕ} : ∀ {r : Reader}, r.input.length < fuel →
    Delivers r (wordsOf fuel r) := by
  induction fuel with
  | zero => exact fun h => absurd h (Nat.not_lt_zero _)
  | succ fuel ih =>
    intro r h
    obtain ⟨⟨token, r'⟩, hread⟩ : ∃ read, vulnspecReadToken r = read := ⟨_, rfl⟩
    unfold wordsOf
    rw [hread]
    dsimp only
    cases hword : wordOf r' token with
    | none =>
      rw [wordOf_eq_none hword] at hread
      exact .eof hread
    | some word =>
      have htoken : token ≠ .teof := by
        rintro rfl
        contradiction
      have hshorter := readToken_shorter hread htoken
      exact .word hread hword (ih (by omega))

def textWords (input : Bytes) : List Word := wordsOf (input.length + 1) (vulnspecReaderInit input)

theorem delivers_textWords (input : Bytes) :
    Delivers (vulnspecReaderInit input) (textWords input) :=
  delivers_wordsOf (Nat.lt_succ_self _)

end Yans.Vulnspec
