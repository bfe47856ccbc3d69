import Yans.Vulnspec.Simulation

/-! The grammar of vulnspec over the words of a text, and what the parser
accepts. A computation of the sketch is judged by the words it takes off the
front of the list; the length of the program tells which offsets are in it. -/
namespace Yans.Vulnspec

open Library.Memory Library.Computations Library.Computations.Computation Util Util.Objtbl

inductive IsVexpr : List Word → Prop where
  | compar (op : CompareOp) (name : CString) (symbol : name.bytes = keyword op.nodeType)
      (vendprod version : Bytes) :
      IsVexpr [.lparen, .symbol name, .string vendprod, .string version, .rparen]
  | boolean (op : BoolOp) (name : CString) (symbol : name.bytes = keyword op.nodeType)
      (operands : List (List Word)) (nonempty : operands ≠ [])
      (vexprs : ∀ operand ∈ operands, IsVexpr operand) :
      IsVexpr ([.lparen, .symbol name] ++ operands.flatten ++ [.rparen])
  | nalpha (name : CString) (symbol : name.bytes = keyword .nalpha) (expr : List Word)
      (vexpr : IsVexpr expr) : IsVexpr ([.lparen, .symbol name] ++ expr ++ [.rparen])

inductive IsCve : List Word → Prop where
  | cve (name : CString) (symbol : name.bytes = keyword .cve) (id description : Bytes)
      (cvss2 cvss3 : Num) (expr : List Word) (vexpr : IsVexpr expr) :
      IsCve ([.lparen, .symbol name, .string id, .double cvss2, .double cvss3,
        .string description] ++ expr ++ [.rparen])

def IsProg (words : List Word) : Prop :=
  ∃ forms : List (List Word), (∀ form ∈ forms, IsCve form) ∧ words = forms.flatten

/-! What a computation takes -/

/-- A computation ended after it took words that the grammar allows, with a
value that fits the length of the program; or it met a word that no continuation
of the grammar allows; or the program was full. -/
structure Ended {α : Type} (Takes : List Word → List Word → Prop) (Fits : α → ℕ → Prop)
    (s : Sketch) (result : Except Code α) (s' : Sketch) : Prop where
  len_le : s.len ≤ s'.len
  words_le : s'.words.length ≤ s.words.length
  ok : ∀ a, result = .ok a → Takes s.words s'.words ∧ Fits a s'.len
  error : ∀ err, result = .error err →
    err = .eunexpectedToken ∨ err = .emalloc ∧ 2 ^ 32 ≤ s'.len
  complete : ∀ rest, Takes s.words rest →
    (∃ a, result = .ok a) ∧ s'.words = rest ∨ result = .error .emalloc

namespace Ended

variable {α : Type} {Takes Takes' : List Word → List Word → Prop} {Fits : α → ℕ → Prop}
  {s s' s'' : Sketch} {result : Except Code α}

theorem shift (h : Ended Takes' Fits s' result s'') (hlen : s.len ≤ s'.len)
    (hwords : s'.words.length ≤ s.words.length)
    (htakes : ∀ rest, Takes s.words rest ↔ Takes' s'.words rest) :
    Ended Takes Fits s result s'' where
  len_le := hlen.trans h.len_le
  words_le := h.words_le.trans hwords
  ok := by
    intro a ha
    obtain ⟨htaken, hfits⟩ := h.ok a ha
    exact ⟨(htakes _).mpr htaken, hfits⟩
  error := h.error
  complete := fun rest hrest => h.complete rest ((htakes rest).mp hrest)

theorem pure {a : α} (htakes : ∀ rest, Takes s.words rest ↔ rest = s.words)
    (hfits : Fits a s.len) : Ended Takes Fits s (.ok a) s where
  len_le := le_rfl
  words_le := le_rfl
  ok := by
    intro b hb
    cases hb
    exact ⟨(htakes _).mpr rfl, hfits⟩
  error := nofun
  complete := fun rest hrest => .inl ⟨⟨a, rfl⟩, ((htakes rest).mp hrest).symm⟩

theorem unexpected (hlen : s.len ≤ s'.len) (hwords : s'.words.length ≤ s.words.length)
    (hnone : ∀ rest, ¬ Takes s.words rest) :
    Ended Takes Fits s (.error .eunexpectedToken) s' where
  len_le := hlen
  words_le := hwords
  ok := nofun
  error := fun _ herr => .inl (Except.error.inj herr).symm
  complete := fun rest hrest => absurd hrest (hnone rest)

end Ended

/-- From a sketch of at least some length and with less than so many words the
computation ends. -/
def Parses {α : Type} (n low : ℕ) (m : SketchM α) (Takes : List Word → List Word → Prop)
    (Fits : α → ℕ → Prop) : Prop :=
  ∀ s, s.words.length < n → low ≤ s.len →
    ∃ result s', m s = some (result, s') ∧ Ended Takes Fits s result s'

namespace Parses

variable {α β : Type} {n low : ℕ} {Takes : List Word → List Word → Prop} {Fits : α → ℕ → Prop}

theorem zero (m : SketchM α) : Parses 0 low m Takes Fits :=
  fun _ h => absurd h (Nat.not_lt_zero _)

theorem mono {m : SketchM α} (h : Parses n low m Takes Fits) {n' low' : ℕ} (hn : n' ≤ n)
    (hlow : low ≤ low') : Parses n' low' m Takes Fits :=
  fun s hs hlen => h s (hs.trans_le hn) (hlow.trans hlen)

theorem congr {m : SketchM α} {Takes' : List Word → List Word → Prop}
    (h : Parses n low m Takes Fits) (htakes : ∀ words rest, Takes words rest ↔ Takes' words rest) :
    Parses n low m Takes' Fits := by
  obtain rfl : Takes = Takes' := by
    funext words rest
    exact propext (htakes words rest)
  exact h

theorem pure {a : α} (hfits : ∀ len, low ≤ len → Fits a len) :
    Parses n low (Pure.pure a) (fun words rest => rest = words) Fits := by
  intro s _ hlen
  exact ⟨_, s, rfl, .pure (fun _ => Iff.rfl) (hfits s.len hlen)⟩

theorem bail : Parses n low (Computation.bail .eunexpectedToken : SketchM α)
    (fun _ _ => False) Fits := by
  intro s _ _
  exact ⟨_, s, rfl, .unexpected le_rfl le_rfl fun _ => id⟩

variable {m : SketchM β}

theorem bind {f : β → SketchM α} {First : List Word → List Word → Prop}
    {FirstFits : β → ℕ → Prop} {k : ℕ} (h : Parses n low m First FirstFits)
    (htakes : ∀ words rest, First words rest → rest.length + n ≤ words.length + k)
    (h' : ∀ b low', low ≤ low' → FirstFits b low' → Parses k low' (f b) Takes Fits) :
    Parses n low (m >>= f) (fun words rest => ∃ middle, First words middle ∧ Takes middle rest)
      Fits := by
  intro s hs hlen
  obtain ⟨first, s', hfirst, hended⟩ := h s hs hlen
  cases first with
  | error err =>
    refine ⟨.error err, s', bind_of_error hfirst, hended.len_le, hended.words_le, nofun, ?_, ?_⟩
    · intro other hother
      obtain rfl := Except.error.inj hother
      exact hended.error err rfl
    · rintro rest ⟨middle, hmiddle, -⟩
      obtain ⟨⟨b, hb⟩, -⟩ | hfull := hended.complete middle hmiddle
      · contradiction
      · obtain rfl := Except.error.inj hfull
        exact .inr rfl
  | ok b =>
    obtain ⟨hmiddle, hfits⟩ := hended.ok b rfl
    have hcount := htakes _ _ hmiddle
    obtain ⟨result, s'', hrest, hended'⟩ :=
      h' b s'.len (hlen.trans hended.len_le) hfits s' (by omega) le_rfl
    refine ⟨result, s'', (bind_of_ok hfirst).trans hrest, hended.len_le.trans hended'.len_le,
      hended'.words_le.trans hended.words_le, ?_, hended'.error, ?_⟩
    · intro a ha
      obtain ⟨hrest, hfits⟩ := hended'.ok a ha
      exact ⟨⟨s'.words, hmiddle, hrest⟩, hfits⟩
    · rintro rest ⟨middle, hmiddle', hrest⟩
      obtain ⟨-, rfl⟩ | hfull := hended.complete middle hmiddle'
      · exact hended'.complete rest hrest
      · contradiction

theorem take {test : Word → Option β} {f : β → SketchM α}
    {Rest : β → List Word → List Word → Prop} (h : ∀ b, Parses n low (f b) (Rest b) Fits) :
    Parses (n + 1) low (SketchM.take test >>= f) (fun words rest =>
      ∃ word others b, words = word :: others ∧ test word = some b ∧ Rest b others rest) Fits := by
  intro s hs hlen
  cases hwords : s.words with
  | nil =>
    have hrun : SketchM.take test s = some (.error .eunexpectedToken, s) := by
      unfold SketchM.take
      rw [hwords]
    refine ⟨_, s, bind_of_error hrun, .unexpected le_rfl le_rfl ?_⟩
    rintro rest ⟨word, others, b, heq, -⟩
    rw [hwords] at heq
    contradiction
  | cons word others =>
    rw [hwords, List.length_cons, Nat.succ_lt_succ_iff] at hs
    have hshorter : others.length ≤ s.words.length := by
      rw [hwords]
      exact Nat.le_succ _
    cases htest : test word with
    | none =>
      have hrun : SketchM.take test s =
          some (.error .eunexpectedToken, { s with words := others }) := by
        unfold SketchM.take
        simp only [hwords, htest]
      refine ⟨_, _, bind_of_error hrun, .unexpected le_rfl hshorter ?_⟩
      rintro rest ⟨word', others', b, heq, hpass, -⟩
      rw [hwords] at heq
      obtain ⟨rfl, rfl⟩ := List.cons.inj heq
      rw [htest] at hpass
      contradiction
    | some b =>
      have hrun : SketchM.take test s = some (.ok b, { s with words := others }) := by
        unfold SketchM.take
        simp only [hwords, htest]
      obtain ⟨result, s', hrest, hended⟩ := h b { s with words := others } hs hlen
      refine ⟨result, s', (bind_of_ok hrun).trans hrest, hended.shift le_rfl hshorter ?_⟩
      intro rest
      constructor
      · rintro ⟨word', others', b', heq, hpass, htakes⟩
        rw [hwords] at heq
        obtain ⟨rfl, rfl⟩ := List.cons.inj heq
        rw [htest] at hpass
        cases hpass
        exact htakes
      · exact fun htakes => ⟨word, others, b, hwords, htest, htakes⟩

theorem readToken {f : Token → SketchM α}
    (hend : ∀ s, s.words = [] → low ≤ s.len →
      ∃ result s', f .teof s = some (result, s') ∧ Ended Takes Fits s result s')
    (hword : ∀ word, Parses n low (f word.token) (fun others rest => Takes (word :: others) rest)
      Fits) : Parses (n + 1) low (SketchM.readToken >>= f) Takes Fits := by
  intro s hs hlen
  cases hwords : s.words with
  | nil =>
    have hrun : SketchM.readToken s = some (.ok .teof, s) := by
      unfold SketchM.readToken
      rw [hwords]
    obtain ⟨result, s', hrest, hended⟩ := hend s hwords hlen
    exact ⟨result, s', (bind_of_ok hrun).trans hrest, hended⟩
  | cons word others =>
    rw [hwords, List.length_cons, Nat.succ_lt_succ_iff] at hs
    have hrun : SketchM.readToken s = some (.ok word.token, { s with words := others }) := by
      unfold SketchM.readToken
      rw [hwords]
    obtain ⟨result, s', hrest, hended⟩ := hword word { s with words := others } hs hlen
    refine ⟨result, s', (bind_of_ok hrun).trans hrest, hended.shift le_rfl ?_ ?_⟩
    · rw [hwords]
      exact Nat.le_succ _
    · intro rest
      rw [hwords]

theorem step {f : β → SketchM α} {s s' : Sketch} {b : β}
    (hrun : m s = some (.ok b, s')) (hwords : s'.words = s.words) (hgrows : s.len ≤ s'.len)
    (h : ∃ result s'', f b s' = some (result, s'') ∧ Ended Takes Fits s' result s'') :
    ∃ result s'', (m >>= f) s = some (result, s'') ∧ Ended Takes Fits s result s'' := by
  obtain ⟨result, s'', hrest, hended⟩ := h
  refine ⟨result, s'', (bind_of_ok hrun).trans hrest, hended.shift hgrows ?_ ?_⟩
  · rw [hwords]
  · intro rest
    rw [hwords]

theorem full {f : β → SketchM α} {s s' : Sketch}
    (hrun : m s = some (.error .emalloc, s')) (hwords : s'.words = s.words)
    (hgrows : s.len ≤ s'.len) (hfull : 2 ^ 32 ≤ s'.len) :
    ∃ result s'', (m >>= f) s = some (result, s'') ∧ Ended Takes Fits s result s'' := by
  refine ⟨_, s', bind_of_error hrun, hgrows, ?_, nofun, ?_, fun _ _ => .inr rfl⟩
  · rw [hwords]
  · intro err herr
    obtain rfl := Except.error.inj herr
    exact .inr ⟨rfl, hfull⟩

theorem alloc {size : ℕ} {f : ℕ → SketchM α}
    (h : ∀ off low', low ≤ off → off + size ≤ low' → Parses n low' (f off) Takes Fits) :
    Parses n low (SketchM.alloc size >>= f) Takes Fits := by
  intro s hs hlen
  have hgrows := (Buf.le_alignOffset (s.len + size)).1
  by_cases hfull : s.len > uint32Max
  · have hrun : SketchM.alloc size s = some (.error .emalloc, _) := if_pos hfull
    have hmax : 2 ^ 32 ≤ s.len := hfull
    exact full hrun rfl (by dsimp only; omega) (by dsimp only; omega)
  · have hrun : SketchM.alloc size s = some (.ok s.len, _) := if_neg hfull
    exact step hrun rfl (by dsimp only; omega) (h s.len _ hlen hgrows _ hs le_rfl)

variable {f : Unit → SketchM α}

theorem storeBytes {off : ℕ} {bytes : Bytes}
    (hrange : off + bytes.length ≤ low) (h : Parses n low (f ()) Takes Fits) :
    Parses n low (SketchM.storeBytes off bytes >>= f) Takes Fits := by
  intro s hs hlen
  have hrun : SketchM.storeBytes off bytes s = some (.ok (), _) := if_pos (hrange.trans hlen)
  exact step hrun rfl le_rfl (h _ hs hlen)

theorem storeWords {off : ℕ} {words : List ℕ}
    (hrange : off + 4 * words.length ≤ low) (h : Parses n low (f ()) Takes Fits) :
    Parses n low (SketchM.storeWords off words >>= f) Takes Fits :=
  storeBytes (by rwa [length_words]) h

theorem intern {text : Bytes} {f : Cvalue → SketchM α}
    (h : ∀ val low', low ≤ low' → Parses n low' (f val) Takes Fits) :
    Parses n low (SketchM.intern text >>= f) Takes Fits := by
  intro s hs hlen
  have hgrows := (Buf.le_alignOffset (s.len + (keyOf text).len)).1
  cases hfind : s.strings.find? ((copyHashing bare).same (keyOf text)) with
  | some ent => exact step (intern_of_some hfind) rfl le_rfl (h _ low le_rfl _ hs hlen)
  | none =>
    have hrun := intern_of_none hfind
    rw [addString_eq] at hrun
    split at hrun
    · rename_i hfull
      have hmax : 2 ^ 32 ≤ s.len := hfull
      exact full hrun rfl (by dsimp only; omega) (by dsimp only; omega)
    · exact step hrun rfl (by dsimp only; omega) (h _ low le_rfl _ hs (by dsimp only; omega))

theorem word {γ : Type} {test : Word → Option β} (make : γ → Word) (view : γ → β)
    (htest : ∀ word b, test word = some b ↔ ∃ c, word = make c ∧ view c = b)
    {f : β → SketchM α} {Rest : β → List Word → List Word → Prop}
    (h : ∀ b, Parses n low (f b) (Rest b) Fits) :
    Parses (n + 1) low (SketchM.take test >>= f) (fun words rest =>
      ∃ c others, words = make c :: others ∧ Rest (view c) others rest) Fits := by
  refine (take h).congr fun words rest => ?_
  constructor
  · rintro ⟨word, others, b, rfl, hword, hrest⟩
    obtain ⟨c, rfl, rfl⟩ := (htest word b).mp hword
    exact ⟨c, others, rfl, hrest⟩
  · rintro ⟨c, others, rfl, hrest⟩
    exact ⟨make c, others, view c, rfl, (htest _ _).mpr ⟨c, rfl, rfl⟩, hrest⟩

theorem readText {f : Bytes → SketchM α} {Rest : Bytes → List Word → List Word → Prop}
    (h : ∀ text, Parses n low (f text) (Rest text) Fits) :
    Parses (n + 1) low (SketchM.readText >>= f) (fun words rest =>
      ∃ text others, words = .string text :: others ∧ Rest text others rest) Fits := by
  refine word .string id (fun word text => ?_) h
  cases word <;> simp

theorem readNum {f : Num → SketchM α} {Rest : Num → List Word → List Word → Prop}
    (h : ∀ num, Parses n low (f num) (Rest num) Fits) :
    Parses (n + 1) low (SketchM.readNum >>= f) (fun words rest =>
      ∃ num others, words = .double num :: others ∧ Rest num others rest) Fits := by
  refine word .double id (fun word num => ?_) h
  cases word <;> simp

theorem readSymbol {f : NodeType → SketchM α} {Rest : NodeType → List Word → List Word → Prop}
    (h : ∀ nodet, Parses n low (f nodet) (Rest nodet) Fits) :
    Parses (n + 1) low (SketchM.readSymbol >>= f) (fun words rest =>
      ∃ name others, words = .symbol name :: others ∧
        Rest (ParserM.symbol2node name.bytes) others rest) Fits := by
  refine word .symbol (fun name => ParserM.symbol2node name.bytes) (fun word nodet => ?_) h
  cases word <;> simp

theorem expect {t : Token} {other : Word} (hword : ∀ word : Word, word.token = t ↔ word = other)
    (h : Parses n low (f ()) Takes Fits) :
    Parses (n + 1) low (SketchM.expect t >>= f) (fun words rest =>
      ∃ others, words = other :: others ∧ Takes others rest) Fits := by
  refine (word (fun _ : Unit => other) id (fun word _ => ?_) fun _ => h).congr
    fun words rest => ?_
  · simp [hword]
  · exact ⟨fun ⟨_, others⟩ => others, fun others => ⟨(), others⟩⟩

theorem loads {f : Cvalue → SketchM α}
    (h : ∀ val low', low ≤ low' → Parses n low' (f val) Takes Fits) :
    Parses (n + 1) low (SketchM.loads >>= f) (fun words rest =>
      ∃ text others, words = .string text :: others ∧ Takes others rest) Fits := by
  have hassoc : SketchM.loads >>= f = SketchM.readText >>= fun text => SketchM.intern text >>= f :=
    bind_assoc _ _ _
  rw [hassoc]
  exact readText fun text => intern h

theorem vtype {f : VersionType → SketchM α} (h : ∀ vtype, Parses n low (f vtype) Takes Fits) :
    Parses n low (SketchM.vtype >>= f) Takes Fits :=
  fun s hs hlen => step rfl rfl le_rfl (h s.vtype s hs hlen)

theorem setVtype {vtype : VersionType}
    (h : Parses n low (f ()) Takes Fits) : Parses n low (SketchM.setVtype vtype >>= f) Takes Fits :=
  fun s hs hlen => step rfl rfl le_rfl (h { s with vtype := vtype } hs hlen)

theorem versionRead (h : Parses n low (f ()) Takes Fits) :
    Parses n low (SketchM.versionRead >>= f) Takes Fits :=
  fun s hs hlen => step rfl rfl le_rfl (h { s with vague := true } hs hlen)

theorem linkNext {prev curr : ℕ} (hprev : prev ≠ 0 → prev + 8 ≤ low)
    (h : Parses n low (f ()) Takes Fits) :
    Parses n low (SketchM.linkNext prev curr >>= f) Takes Fits := by
  unfold SketchM.linkNext
  split
  · rename_i hlink
    exact storeWords (by simp only [List.length_singleton]; omega) h
  · exact h

theorem storeWords_last {off : ℕ} {words : List ℕ} {Fits : Unit → ℕ → Prop}
    (hrange : off + 4 * words.length ≤ low) (hfits : ∀ len, low ≤ len → Fits () len) :
    Parses n low (SketchM.storeWords off words) (fun words rest => rest = words) Fits := by
  have hpure : SketchM.storeWords off words >>= Pure.pure = SketchM.storeWords off words :=
    bind_pure _
  rw [← hpure]
  exact storeWords hrange (pure hfits)

end Parses

def AnyFits {α : Type} (_ : α) (_ : ℕ) : Prop := True

theorem token_eq_lparen (word : Word) : word.token = .tlparen ↔ word = .lparen := by
  cases word <;> simp [Word.token]

theorem token_eq_rparen (word : Word) : word.token = .trparen ↔ word = .rparen := by
  cases word <;> simp [Word.token]

theorem parses_comparFields (n : ℕ) {low off : ℕ} (hoff : off + comparSize ≤ low) (t : NodeType)
    (cvendprod : Cvalue) : Parses (n + 1) low (SketchM.comparFields t off cvendprod)
      (fun words rest => ∃ text others, words = .string text :: others ∧ rest = others)
      AnyFits := by
  unfold comparSize at hoff
  unfold SketchM.comparFields
  refine Parses.vtype fun vtype => ?_
  split
  · refine Parses.readText fun text => Parses.versionRead (Parses.storeWords_last ?_ ?_)
    · simp [length_vagueverWords]
      omega
    · exact fun _ _ => trivial
  · refine Parses.loads fun cversion low' hlow => Parses.storeWords_last ?_ fun _ _ => trivial
    simp
    omega

theorem parses_compar (n low : ℕ) (t : NodeType) : Parses n low (SketchM.compar t)
    (fun words rest => ∃ vendprod version,
      words = .string vendprod :: .string version :: .rparen :: rest) AnyFits := by
  apply Parses.mono _ (Nat.le_add_right n 3) le_rfl
  apply Parses.congr
  case h =>
    exact Parses.alloc fun off low' _ hoff => Parses.loads fun cvendprod low'' hlow =>
      (parses_comparFields (n + 1) (hoff.trans hlow) t cvendprod).bind
        (by rintro words rest ⟨text, others, rfl, rfl⟩; simp; omega)
        fun _ _ _ _ => Parses.expect token_eq_rparen (Parses.pure (n := n) fun _ _ => trivial)
  case htakes =>
    intro words rest
    constructor
    · rintro ⟨vendprod, others, rfl, middle, ⟨version, others', rfl, rfl⟩, others'', rfl, rfl⟩
      exact ⟨vendprod, version, rfl⟩
    · rintro ⟨vendprod, version, rfl⟩
      exact ⟨vendprod, _, rfl, _, ⟨version, _, rfl, rfl⟩, rest, rfl, rfl⟩

def TakesVexpr (words rest : List Word) : Prop :=
  ∃ body, words = body ++ rest ∧ IsVexpr (.lparen :: body)

/-- Operands up to the right parenthesis, and no less than one of them if it is
the first that is looked for. -/
def TakesOperands (first : Prop) (words rest : List Word) : Prop :=
  ∃ operands : List (List Word), (∀ operand ∈ operands, IsVexpr operand) ∧
    (first → operands ≠ []) ∧ words = operands.flatten ++ .rparen :: rest

variable {words : List Word}

theorem IsVexpr.exists_body (h : IsVexpr words) :
    ∃ body, words = .lparen :: body := by
  cases h <;> exact ⟨_, rfl⟩

variable {first : Prop} {others rest : List Word}

theorem takesOperands_first (h : ¬ first) :
    TakesOperands first (.rparen :: others) rest ↔ rest = others := by
  constructor
  · rintro ⟨operands, hvexprs, -, heq⟩
    cases operands with
    | nil =>
      rw [List.flatten_nil, List.nil_append] at heq
      exact (List.cons.inj heq).2.symm
    | cons operand operands =>
      obtain ⟨body, rfl⟩ := (hvexprs operand List.mem_cons_self).exists_body
      simp at heq
  · rintro rfl
    exact ⟨[], by simp, fun hfirst => absurd hfirst h, rfl⟩

theorem takesOperands_none (h : first) :
    ¬ TakesOperands first (.rparen :: others) rest := by
  rintro ⟨operands, hvexprs, hne, heq⟩
  cases operands with
  | nil => exact hne h rfl
  | cons operand operands =>
    obtain ⟨body, rfl⟩ := (hvexprs operand List.mem_cons_self).exists_body
    simp at heq

theorem takesOperands_cons :
    TakesOperands first (.lparen :: others) rest ↔
      ∃ middle, TakesVexpr others middle ∧ TakesOperands False middle rest := by
  constructor
  · rintro ⟨operands, hvexprs, -, heq⟩
    cases operands with
    | nil => simp at heq
    | cons operand operands =>
      have hoperand := hvexprs operand List.mem_cons_self
      obtain ⟨body, rfl⟩ := hoperand.exists_body
      rw [List.flatten_cons, List.cons_append, List.cons_append, List.append_assoc] at heq
      exact ⟨_, ⟨body, (List.cons.inj heq).2, hoperand⟩, operands,
        fun other hother => hvexprs other (List.mem_cons_of_mem _ hother), False.elim, rfl⟩
  · rintro ⟨middle, ⟨body, rfl, hbody⟩, operands, hvexprs, -, rfl⟩
    refine ⟨(.lparen :: body) :: operands, ?_, fun _ => List.cons_ne_nil _ _, ?_⟩
    · intro other hother
      obtain rfl | hother := List.mem_cons.mp hother
      · exact hbody
      · exact hvexprs other hother
    · rw [List.flatten_cons, List.cons_append, List.cons_append, List.append_assoc]

theorem takesOperands_other {word : Word}
    (hlparen : word ≠ .lparen) (hrparen : word ≠ .rparen) :
    ¬ TakesOperands first (word :: others) rest := by
  rintro ⟨operands, hvexprs, -, heq⟩
  cases operands with
  | nil => exact hrparen (List.cons.inj heq).1
  | cons operand operands =>
    obtain ⟨body, rfl⟩ := (hvexprs operand List.mem_cons_self).exists_body
    exact hlparen (List.cons.inj heq).1

theorem takesOperands_nil : ¬ TakesOperands first [] rest := by
  rintro ⟨operands, -, -, heq⟩
  simp at heq

def TakesNode (nodet : NodeType) (words rest : List Word) : Prop :=
  if nodet.isCompar then
    ∃ vendprod version, words = .string vendprod :: .string version :: .rparen :: rest
  else if nodet.isBoolean then TakesOperands (0 = 0) words rest
  else if nodet = .nalpha then
    ∃ others, words = .lparen :: others ∧
      ∃ middle, TakesVexpr others middle ∧ ∃ others', middle = .rparen :: others' ∧ rest = others'
  else False

theorem symbol2node_iff {type : NodeType} (h : keyword type ≠ []) (name : CString) :
    ParserM.symbol2node name.bytes = type ↔ name.bytes = keyword type := by
  constructor
  · rintro rfl
    have hname : name.bytes.takeWhile (· ≠ 0) = name.bytes :=
      List.takeWhile_eq_self_iff.mpr (by simpa using name.no_zero)
    revert h
    unfold ParserM.symbol2node
    rw [hname]
    dsimp only
    repeat' split
    all_goals first
      | exact fun h => absurd rfl h
      | exact fun _ => by assumption
  · intro hname
    rw [hname, symbol2node_keyword h]

theorem isCompar_iff (nodet : NodeType) :
    nodet.isCompar = true ↔ ∃ op : CompareOp, nodet = op.nodeType := by
  constructor
  · intro h
    cases nodet <;> first | contradiction | skip
    exacts [⟨.lt, rfl⟩, ⟨.le, rfl⟩, ⟨.eq, rfl⟩, ⟨.ge, rfl⟩, ⟨.gt, rfl⟩]
  · rintro ⟨op, rfl⟩
    cases op <;> rfl

theorem isBoolean_iff (nodet : NodeType) :
    nodet.isBoolean = true ↔ ∃ op : BoolOp, nodet = op.nodeType := by
  constructor
  · intro h
    cases nodet <;> first | contradiction | skip
    exacts [⟨.or, rfl⟩, ⟨.and, rfl⟩]
  · rintro ⟨op, rfl⟩
    cases op <;> rfl

theorem takesVexpr_iff (words rest : List Word) : TakesVexpr words rest ↔
    ∃ name others, words = .symbol name :: others ∧
      TakesNode (ParserM.symbol2node name.bytes) others rest := by
  constructor
  · rintro ⟨body, rfl, hbody⟩
    generalize hwords : Word.lparen :: body = whole at hbody
    cases hbody with
    | compar op name symbol vendprod version =>
      obtain ⟨-, rfl⟩ := List.cons.inj hwords
      have htype := (symbol2node_iff (by cases op <;> simp [CompareOp.nodeType, keyword]) name).mpr
        symbol
      refine ⟨name, _, rfl, ?_⟩
      rw [htype, TakesNode, if_pos ((isCompar_iff _).mpr ⟨op, rfl⟩)]
      exact ⟨vendprod, version, rfl⟩
    | boolean op name symbol operands nonempty vexprs =>
      obtain ⟨-, rfl⟩ := List.cons.inj hwords
      have htype := (symbol2node_iff (by cases op <;> simp [BoolOp.nodeType, keyword]) name).mpr
        symbol
      refine ⟨name, _, rfl, ?_⟩
      rw [htype, TakesNode, if_neg (by cases op <;> decide),
        if_pos ((isBoolean_iff _).mpr ⟨op, rfl⟩)]
      exact ⟨operands, vexprs, fun _ => nonempty, by simp⟩
    | nalpha name symbol expr vexpr =>
      obtain ⟨-, rfl⟩ := List.cons.inj hwords
      have htype := (symbol2node_iff (by simp [keyword]) name).mpr symbol
      refine ⟨name, _, rfl, ?_⟩
      rw [htype, TakesNode, if_neg (by decide), if_neg (by decide), if_pos rfl]
      obtain ⟨inner, rfl⟩ := vexpr.exists_body
      exact ⟨inner ++ .rparen :: rest, by simp, _, ⟨inner, rfl, vexpr⟩, rest, rfl, rfl⟩
  · rintro ⟨name, others, rfl, hnode⟩
    unfold TakesNode at hnode
    split at hnode
    · rename_i hcompar
      obtain ⟨op, hop⟩ := (isCompar_iff _).mp hcompar
      have hsymbol := (symbol2node_iff (by cases op <;> simp [CompareOp.nodeType, keyword]) name).mp
        hop
      obtain ⟨vendprod, version, rfl⟩ := hnode
      exact ⟨_, by simp, .compar op name hsymbol vendprod version⟩
    · split at hnode
      · rename_i hboolean
        obtain ⟨op, hop⟩ := (isBoolean_iff _).mp hboolean
        have hsymbol := (symbol2node_iff (by cases op <;> simp [BoolOp.nodeType, keyword]) name).mp
          hop
        obtain ⟨operands, hvexprs, hne, rfl⟩ := hnode
        have hvexpr := IsVexpr.boolean op name hsymbol operands (hne rfl) hvexprs
        exact ⟨.symbol name :: (operands.flatten ++ [Word.rparen]), by simp, hvexpr⟩
      · split at hnode
        · rename_i hnalpha
          have hsymbol := (symbol2node_iff (by simp [keyword]) name).mp hnalpha
          obtain ⟨others, rfl, middle, ⟨body, rfl, hbody⟩, others', rfl, rfl⟩ := hnode
          have hvexpr := IsVexpr.nalpha name hsymbol (.lparen :: body) hbody
          exact ⟨.symbol name :: (.lparen :: body ++ [Word.rparen]), by simp, hvexpr⟩
        · contradiction

theorem TakesVexpr.length_lt (h : TakesVexpr words rest) :
    rest.length < words.length := by
  obtain ⟨body, rfl, hbody⟩ := h
  have hne : body ≠ [] := by
    rintro rfl
    cases hbody
  have hpos := List.length_pos_of_ne_nil hne
  rw [List.length_append]
  omega

variable {fuel : ℕ}

theorem parses_nalpha {low : ℕ} (h : Parses fuel low (SketchM.vulnexpr fuel) TakesVexpr AnyFits)
    (tmp : VersionType) : Parses fuel low (do
        SketchM.expect .tlparen
        let val ← SketchM.vulnexpr fuel
        SketchM.expect .trparen
        SketchM.setVtype tmp
        return val)
      (fun words rest => ∃ others, words = .lparen :: others ∧ ∃ middle, TakesVexpr others middle ∧
        ∃ others', middle = .rparen :: others' ∧ rest = others') AnyFits := by
  refine (Parses.expect token_eq_lparen (h.bind (k := fuel) ?_ ?_)).mono (Nat.le_succ fuel) le_rfl
  · intro words rest htakes
    have hlength := htakes.length_lt
    exact Nat.add_le_add_right hlength.le fuel
  · intro val low' hlow _
    refine (Parses.expect token_eq_rparen (Parses.setVtype ?_)).mono (Nat.le_succ fuel) le_rfl
    exact Parses.pure fun _ _ => trivial

theorem parses_operand
    (ihvulnexpr : ∀ low, 0 < low → Parses fuel low (SketchM.vulnexpr fuel) TakesVexpr AnyFits)
    (ihboolean : ∀ nodet bnode prev low, 0 < low → (prev ≠ 0 → prev + 8 ≤ low) →
      Parses fuel low (SketchM.boolean nodet fuel bnode prev) (TakesOperands (bnode = 0)) AnyFits)
    (nodet : NodeType) (bnode prev low : ℕ) (hlow : 0 < low) (hprev : prev ≠ 0 → prev + 8 ≤ low) :
    Parses fuel low (do
        let curr ← SketchM.alloc booleanSize
        let bnode := if bnode = 0 then curr else bnode
        let val ← SketchM.vulnexpr fuel
        SketchM.storeWords curr [nodet.toCode]
        SketchM.storeWords (curr + 8) [val]
        SketchM.linkNext prev curr
        SketchM.boolean nodet fuel bnode curr)
      (fun words rest => ∃ middle, TakesVexpr words middle ∧ TakesOperands False middle rest)
      AnyFits := by
  refine Parses.alloc fun curr low' hcurr hroom => ?_
  have hsize : booleanSize = 12 := rfl
  refine (ihvulnexpr low' (by omega)).bind (k := fuel) ?_ ?_
  · intro words rest htakes
    have hlength := htakes.length_lt
    exact Nat.add_le_add_right hlength.le fuel
  · intro val low'' hlow'' _
    refine Parses.storeWords (by simp only [List.length_singleton]; omega) ?_
    refine Parses.storeWords (by simp only [List.length_singleton]; omega) ?_
    refine Parses.linkNext (fun hlink => ?_) ?_
    · have hbefore := hprev hlink
      omega
    · -- an offset that was given out is not zero
      have hfirst : ((if bnode = 0 then curr else bnode) = 0) = False := by
        split <;> simp <;> omega
      rw [← hfirst]
      exact ihboolean nodet _ curr low'' (by omega) fun _ => by omega

theorem parses_vulnexpr_boolean (fuel : ℕ) :
    (∀ low, 0 < low → Parses fuel low (SketchM.vulnexpr fuel) TakesVexpr AnyFits) ∧
      ∀ nodet bnode prev low, 0 < low → (prev ≠ 0 → prev + 8 ≤ low) →
        Parses fuel low (SketchM.boolean nodet fuel bnode prev) (TakesOperands (bnode = 0))
          AnyFits := by
  induction fuel with
  | zero => exact ⟨fun _ _ => Parses.zero _, fun _ _ _ _ _ _ => Parses.zero _⟩
  | succ fuel ih =>
    obtain ⟨ihvulnexpr, ihboolean⟩ := ih
    constructor
    · intro low hlow
      rw [SketchM.vulnexpr]
      apply Parses.congr _ fun words rest => (takesVexpr_iff words rest).symm
      apply Parses.readSymbol
      intro nodet
      unfold TakesNode
      split
      · exact parses_compar fuel low nodet
      · split
        · exact ihboolean nodet 0 0 low hlow fun h => absurd rfl h
        · split
          · exact Parses.vtype fun vtype => Parses.setVtype (parses_nalpha (ihvulnexpr low hlow) vtype)
          · exact Parses.bail
    · intro nodet bnode prev low hlow hprev
      rw [SketchM.boolean]
      apply Parses.readToken
      · intro s hwords _
        refine ⟨_, s, rfl, .unexpected le_rfl le_rfl fun rest => ?_⟩
        rw [hwords]
        exact takesOperands_nil
      · intro word
        cases word with
        | lparen =>
          refine (parses_operand ihvulnexpr ihboolean nodet bnode prev low hlow hprev).congr ?_
          exact fun words rest => takesOperands_cons.symm
        | rparen =>
          change Parses fuel low (if bnode = 0 then _ else _) _ _
          split
          · rename_i hfirst
            refine Parses.bail.congr fun words rest => ?_
            simp [takesOperands_none hfirst]
          · rename_i hlater
            refine (Parses.pure fun _ _ => trivial).congr fun words rest => ?_
            exact (takesOperands_first hlater).symm
        | _ =>
          refine Parses.bail.congr fun words rest => ?_
          simp [takesOperands_other]

def TakesCve (words rest : List Word) : Prop :=
  ∃ id cvss2 cvss3 description others, words = .string id :: .double cvss2 :: .double cvss3 ::
    .string description :: .lparen :: others ∧ TakesVexpr others rest

theorem parses_cve (fixedPoint : Num → UInt32) (fuel low : ℕ) (hlow : 0 < low) :
    Parses fuel low (SketchM.cve fixedPoint fuel) TakesCve fun cve len => cve + 8 ≤ len := by
  have hsize : cveSize = 36 := rfl
  apply Parses.mono _ (Nat.le_add_right fuel 5) le_rfl
  apply Parses.congr
  case h =>
    exact Parses.alloc fun cve low₁ hcve hroom => Parses.loads fun id low₂ hlow₂ =>
      Parses.storeWords (by simp; omega) (Parses.readNum fun cvss2 =>
      Parses.storeWords (by simp; omega) (Parses.readNum fun cvss3 =>
      Parses.storeWords (by simp; omega) (Parses.storeWords (by simp; omega)
      (Parses.loads fun description low₃ hlow₃ =>
      Parses.storeWords (by simp; omega) (Parses.expect token_eq_lparen
      (((parses_vulnexpr_boolean fuel).1 low₃ (by omega)).bind (k := fuel)
        (fun words rest htakes => Nat.add_le_add_right htakes.length_lt.le fuel)
        fun vexpr low₄ hlow₄ _ =>
      Parses.storeWords (by simp; omega) (Parses.pure fun len hlen => by omega)))))))
  case htakes =>
    intro words rest
    constructor
    · rintro ⟨id, _, rfl, cvss2, _, rfl, cvss3, _, rfl, description, _, rfl, others, rfl, middle,
        hvexpr, rfl⟩
      exact ⟨id, cvss2, cvss3, description, others, rfl, hvexpr⟩
    · rintro ⟨id, cvss2, cvss3, description, others, rfl, hvexpr⟩
      exact ⟨id, _, rfl, cvss2, _, rfl, cvss3, _, rfl, description, _, rfl, others, rfl, rest,
        hvexpr, rfl⟩

def TakesProg (words rest : List Word) : Prop := IsProg words ∧ rest = []

theorem isProg_nil : IsProg [] := ⟨[], by simp, rfl⟩

theorem IsProg.cons {form : List Word} (hform : IsCve form) (hrest : IsProg rest) :
    IsProg (form ++ rest) := by
  obtain ⟨forms, hforms, rfl⟩ := hrest
  refine ⟨form :: forms, ?_, rfl⟩
  intro other hother
  obtain rfl | hother := List.mem_cons.mp hother
  · exact hform
  · exact hforms other hother

theorem IsCve.exists_body (h : IsCve words) :
    ∃ body, words = .lparen :: body := by
  cases h
  exact ⟨_, rfl⟩

theorem not_isProg {word : Word} (h : word ≠ .lparen) (others : List Word) :
    ¬ IsProg (word :: others) := by
  rintro ⟨forms, hforms, heq⟩
  cases forms with
  | nil => simp at heq
  | cons form forms =>
    obtain ⟨body, rfl⟩ := (hforms form List.mem_cons_self).exists_body
    exact h (List.cons.inj heq).1

theorem isProg_cons (others : List Word) : IsProg (.lparen :: others) ↔
    ∃ name inner, others = .symbol name :: inner ∧ ParserM.symbol2node name.bytes = .cve ∧
      ∃ middle, TakesCve inner middle ∧ ∃ rest, middle = .rparen :: rest ∧ IsProg rest := by
  have hkeyword : keyword .cve ≠ [] := by simp [keyword]
  constructor
  · rintro ⟨forms, hforms, heq⟩
    cases forms with
    | nil => simp at heq
    | cons form forms =>
      have hform := hforms form List.mem_cons_self
      cases hform with
      | cve name symbol id description cvss2 cvss3 expr vexpr =>
        obtain ⟨body, rfl⟩ := vexpr.exists_body
        obtain ⟨-, rfl⟩ := List.cons.inj heq
        refine ⟨name, _, rfl, (symbol2node_iff hkeyword name).mpr symbol, .rparen :: forms.flatten,
          ⟨id, cvss2, cvss3, description, body ++ .rparen :: forms.flatten, by simp, body, rfl,
            vexpr⟩, _, rfl, forms, ?_, rfl⟩
        exact fun other hother => hforms other (List.mem_cons_of_mem _ hother)
  · rintro ⟨name, _, rfl, hname, _, ⟨id, cvss2, cvss3, description, _, rfl, body, rfl, hvexpr⟩,
      rest, rfl, hrest⟩
    have hform := IsCve.cve name ((symbol2node_iff hkeyword name).mp hname) id description cvss2
      cvss3 (.lparen :: body) hvexpr
    simpa using IsProg.cons hform hrest

def TakesForm (nodet : NodeType) (words rest : List Word) : Prop :=
  nodet = .cve ∧ ∃ middle, TakesCve words middle ∧
    ∃ others, middle = .rparen :: others ∧ TakesProg others rest

theorem takesProg_lparen (others rest : List Word) : TakesProg (.lparen :: others) rest ↔
    ∃ name inner, others = .symbol name :: inner ∧
      TakesForm (ParserM.symbol2node name.bytes) inner rest := by
  unfold TakesProg TakesForm
  rw [isProg_cons]
  constructor
  · rintro ⟨⟨name, inner, rfl, hname, middle, hcve, others', rfl, hprog⟩, rfl⟩
    exact ⟨name, inner, rfl, hname, _, hcve, others', rfl, hprog, rfl⟩
  · rintro ⟨name, inner, rfl, hname, middle, hcve, others', rfl, hprog, rfl⟩
    exact ⟨⟨name, inner, rfl, hname, _, hcve, others', rfl, hprog⟩, rfl⟩

theorem TakesCve.length_lt (h : TakesCve words rest) :
    rest.length < words.length := by
  obtain ⟨id, cvss2, cvss3, description, others, rfl, hvexpr⟩ := h
  have hlength := hvexpr.length_lt
  simp only [List.length_cons]
  omega

theorem parses_form {fixedPoint : Num → UInt32}
    (ih : ∀ prev low, 0 < low → (prev ≠ 0 → prev + 8 ≤ low) →
      Parses fuel low (SketchM.parseLoop fixedPoint fuel prev) TakesProg AnyFits)
    {prev low : ℕ} (hlow : 0 < low) (hprev : prev ≠ 0 → prev + 8 ≤ low) :
    Parses fuel low (do
        let curr ← SketchM.cve fixedPoint fuel
        SketchM.expect .trparen
        SketchM.linkNext prev curr
        SketchM.parseLoop fixedPoint fuel curr)
      (fun words rest => ∃ middle, TakesCve words middle ∧
        ∃ others, middle = .rparen :: others ∧ TakesProg others rest) AnyFits := by
  refine (parses_cve fixedPoint fuel low hlow).bind (k := fuel) ?_ ?_
  · intro words rest htakes
    exact Nat.add_le_add_right htakes.length_lt.le fuel
  · intro curr low' hlow' hcurr
    refine (Parses.expect token_eq_rparen (Parses.linkNext (fun hlink => ?_) ?_)).mono
      (Nat.le_succ fuel) le_rfl
    · exact (hprev hlink).trans hlow'
    · exact ih curr low' (by omega) fun _ => hcurr

theorem parses_parseLoop (fixedPoint : Num → UInt32) (fuel : ℕ) : ∀ prev low, 0 < low →
    (prev ≠ 0 → prev + 8 ≤ low) →
    Parses fuel low (SketchM.parseLoop fixedPoint fuel prev) TakesProg AnyFits := by
  induction fuel with
  | zero => exact fun _ _ _ _ => Parses.zero _
  | succ fuel ih =>
    intro prev low hlow hprev
    rw [SketchM.parseLoop]
    apply Parses.readToken
    · intro s hwords _
      refine ⟨_, s, rfl, .pure (fun rest => ?_) trivial⟩
      rw [hwords]
      exact and_iff_right isProg_nil
    · intro word
      by_cases hlparen : word = .lparen
      · subst hlparen
        change Parses fuel low (SketchM.readSymbol >>= _) _ _
        apply Parses.mono _ (Nat.le_succ fuel) le_rfl
        apply Parses.congr _ fun words rest => (takesProg_lparen words rest).symm
        apply Parses.readSymbol
        intro nodet
        unfold TakesForm
        split
        · rename_i hother
          refine Parses.bail.congr fun words rest => ?_
          simp [hother]
        · rename_i hcve
          refine (parses_form ih hlow hprev).congr fun words rest => ?_
          simp [not_not.mp hcve]
      · have heof : word.token ≠ .teof := by cases word <;> exact Token.noConfusion
        have hother : word.token ≠ .tlparen := fun h => hlparen ((token_eq_lparen word).mp h)
        rw [if_neg heof, if_pos hother]
        refine Parses.bail.congr fun words rest => ?_
        simp [TakesProg, not_isProg hlparen]

theorem sketchParse_spec (fixedPoint : Num → UInt32) (words : List Word)
    (hfuel : words.length < fuel) : ∃ result s,
      sketchParse fixedPoint words fuel = some (result, s) ∧
      (s.len < 2 ^ 32 → (result = .ok () ↔ IsProg words) ∧
        (result ≠ .ok () → result = .error .eunexpectedToken)) := by
  obtain ⟨result, s, hrun, hended⟩ := parses_parseLoop fixedPoint fuel 0 headerSize (by decide)
    (fun h => absurd rfl h) (emptySketch words) hfuel le_rfl
  refine ⟨result, s, hrun, fun hlen => ?_⟩
  have hnotFull : result ≠ .error .emalloc := by
    intro hfull
    obtain herr | ⟨-, hlarge⟩ := hended.error .emalloc hfull
    · contradiction
    · omega
  refine ⟨⟨fun hok => (hended.ok () hok).1.1, fun hprog => ?_⟩, fun hnotOk => ?_⟩
  · obtain ⟨⟨⟨⟩, hok⟩, -⟩ | hfull := hended.complete [] ⟨hprog, rfl⟩
    · exact hok
    · exact absurd hfull hnotFull
  · cases hresult : result with
    | ok u => exact absurd hresult hnotOk
    | error err =>
      obtain rfl | ⟨rfl, -⟩ := hended.error err hresult
      · rfl
      · exact absurd hresult hnotFull

/-- A fresh parser accepts the programs of the grammar and nothing else. -/
theorem vulnspecParse_accepts_grammar (fixedPoint : Num → UInt32) (input : Bytes) :
    ∃ p words, vulnspecParserInit = some p ∧ Delivers (vulnspecReaderInit input) words ∧
      ∃ enough result p',
        (∀ fuel ≥ enough, vulnspecParse fixedPoint p input fuel = some (result, p')) ∧
        (p'.progn.len < 2 ^ 32 → (result = .ok () ↔ IsProg words) ∧
          (¬ IsProg words → result = .error .eunexpectedToken)) := by
  obtain ⟨p, hinit⟩ := vulnspecParserInit_fresh
  have hdelivers := delivers_textWords input
  obtain ⟨result, s, hsketch, hspec⟩ :=
    sketchParse_spec fixedPoint (textWords input) (Nat.lt_succ_self _)
  obtain ⟨p', hrun, hconforms⟩ := vulnspecParse_fresh hinit hdelivers hsketch
  refine ⟨p, _, hinit, hdelivers, (textWords input).length + 1, result, p', ?_, fun hlen => ?_⟩
  · exact fun fuel hfuel => vulnspecParse_mono hfuel hrun
  · obtain ⟨haccept, hreject⟩ := hspec (hconforms.len ▸ hlen)
    exact ⟨haccept, fun hprog => hreject fun hok => hprog (haccept.mp hok)⟩

end Yans.Vulnspec
