import Yans.Vulnspec.Strtab
import Yans.Vulnspec.Syntax

/-! What the steps of the parser do to its state: which bytes of the program
they touch, which strings they add, and how much room they take. -/
namespace Yans.Vulnspec

open Library.Memory Util Util.Objtbl

def Runs {α : Type} (m : ParserM α) (p : Parser) (a : α) (p' : Parser) : Prop :=
  m p = some (.ok a, p')

theorem Runs.bind {α β : Type} {m : ParserM α} {f : α → ParserM β} {p p' p'' : Parser} {a : α}
    {b : β} (h : Runs m p a p') (h' : Runs (f a) p' b p'') : Runs (m >>= f) p b p'' := by
  change ParserM.bind m f p = _
  unfold ParserM.bind
  rw [h]
  exact h'

theorem runs_pure {α : Type} (a : α) (p : Parser) : Runs (pure a) p a p := rfl

theorem runs_failIf {condition : Prop} [Decidable condition] (h : ¬ condition) (err : Code)
    (p : Parser) : Runs (ParserM.failIf condition err) p () p := by
  unfold ParserM.failIf
  rw [if_neg h]
  rfl

theorem runs_get (p : Parser) : Runs ParserM.get p p p := rfl

/-! More fuel changes no result -/

def Extends {α : Type} (m m' : ParserM α) : Prop :=
  ∀ p result, m p = some result → m' p = some result

namespace Extends

variable {α β : Type} {m m' : ParserM α}

theorem refl (m : ParserM α) : Extends m m := fun _ _ h => h

theorem unfinished (m : ParserM α) : Extends ParserM.unfinished m := fun _ _ h => nomatch h

theorem bind {f f' : α → ParserM β} (h : Extends m m') (h' : ∀ a, Extends (f a) (f' a)) :
    Extends (m >>= f) (m' >>= f') := by
  intro p result hrun
  change ParserM.bind m f p = _ at hrun
  change ParserM.bind m' f' p = _
  unfold ParserM.bind at hrun ⊢
  cases hm : m p with
  | none => simp [hm] at hrun
  | some reply =>
    obtain ⟨outcome, p'⟩ := reply
    rw [h p _ hm]
    rw [hm] at hrun
    cases outcome with
    | error err => exact hrun
    | ok a => exact h' a p' result hrun

theorem bind_right {f f' : α → ParserM β} (m : ParserM α) (h : ∀ a, Extends (f a) (f' a)) :
    Extends (m >>= f) (m >>= f') := (refl m).bind h

end Extends

theorem vulnexpr_boolean_extends (fuel : ℕ) :
    Extends (ParserM.vulnexpr fuel) (ParserM.vulnexpr (fuel + 1)) ∧
      ∀ nodet bnode prev, Extends (ParserM.boolean nodet fuel bnode prev)
        (ParserM.boolean nodet (fuel + 1) bnode prev) := by
  induction fuel with
  | zero =>
    rw [ParserM.vulnexpr]
    refine ⟨.unfinished _, fun nodet bnode prev => ?_⟩
    rw [ParserM.boolean]
    exact .unfinished _
  | succ fuel ih =>
    obtain ⟨ihvulnexpr, ihboolean⟩ := ih
    constructor
    · rw [ParserM.vulnexpr, ParserM.vulnexpr]
      refine .bind_right _ fun nodet => ?_
      split
      · exact .refl _
      · split
        · exact ihboolean nodet 0 0
        · split
          · refine .bind_right _ fun p => .bind_right _ fun _ => .bind_right _ fun _ => ?_
            exact ihvulnexpr.bind fun val => .refl _
          · exact .refl _
    · intro nodet bnode prev
      rw [ParserM.boolean, ParserM.boolean]
      refine .bind_right _ fun tok => ?_
      split
      · refine .bind_right _ fun curr => ihvulnexpr.bind fun val => ?_
        exact .bind_right _ fun _ => .bind_right _ fun _ => .bind_right _ fun _ => ihboolean _ _ _
      · exact .refl _

theorem cve_extends (fixedPoint : Num → UInt32) (fuel : ℕ) :
    Extends (ParserM.cve fixedPoint fuel) (ParserM.cve fixedPoint (fuel + 1)) := by
  iterate 13 refine .bind_right _ fun _ => ?_
  exact (vulnexpr_boolean_extends fuel).1.bind fun _ => .refl _

theorem parseLoop_extends (fixedPoint : Num → UInt32) (fuel : ℕ) : ∀ prev,
    Extends (ParserM.parseLoop fixedPoint fuel prev)
      (ParserM.parseLoop fixedPoint (fuel + 1) prev) := by
  induction fuel with
  | zero => exact fun _ => .unfinished _
  | succ fuel ih =>
    intro prev
    rw [ParserM.parseLoop, ParserM.parseLoop]
    refine .bind_right _ fun tok => ?_
    split
    · exact .refl _
    · refine .bind_right _ fun _ => .bind_right _ fun _ => .bind_right _ fun _ => ?_
      exact (cve_extends fixedPoint fuel).bind fun curr => .bind_right _ fun _ =>
        .bind_right _ fun _ => ih curr

theorem vulnspecParse_mono {fixedPoint : Num → UInt32} {p : Parser} {input : Bytes}
    {fuel fuel' : ℕ} (hle : fuel ≤ fuel') {result : Except Code Unit × Parser}
    (h : vulnspecParse fixedPoint p input fuel = some result) :
    vulnspecParse fixedPoint p input fuel' = some result := by
  induction hle with
  | refl => exact h
  | step _ ih => exact parseLoop_extends fixedPoint _ 0 _ _ ih

/-! The room that a program takes -/

/-- The strings stored so far and the length of the program. -/
structure Layout where
  strings : List CString
  len : ℕ
deriving DecidableEq

def Layout.alloc (layout : Layout) (n : ℕ) : Layout :=
  { layout with len := Buf.alignOffset (layout.len + n) }

/-- A string takes room the first time it occurs. -/
def Layout.intern (layout : Layout) (text : CString) : Layout :=
  if text ∈ layout.strings then layout
  else ⟨text :: layout.strings, (layout.alloc (text.bytes.length + 1)).len⟩

theorem Layout.len_le_alloc (layout : Layout) (n : ℕ) :
    layout.len + n ≤ (layout.alloc n).len :=
  (Buf.le_alignOffset _).1

theorem Layout.len_le_intern (layout : Layout) (text : CString) :
    layout.len ≤ (layout.intern text).len := by
  unfold intern
  split
  · exact le_rfl
  · exact le_trans (Nat.le_add_right _ _) (layout.len_le_alloc _)

def layoutOf (p : Parser) (strings : Strings) : Layout := ⟨strings.map Prod.fst, p.progn.len⟩

structure Stored (progn : Buf) (text : CString) (val : ℕ) : Prop where
  low : headerSize ≤ val
  high : val + (text.bytes.length + 1) ≤ progn.len
  bytes : ∀ i ≤ text.bytes.length, byteAt progn.data (val + i) = byteAt (text.bytes ++ [0]) i

structure ParserOk (p : Parser) (strings : Strings) : Prop where
  strtab : HoldsStrings p.strtab strings
  low : headerSize ≤ p.progn.len
  aligned : p.progn.len % 8 = 0
  zeros : ∀ i, p.progn.len ≤ i → byteAt p.progn.data i = 0
  stored : ∀ text val, (text, val) ∈ strings → Stored p.progn text val
  count : 8 * strings.length ≤ p.progn.len

/-- The parser goes from one state to a later one and touches only bytes of a
region; new strings are in new room. -/
structure Evolves (region : ℕ → Prop) (p : Parser) (strings : Strings) (p' : Parser)
    (strings' : Strings) : Prop where
  ok : ParserOk p' strings'
  len_le : p.progn.len ≤ p'.progn.len
  frame : ∀ i, ¬ region i → byteAt p'.progn.data i = byteAt p.progn.data i
  keeps : ∀ text val, (text, val) ∈ strings → (text, val) ∈ strings'
  fresh : ∀ text val, (text, val) ∈ strings' → (text, val) ∈ strings ∨ p.progn.len ≤ val
  vtype_eq : p'.vtype = p.vtype

def Beyond (p : Parser) (i : ℕ) : Prop := p.progn.len ≤ i

def Range (off len i : ℕ) : Prop := off ≤ i ∧ i < off + len

namespace Evolves

variable {region region' : ℕ → Prop} {p p' p'' : Parser} {strings strings' strings'' : Strings}

theorem mono (h : Evolves region p strings p' strings') (hregion : ∀ i, region i → region' i) :
    Evolves region' p strings p' strings' :=
  { h with frame := fun i hi => h.frame i fun hr => hi (hregion i hr) }

theorem trans (h : Evolves region p strings p' strings')
    (h' : Evolves region p' strings' p'' strings'') : Evolves region p strings p'' strings'' where
  ok := h'.ok
  len_le := h.len_le.trans h'.len_le
  frame := fun i hi => (h'.frame i hi).trans (h.frame i hi)
  keeps := fun text val hmem => h'.keeps text val (h.keeps text val hmem)
  fresh := by
    intro text val hmem
    obtain hmem | hlow := h'.fresh text val hmem
    · exact h.fresh text val hmem
    · exact .inr (h.len_le.trans hlow)
  vtype_eq := h'.vtype_eq.trans h.vtype_eq

theorem beyond (h : Evolves (Beyond p') p' strings' p'' strings'')
    (hlen : p.progn.len ≤ p'.progn.len) : Evolves (Beyond p) p' strings' p'' strings'' :=
  h.mono fun _ hi => hlen.trans hi

theorem refl (ok : ParserOk p strings) : Evolves region p strings p strings :=
  ⟨ok, le_rfl, fun _ _ => rfl, fun _ _ h => h, fun _ _ h => .inl h, rfl⟩

theorem reader (ok : ParserOk p strings) (r : Reader) :
    Evolves region p strings { p with r := r } strings :=
  ⟨⟨ok.strtab, ok.low, ok.aligned, ok.zeros, ok.stored, ok.count⟩, le_rfl, fun _ _ => rfl, fun _ _ h => h,
    fun _ _ h => .inl h, rfl⟩

end Evolves

section Tokens

variable {p : Parser} {lexeme : Lexeme} {lexemes : List Lexeme}

theorem runs_readToken (hreadable : lexeme.Readable) (h : Spells (lexeme :: lexemes) p.r.input) :
    ∃ rest, Spells lexemes rest ∧
      Runs ParserM.readToken p lexeme.token { p with r := lexeme.load p.r rest } := by
  generalize hinput : p.r.input = input at h
  cases h with
  | @cons _ _ blanks text rest hblanks hspelled hends hspells =>
    refine ⟨rest, hspells, ?_⟩
    unfold Runs ParserM.readToken
    rw [readToken_spelled p.r hblanks hreadable hspelled hends hinput]

theorem runs_expect (hreadable : lexeme.Readable) (h : Spells (lexeme :: lexemes) p.r.input) :
    ∃ rest, Spells lexemes rest ∧
      Runs (ParserM.expect lexeme.token) p () { p with r := lexeme.load p.r rest } := by
  obtain ⟨rest, hspells, hread⟩ := runs_readToken hreadable h
  exact ⟨rest, hspells, hread.bind (runs_failIf (not_not.mpr rfl) _ _)⟩

@[simp] theorem load_input (r : Reader) (rest : Bytes) (lexeme : Lexeme) :
    (lexeme.load r rest).input = rest := by
  cases lexeme <;> rfl

theorem symbol2node_keyword {type : NodeType} (h : keyword type ≠ []) :
    ParserM.symbol2node (keyword type) = type := by
  cases type <;> first | rfl | exact absurd rfl h

theorem symbolName_keyword {type : NodeType} (h : keyword type ≠ []) :
    SymbolName (keyword type) := by
  cases type <;> first
    | exact absurd rfl h
    | simp [SymbolName, keyword, isDelimiter, isBlank, isNumberStart, Library.Decimal.IsDigit]

theorem runs_readSymbol {type : NodeType} (htype : keyword type ≠ [])
    (h : Spells (.symbol (keyword type) :: lexemes) p.r.input) :
    ∃ rest, Spells lexemes rest ∧
      Runs ParserM.readSymbol p type { p with r := { p.r with input := rest, symbol := keyword type } } := by
  have hreadable : (Lexeme.symbol (keyword type)).Readable := symbolName_keyword htype
  obtain ⟨rest, hspells, hread⟩ := runs_readToken hreadable h
  refine ⟨rest, hspells, hread.bind ?_⟩
  refine (runs_failIf (not_not.mpr rfl) _ _).bind ((runs_get _).bind ?_)
  rw [Lexeme.load, symbol2node_keyword htype]
  exact runs_pure _ _

end Tokens

section Memory

variable {p : Parser} {strings : Strings}

theorem runs_prognAlloc (ok : ParserOk p strings) {n : ℕ} (hn : n ≠ 0)
    (hlen : p.progn.len < 2 ^ 32) :
    ∃ progn, Runs (ParserM.prognAlloc n) p p.progn.len { p with progn := progn } ∧
      (∀ region, Evolves region p strings { p with progn := progn } strings) ∧
      layoutOf { p with progn := progn } strings = (layoutOf p strings).alloc n := by
  obtain ⟨allocated, halloc, hallocated, hbytes⟩ := @Buf.alloc_eq p.progn n hn
  have hsame : ∀ i, byteAt allocated.align.data i = byteAt p.progn.data i := by
    intro i
    rw [Buf.byteAt_align, hbytes]
  have halign : allocated.align.len = Buf.alignOffset (p.progn.len + n) := by
    rw [← hallocated]
    rfl
  have hgrows : p.progn.len ≤ allocated.align.len := by
    have := (Buf.le_alignOffset (p.progn.len + n)).1
    omega
  refine ⟨allocated.align, ?_, ?_, ?_⟩
  · unfold Runs ParserM.prognAlloc vulnspecPrognAlloc
    rw [halloc]
    dsimp only
    rw [if_neg (by unfold uint32Max; omega)]
  · intro region
    have hmod : allocated.align.len % 8 = 0 := by
      rw [halign]
      exact Buf.alignOffset_mod _
    refine ⟨⟨ok.strtab, ok.low.trans hgrows, hmod, ?_, ?_, ok.count.trans hgrows⟩, hgrows,
      fun i _ => hsame i, fun _ _ h => h, fun _ _ h => .inl h, rfl⟩
    · intro i hi
      rw [hsame]
      exact ok.zeros i (hgrows.trans hi)
    · intro text val hmem
      have hstored := ok.stored text val hmem
      exact ⟨hstored.low, hstored.high.trans hgrows, fun i hi => (hsame _).trans (hstored.bytes i hi)⟩
  · unfold layoutOf Layout.alloc
    rw [halign]

def Clear (strings : Strings) (off len : ℕ) : Prop :=
  ∀ text val, (text, val) ∈ strings → val + (text.bytes.length + 1) ≤ off ∨ off + len ≤ val

theorem evolves_store (ok : ParserOk p strings) {off : ℕ} {bytes : Bytes}
    (hrange : off + bytes.length ≤ p.progn.len) (hclear : Clear strings off bytes.length) :
    Evolves (Range off bytes.length) p strings { p with progn := p.progn.store off bytes }
      strings := by
  have hbyte := @Buf.byteAt_store p.progn off bytes hrange
  refine ⟨⟨ok.strtab, ok.low, ok.aligned, ?_, ?_, ok.count⟩, le_rfl, ?_, fun _ _ h => h, fun _ _ h => .inl h,
    rfl⟩
  · intro i hi
    have hi : p.progn.len ≤ i := hi
    rw [hbyte, if_neg (by omega)]
    exact ok.zeros i hi
  · intro text val hmem
    have hstored := ok.stored text val hmem
    refine ⟨hstored.low, hstored.high, ?_⟩
    intro i hi
    have hdisjoint := hclear text val hmem
    rw [hbyte, if_neg (by omega)]
    exact hstored.bytes i hi
  · intro i hi
    rw [hbyte]
    exact if_neg hi

theorem ParserOk.clear (ok : ParserOk p strings) (n : ℕ) : Clear strings p.progn.len n :=
  fun text val hmem => .inl (ok.stored text val hmem).high

theorem Clear.mono {region : ℕ → Prop} {p' : Parser} {strings' : Strings} {off n : ℕ}
    (hclear : Clear strings off n) (h : Evolves region p strings p' strings')
    (hroom : off + n ≤ p.progn.len) : Clear strings' off n := by
  intro text val hmem
  obtain hold | hnew := h.fresh text val hmem
  · exact hclear text val hold
  · exact .inr (hroom.trans hnew)

theorem Clear.sub {off n off' n' : ℕ} (hclear : Clear strings off n) (hlow : off ≤ off')
    (hhigh : off' + n' ≤ off + n) : Clear strings off' n' := by
  intro text val hmem
  have := hclear text val hmem
  omega

theorem runs_storeBytes (off : ℕ) (bytes : Bytes) :
    Runs (ParserM.storeBytes off bytes) p () { p with progn := p.progn.store off bytes } := rfl

theorem runs_storeWords (off : ℕ) (words : List ℕ) :
    Runs (ParserM.storeWords off words) p ()
      { p with progn := p.progn.store off (words.flatMap (littleEndian 4)) } := rfl

@[simp] theorem length_words (words : List ℕ) :
    (words.flatMap (littleEndian 4)).length = 4 * words.length := by
  induction words with
  | nil => rfl
  | cons word words ih =>
    rw [List.flatMap_cons, List.length_append, ih, length_littleEndian, List.length_cons]
    omega

theorem length_vagueverWords (v : Vaguever.VagueverVersion) : (ParserM.vagueverWords v).length = 5 := by
  simp [ParserM.vagueverWords]

theorem read32_storeWords {off : ℕ} {words : List ℕ} (hrange : off + 4 * words.length ≤ p.progn.len)
    (hwords : ∀ n ∈ words, n < 2 ^ 32) (k : ℕ) {n : ℕ} (hk : words[k]? = some n) :
    read32 (p.progn.store off (words.flatMap (littleEndian 4))).data (off + 4 * k) = n := by
  refine (readWord_congr ?_).trans (readWord_flatMap (by simpa using hwords) k hk)
  intro i hi
  have hlt : k < words.length := (List.getElem?_eq_some_iff.mp hk).1
  rw [Buf.byteAt_store (by rw [length_words]; exact hrange), length_words, if_pos (by omega)]
  congr 1
  omega

theorem read32_eq_zero {data : Bytes} {off : ℕ} (h : ∀ i < 4, byteAt data (off + i) = 0) :
    read32 data off = 0 :=
  @readWord_congr 4 data [] off 0 fun i hi => h i hi

end Memory

/-- The parser reaches a state with these lexemes left and this much room
taken. -/
structure Reaches (region : ℕ → Prop) (lexemes : List Lexeme) (layout : Layout) (p : Parser)
    (strings : Strings) (p' : Parser) (strings' : Strings) : Prop
    extends Evolves region p strings p' strings' where
  spells : Spells lexemes p'.r.input
  layout_eq : layoutOf p' strings' = layout

theorem Reaches.len_eq {region : ℕ → Prop} {lexemes : List Lexeme} {layout : Layout}
    {p p' : Parser} {strings strings' : Strings}
    (h : Reaches region lexemes layout p strings p' strings') : p'.progn.len = layout.len :=
  congrArg Layout.len h.layout_eq

theorem readerString_load (r : Reader) (rest : Bytes) (text : CString) :
    vulnspecReaderString (Lexeme.load r rest (.string text)) = text.bytes := by
  exact List.dropLast_concat

theorem strtabNew_entryOf (text : CString) (val : ℕ) :
    strtabNew (text.bytes ++ [0]) (text.bytes.length + 1) val = entryOf text val := by
  unfold strtabNew entryOf
  congr 2
  rw [List.takeWhile_append_of_pos (by simpa using text.no_zero)]
  simp

theorem cvalueOf_entryOf {text : CString} (h : text.bytes.length + 1 < 2 ^ 32) (val : ℕ) :
    ParserM.cvalueOf (entryOf text val) = ⟨text.bytes.length + 1, val⟩ := by
  unfold ParserM.cvalueOf entryOf
  rw [Nat.mod_eq_of_lt h]

section Strings

variable {p : Parser} {strings : Strings} {text : CString}

theorem runs_addString (ok : ParserOk p strings) (habsent : text ∉ strings.map Prod.fst)
    (hsize : ((layoutOf p strings).alloc (text.bytes.length + 1)).len < 2 ^ 32) :
    ∃ progn strtab, Runs (ParserM.prognAlloc (text.bytes.length + 1)) p p.progn.len
        { p with progn := progn } ∧
      objtblInsert p.strtab (some (entryOf text p.progn.len)) = some (.ok, strtab) ∧
      Evolves (Beyond p) p strings
        { p with progn := progn.store p.progn.len (text.bytes ++ [0]), strtab := strtab }
        ((text, p.progn.len) :: strings) ∧
      progn.len = ((layoutOf p strings).alloc (text.bytes.length + 1)).len := by
  have hgrows := (layoutOf p strings).len_le_alloc (text.bytes.length + 1)
  have hlen : (layoutOf p strings).len = p.progn.len := rfl
  obtain ⟨progn, halloc, hevolves, hlayout⟩ :=
    runs_prognAlloc ok (Nat.succ_ne_zero text.bytes.length) (by omega)
  have hprogn : progn.len = ((layoutOf p strings).alloc (text.bytes.length + 1)).len :=
    congrArg Layout.len hlayout
  have hcount := ok.count
  have hroom : strings.length < Util.TableSize.maxKeys := by
    unfold Util.TableSize.maxKeys
    omega
  obtain ⟨strtab, hinsert, hholds⟩ := ok.strtab.insert_spec habsent hroom p.progn.len
  have hfirst := hevolves (Beyond p)
  have hrange : p.progn.len + (text.bytes ++ [0]).length ≤ progn.len := by
    rw [List.length_append, List.length_singleton]
    omega
  have hclear : Clear strings p.progn.len (text.bytes ++ [0]).length := ok.clear _
  have hstore := @evolves_store { p with progn := progn } strings hfirst.ok _ _ hrange hclear
  have hbyte := @Buf.byteAt_store progn p.progn.len (text.bytes ++ [0]) hrange
  refine ⟨progn, strtab, halloc, hinsert, ?_, hprogn⟩
  refine ⟨⟨hholds, hstore.ok.low, hstore.ok.aligned, hstore.ok.zeros, ?_, ?_⟩, hfirst.len_le, ?_,
    fun _ _ h => List.mem_cons_of_mem _ h, ?_, rfl⟩
  · intro other val hmem
    obtain heq | hmem := List.mem_cons.mp hmem
    · cases heq
      refine ⟨ok.low, ?_, ?_⟩
      · rwa [List.length_append, List.length_singleton] at hrange
      · intro i hi
        rw [hbyte, if_pos (by rw [List.length_append, List.length_singleton]; omega)]
        congr 1
        omega
    · exact hstore.ok.stored other val hmem
  · -- a string takes at least eight bytes
    have haligned := ok.aligned
    have hmod := hstore.ok.aligned
    have hlength : (progn.store p.progn.len (text.bytes ++ [0])).len = progn.len := rfl
    change 8 * (strings.length + 1) ≤ progn.len
    rw [hlength] at hmod
    omega
  · intro i hi
    have hi : ¬ p.progn.len ≤ i := hi
    rw [hstore.frame i fun hr => hi hr.1]
    exact hfirst.frame i hi
  · intro other val hmem
    obtain heq | hmem := List.mem_cons.mp hmem
    · cases heq
      exact .inr le_rfl
    · exact .inl hmem

theorem runs_strtabGet {key : StrtabEntry} {reply : ObjtblCode × Option StrtabEntry}
    (h : objtblGet p.strtab (some key) = some reply) : Runs (ParserM.strtabGet key) p reply p := by
  unfold Runs ParserM.strtabGet
  rw [h]
  rfl

theorem runs_strtabInsert {ent : StrtabEntry} {ret : ObjtblCode} {strtab : ObjtblCtx StrtabEntry}
    (h : objtblInsert p.strtab (some ent) = some (ret, strtab)) :
    Runs (ParserM.strtabInsert ent) p ret { p with strtab := strtab } := by
  unfold Runs ParserM.strtabInsert
  rw [h]
  rfl

theorem runs_loads {lexemes : List Lexeme}
    (ok : ParserOk p strings) (hspells : Spells (.string text :: lexemes) p.r.input)
    (hsize : ((layoutOf p strings).intern text).len < 2 ^ 32) :
    ∃ val p' strings', Runs ParserM.loads p ⟨text.bytes.length + 1, val⟩ p' ∧
      (text, val) ∈ strings' ∧
      Reaches (Beyond p) lexemes ((layoutOf p strings).intern text) p strings p' strings' := by
  obtain ⟨rest, hrest, hexpect⟩ := @runs_expect p (.string text) lexemes trivial hspells
  generalize hread : ({ p with r := Lexeme.load p.r rest (.string text) } : Parser) = read at hexpect
  have hreader : Evolves (Beyond p) p strings read strings := hread ▸ Evolves.reader ok _
  have hprogn : read.progn = p.progn := by rw [← hread]
  have hrest' : Spells lexemes read.r.input := by
    rw [← hread]
    simpa using hrest
  have hlayoutOf : layoutOf read strings = layoutOf p strings := by rw [← hread]; rfl
  have hstring : vulnspecReaderString read.r = text.bytes := by rw [← hread, readerString_load]
  have hlength : (text.bytes ++ [0]).length = text.bytes.length + 1 := by simp
  obtain ⟨habsent, hget⟩ | ⟨val, hmem, hget⟩ := hreader.ok.strtab.get_spec text
  · have hlayout : (layoutOf p strings).intern text =
        ⟨text :: strings.map Prod.fst, ((layoutOf p strings).alloc (text.bytes.length + 1)).len⟩ :=
      if_neg habsent
    rw [hlayout] at hsize ⊢
    have hgrows := (layoutOf p strings).len_le_alloc (text.bytes.length + 1)
    obtain ⟨progn, strtab, halloc, hinsert, hevolves, hlen⟩ :=
      runs_addString hreader.ok habsent (by rw [hlayoutOf]; exact hsize)
    refine ⟨read.progn.len, _, _, ?_, List.mem_cons_self,
      hreader.trans (hevolves.beyond hreader.len_le), hrest', ?_⟩
    · refine hexpect.bind ((runs_get _).bind ?_)
      dsimp only
      rw [hstring, hlength]
      refine (runs_strtabGet hget).bind ?_
      refine halloc.bind ((runs_storeBytes _ _).bind ?_)
      rw [strtabNew_entryOf, cvalueOf_entryOf (by dsimp only at hsize; omega)]
      have hinserted := @runs_strtabInsert
        { read with progn := progn.store read.progn.len (text.bytes ++ [0]) } _ _ _ hinsert
      exact hinserted.bind ((runs_failIf (not_not.mpr rfl) _ _).bind (runs_pure _ _))
    · rw [hlayoutOf] at hlen
      rw [← hlen]
      rfl
  · have hstored := (hreader.ok.stored text val hmem).high
    have hlayout : (layoutOf p strings).intern text = layoutOf p strings :=
      if_pos (List.mem_map_of_mem hmem)
    have hlen : read.progn.len < 2 ^ 32 := by
      rw [hlayout] at hsize
      rw [hprogn]
      exact hsize
    refine ⟨val, read, strings, ?_, hmem, hreader, hrest', hlayoutOf.trans hlayout.symm⟩
    refine hexpect.bind ((runs_get _).bind ?_)
    dsimp only
    rw [hstring, hlength]
    refine (runs_strtabGet hget).bind ?_
    dsimp only
    rw [@cvalueOf_entryOf text (by omega)]
    exact runs_pure _ _

end Strings

end Yans.Vulnspec
