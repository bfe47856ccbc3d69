import Yans.Vulnspec.Grammar

/-! Calls one after the other on the same parser. The string table, the version
type of a call that bailed out and the bytes of the buffer are still there when
the next call starts. -/
namespace Yans.Vulnspec

open Library.Memory Library.Computations Library.Computations.Computation Util Util.Objtbl
  Util.TableSize

inductive History (fixedPoint : Num → UInt32) : Parser → List Bytes → Parser → Prop where
  | nil (p : Parser) : History fixedPoint p [] p
  | cons {p p' p'' : Parser} {input : Bytes} {inputs : List Bytes} {fuel : ℕ}
      {result : Except Code Unit}
      (call : vulnspecParse fixedPoint p input fuel = some (result, p'))
      (rest : History fixedPoint p' inputs p'') : History fixedPoint p (input :: inputs) p''

section KeepsTable

variable {behind : Bytes → Bytes} {α β : Type}

variable (behind) in
def HasTable (p : Parser) : Prop := ∃ live, Represents (copyHashing behind) p.strtab live

variable (behind) in
abbrev KeepsTable (m : ParserM α) : Prop := Preserves (HasTable behind) m

theorem KeepsTable.bind {m : ParserM α} {f : α → ParserM β} (h : KeepsTable behind m)
    (h' : ∀ a, KeepsTable behind (f a)) : KeepsTable behind (m >>= f) := by
  rw [parserM_bind]
  exact Preserves.bind h h'

theorem KeepsTable.of_same {m : ParserM α}
    (h : ∀ p result p', m p = some (result, p') → p'.strtab = p.strtab) : KeepsTable behind m := by
  intro p result p' hp hrun
  unfold HasTable
  rw [h p result p' hrun]
  exact hp

theorem keeps_pure (a : α) : KeepsTable behind (Pure.pure a) := Preserves.pure a

theorem keeps_bail (err : Code) : KeepsTable behind (@ParserM.bail α err) := Preserves.bail err

theorem keeps_unfinished : KeepsTable behind (@ParserM.unfinished α) := by
  intro p result p' _ h
  contradiction

theorem keeps_failIf {condition : Prop} [Decidable condition] (err : Code) :
    KeepsTable behind (ParserM.failIf condition err) := by
  unfold ParserM.failIf
  split
  · exact keeps_bail err
  · exact keeps_pure ()

theorem keeps_get : KeepsTable behind ParserM.get := by
  apply KeepsTable.of_same
  intro p result p' h
  cases h
  rfl

theorem keeps_setVtype (vtype : VersionType) : KeepsTable behind (ParserM.setVtype vtype) := by
  apply KeepsTable.of_same
  intro p result p' h
  cases h
  rfl

theorem keeps_readToken : KeepsTable behind ParserM.readToken := by
  apply KeepsTable.of_same
  intro p result p' h
  cases h
  rfl

theorem keeps_storeBytes (off : ℕ) (bytes : Bytes) :
    KeepsTable behind (ParserM.storeBytes off bytes) := by
  apply KeepsTable.of_same
  intro p result p' h
  cases h
  rfl

theorem keeps_storeWords (off : ℕ) (words : List ℕ) :
    KeepsTable behind (ParserM.storeWords off words) := keeps_storeBytes off _

theorem keeps_prognAlloc (len : ℕ) : KeepsTable behind (ParserM.prognAlloc len) := by
  apply KeepsTable.of_same
  intro p result p' h
  unfold ParserM.prognAlloc at h
  split at h <;> (obtain ⟨-, rfl⟩ := Prod.mk.inj (Option.some.inj h); rfl)

theorem keeps_strtabGet (key : StrtabEntry) : KeepsTable behind (ParserM.strtabGet key) := by
  apply KeepsTable.of_same
  intro p result p' h
  obtain ⟨reply, -, heq⟩ := Option.map_eq_some_iff.mp h
  cases heq
  rfl

theorem keeps_strtabInsert {ent : StrtabEntry} (hent : IsCopy ent) :
    KeepsTable behind (ParserM.strtabInsert ent) := by
  rintro p result p' ⟨live, hrep⟩ h
  obtain ⟨⟨ret, strtab⟩, hinsert, heq⟩ := Option.map_eq_some_iff.mp h
  cases heq
  obtain ⟨-, hfull⟩ | ⟨-, after, hdone, hafter⟩ := hrep.objtblInsert_spec hent
  · rw [hfull] at hinsert
    cases hinsert
    exact ⟨live, hrep⟩
  · rw [hdone] at hinsert
    cases hinsert
    exact ⟨_, hafter⟩

theorem keeps_expect (t : Token) : KeepsTable behind (ParserM.expect t) :=
  keeps_readToken.bind fun _ => keeps_failIf _

theorem keeps_expectView (t : Token) (view : Reader → α) : KeepsTable behind (expectView t view) := by
  have hview : expectView t view =
      (ParserM.expect t >>= fun _ => ParserM.get >>= fun p => Pure.pure (view p.r)) := by
    rw [expectView_bind t view Pure.pure, parserM_bind]
    exact (bind_pure _).symm
  rw [hview]
  exact (keeps_expect t).bind fun _ => keeps_get.bind fun _ => keeps_pure _

theorem keeps_readSymbol : KeepsTable behind ParserM.readSymbol := by
  rw [readSymbol_eq]
  exact keeps_expectView _ _

theorem keeps_loads : KeepsTable behind ParserM.loads := by
  rw [loads_eq]
  refine (keeps_expectView _ _).bind fun text => (keeps_strtabGet _).bind fun reply => ?_
  split
  · exact keeps_pure _
  · refine (keeps_prognAlloc _).bind fun val => (keeps_storeBytes _ _).bind fun _ => ?_
    refine (keeps_strtabInsert (isCopy_strtabNew text val)).bind fun _ => ?_
    exact (keeps_failIf _).bind fun _ => keeps_pure _
  · exact keeps_bail _

theorem keeps_comparFields (t : NodeType) (compar : ℕ) (cvendprod : Cvalue) :
    KeepsTable behind (ParserM.comparFields t compar cvendprod) := by
  rw [comparFields_eq]
  refine keeps_get.bind fun p => ?_
  dsimp only
  split
  · exact (keeps_expectView _ _).bind fun _ => keeps_storeWords _ _
  · exact keeps_loads.bind fun _ => keeps_storeWords _ _

theorem keeps_compar (t : NodeType) : KeepsTable behind (ParserM.compar t) := by
  refine (keeps_prognAlloc _).bind fun compar => keeps_loads.bind fun cvendprod => ?_
  refine (keeps_comparFields t compar cvendprod).bind fun _ => ?_
  exact (keeps_expect _).bind fun _ => keeps_pure _

theorem keeps_linkNext (prev curr : ℕ) : KeepsTable behind (ParserM.linkNext prev curr) := by
  unfold ParserM.linkNext
  split
  · exact keeps_storeWords _ _
  · exact keeps_pure ()

theorem keeps_vulnexpr_boolean (fuel : ℕ) : KeepsTable behind (ParserM.vulnexpr fuel) ∧
    ∀ nodet bnode prev, KeepsTable behind (ParserM.boolean nodet fuel bnode prev) := by
  induction fuel with
  | zero =>
    rw [ParserM.vulnexpr]
    refine ⟨keeps_unfinished, fun nodet bnode prev => ?_⟩
    rw [ParserM.boolean]
    exact keeps_unfinished
  | succ fuel ih =>
    obtain ⟨ihvulnexpr, ihboolean⟩ := ih
    constructor
    · rw [ParserM.vulnexpr]
      refine keeps_readSymbol.bind fun nodet => ?_
      split
      · exact keeps_compar nodet
      · split
        · exact ihboolean nodet 0 0
        · split
          · refine keeps_get.bind fun p => (keeps_setVtype _).bind fun _ => ?_
            refine (keeps_expect _).bind fun _ => ihvulnexpr.bind fun val => ?_
            exact (keeps_expect _).bind fun _ => (keeps_setVtype _).bind fun _ => keeps_pure _
          · exact keeps_bail _
    · intro nodet bnode prev
      rw [ParserM.boolean]
      refine keeps_readToken.bind fun tok => ?_
      split
      · refine (keeps_prognAlloc _).bind fun curr => ihvulnexpr.bind fun val => ?_
        refine (keeps_storeWords _ _).bind fun _ => (keeps_storeWords _ _).bind fun _ => ?_
        exact (keeps_linkNext prev curr).bind fun _ => ihboolean _ _ _
      · split
        · exact keeps_bail _
        · split
          · exact keeps_bail _
          · exact keeps_pure _

theorem keeps_cve (fixedPoint : Num → UInt32) (fuel : ℕ) :
    KeepsTable behind (ParserM.cve fixedPoint fuel) := by
  rw [cve_eq]
  refine (keeps_prognAlloc _).bind fun cve => keeps_loads.bind fun id => ?_
  refine (keeps_storeWords _ _).bind fun _ => (keeps_expectView _ _).bind fun cvss2 => ?_
  refine (keeps_storeWords _ _).bind fun _ => (keeps_expectView _ _).bind fun cvss3 => ?_
  refine (keeps_storeWords _ _).bind fun _ => (keeps_storeWords _ _).bind fun _ => ?_
  refine keeps_loads.bind fun description => (keeps_storeWords _ _).bind fun _ => ?_
  refine (keeps_expect _).bind fun _ => (keeps_vulnexpr_boolean fuel).1.bind fun vexpr => ?_
  exact (keeps_storeWords _ _).bind fun _ => keeps_pure _

theorem keeps_parseLoop (fixedPoint : Num → UInt32) (fuel : ℕ) : ∀ prev,
    KeepsTable behind (ParserM.parseLoop fixedPoint fuel prev) := by
  induction fuel with
  | zero => exact fun _ => keeps_unfinished
  | succ fuel ih =>
    intro prev
    rw [ParserM.parseLoop]
    refine keeps_readToken.bind fun tok => ?_
    split
    · exact keeps_pure ()
    · refine (keeps_failIf _).bind fun _ => keeps_readSymbol.bind fun nodet => ?_
      refine (keeps_failIf _).bind fun _ => (keeps_cve fixedPoint fuel).bind fun curr => ?_
      exact (keeps_expect _).bind fun _ => (keeps_linkNext prev curr).bind fun _ => ih curr

end KeepsTable

theorem History.hasTable {fixedPoint : Num → UInt32} {p p' : Parser} {inputs : List Bytes}
    (h : History fixedPoint p inputs p') {behind : Bytes → Bytes} (hp : HasTable behind p) :
    HasTable behind p' := by
  induction h with
  | nil => exact hp
  | cons call _ ih =>
    apply ih
    refine keeps_parseLoop fixedPoint _ 0 _ _ _ ?_ call
    exact hp

/-! When a call is like a first one -/

def sketchOf (fixedPoint : Num → UInt32) (words : List Word) : Sketch :=
  match sketchParse fixedPoint words (words.length + 1) with
  | some (_, s) => s
  | none => emptySketch words

theorem sketchOf_spec (fixedPoint : Num → UInt32) (words : List Word) : ∃ result,
    sketchParse fixedPoint words (words.length + 1) = some (result, sketchOf fixedPoint words) := by
  obtain ⟨result, s, hsketch, -⟩ := sketchParse_spec fixedPoint words (Nat.lt_succ_self _)
  refine ⟨result, ?_⟩
  unfold sketchOf
  rw [hsketch]

theorem sketchOf_ok {fixedPoint : Num → UInt32} {words : List Word}
    (h : ((sketchParse fixedPoint words (words.length + 1)).map fun reply => reply.1.toBool) =
      some true) :
    sketchParse fixedPoint words (words.length + 1) = some (.ok (), sketchOf fixedPoint words) := by
  obtain ⟨result, hsketch⟩ := sketchOf_spec fixedPoint words
  rw [hsketch, Option.map_some] at h
  cases result with
  | error err => cases h
  | ok u => exact hsketch

/-- Nothing that earlier calls left reaches the program of these words: none of
the strings that are looked up is in the table, no comparison of two of them goes
on behind a copy, the table has room for the strings of a program if there are
any, no version is read outside of `nalpha` with another version type in force,
and what is allocated and never written is zero. -/
structure Undisturbed (fixedPoint : Num → UInt32) (p : Parser) (words : List Word) : Prop where
  strings : ∀ text ∈ (sketchOf fixedPoint words).looked,
    ∀ entry ∈ entryLayout.items p.strtab.entries, entry.str ≠ text.takeWhile (· ≠ 0) ++ [0]
  separate : (sketchOf fixedPoint words).looked.Pairwise Separate
  room : (sketchOf fixedPoint words).looked ≠ [] → p.strtab.header.size.toNat + 2 ^ 29 ≤ maxKeys
  vtype : (sketchOf fixedPoint words).vague = true → p.vtype = .vvague
  memory : ∀ i < (sketchOf fixedPoint words).len,
    (sketchOf fixedPoint words).written i = none → byteAt p.progn.data i = 0

def leftBy (behind : Bytes → Bytes) (p : Parser) (live : List StrtabEntry) : Leftover :=
  ⟨behind, live, p.vtype, p.progn.data⟩

theorem byteAt_contents_lt (buf : Buf) {i : ℕ} (hi : i < buf.len) :
    byteAt buf.contents i = byteAt buf.data i := by
  unfold Buf.contents
  rw [byteAt_take, if_pos hi]

theorem exists_first_call (fixedPoint : Num → UInt32) {behind : Bytes → Bytes} {input : Bytes}
    (hseparate : behind = bare ∨
      (sketchOf fixedPoint (textWords input)).looked.Pairwise Separate) :
    ∃ start p, vulnspecParserIn behind = some start ∧ History fixedPoint start [input] p ∧
      Conforms (nothingLeft behind) (sketchOf fixedPoint (textWords input)) p := by
  obtain ⟨start, hstart, -⟩ := vulnspecParserIn_fresh behind
  obtain ⟨result, hsketch⟩ := sketchOf_spec fixedPoint (textWords input)
  obtain ⟨p, hcall, hconforms⟩ :=
    vulnspecParseIn_fresh hstart (delivers_textWords input) hsketch hseparate
  exact ⟨start, p, hstart, .cons hcall (.nil p), hconforms⟩

theorem Conforms.represents {behind : Bytes → Bytes} {s : Sketch} {p : Parser}
    (h : Conforms (nothingLeft behind) s p) :
    Represents (copyHashing behind) p.strtab s.strings := by
  obtain ⟨kept, hkept, hrep⟩ := h.strtab
  obtain rfl := List.sublist_nil.mp hkept
  rwa [List.append_nil] at hrep

/-- After any history a call that meets nothing of it ends like the call of a
fresh parser, with the same program, whatever lies behind the strings of the
one and of the other. -/
theorem vulnspecParse_forgets_history {fixedPoint : Num → UInt32}
    {behind behind' : Bytes → Bytes} {start fresh p : Parser} {inputs : List Bytes}
    (hstart : vulnspecParserIn behind = some start) (hhistory : History fixedPoint start inputs p)
    (hfresh : vulnspecParserIn behind' = some fresh) {input : Bytes} {words : List Word}
    (hdelivers : Delivers (vulnspecReaderInit input) words)
    (hundisturbed : Undisturbed fixedPoint p words) :
    ∃ enough result used clean,
      (∀ fuel ≥ enough, vulnspecParse fixedPoint p input fuel = some (result, used) ∧
        vulnspecParse fixedPoint fresh input fuel = some (result, clean)) ∧
      vulnspecParserData used = vulnspecParserData clean := by
  obtain ⟨empty, hempty, -, hrep, -⟩ := vulnspecParserIn_fresh behind
  rw [hstart] at hempty
  cases hempty
  obtain ⟨live, hrep⟩ := hhistory.hasTable ⟨[], hrep⟩
  obtain ⟨result, hsketch⟩ := sketchOf_spec fixedPoint words
  have huntouched : Untouched (leftBy behind p live) (sketchOf fixedPoint words) := by
    refine ⟨fun text htext entry hentry => ?_, .inr hundisturbed.separate, fun hlooked => ?_,
      hundisturbed.vtype⟩
    · apply hundisturbed.strings text htext
      rw [hrep.items_eq]
      exact Multiset.mem_coe.mpr hentry
    · have hroom := hundisturbed.room hlooked
      rwa [hrep.size_toNat] at hroom
  obtain ⟨clean, hclean, hright⟩ :=
    vulnspecParseIn_fresh hfresh hdelivers hsketch (.inr hundisturbed.separate)
  obtain ⟨used, hused, hleft⟩ := vulnspecParse_follows hdelivers rfl hrep (List.Sublist.refl _)
    (fun _ => rfl) hsketch huntouched
  refine ⟨words.length + 1, result, used, clean, fun fuel hfuel =>
    ⟨vulnspecParse_mono hfuel hused, vulnspecParse_mono hfuel hclean⟩, ?_⟩
  unfold vulnspecParserData
  apply eq_of_byteAt
  · rw [Buf.length_contents, Buf.length_contents, hleft.len, hright.len]
  · intro i hi
    rw [Buf.length_contents, hright.len] at hi
    rw [byteAt_contents_lt _ (hleft.len ▸ hi), byteAt_contents_lt _ (hright.len ▸ hi),
      hleft.bytes, hright.bytes]
    cases hwritten : (sketchOf fixedPoint words).written i with
    | some byte => rfl
    | none => exact hundisturbed.memory i hi hwritten

/-- `(cve "a"` -/
def brokenForm : Bytes := [40, 99, 118, 101, 32, 34, 97, 34]

/-- The form `(cve "x"0.0 0.0"y"(= "z""d"))` for some strings of one byte. -/
def shortForm (x y z : UInt8) : Bytes :=
  [40, 99, 118, 101, 32, 34, x, 34, 48, 46, 48, 32, 48, 46, 48, 34, y, 34, 40, 61, 32, 34, z, 34,
    34, 100, 34, 41, 41]

/-- A form with a zero in a string after another form that was broken off, with
other memory behind the strings. -/
theorem vulnspecParse_forgets_brokenForm : ∃ start fresh p,
    vulnspecParserIn (fun _ => [7]) = some start ∧
    History (fun _ => 0) start [brokenForm] p ∧
    vulnspecParserIn (fun _ => [8]) = some fresh ∧ ∃ enough result used clean,
      (∀ fuel ≥ enough,
        vulnspecParse (fun _ => 0) p (shortForm 0 102 103) fuel = some (result, used) ∧
        vulnspecParse (fun _ => 0) fresh (shortForm 0 102 103) fuel = some (result, clean)) ∧
      vulnspecParserData used = vulnspecParserData clean := by
  obtain ⟨start, p, hstart, hhistory, hconforms⟩ :=
    @exists_first_call (fun _ => 0) (fun _ => [7]) brokenForm (.inr (by decide +kernel))
  obtain ⟨fresh, hfresh, -⟩ := vulnspecParserIn_fresh fun _ => [8]
  have hrep := hconforms.represents
  have hzeros : ∀ i < (sketchOf (fun _ => 0) (textWords (shortForm 0 102 103))).len,
      (sketchOf (fun _ => 0) (textWords (shortForm 0 102 103))).written i = none →
      ((sketchOf (fun _ => 0) (textWords brokenForm)).written i).getD 0 = 0 := by
    decide +kernel
  refine ⟨start, fresh, p, hstart, hhistory, hfresh, ?_⟩
  apply vulnspecParse_forgets_history hstart hhistory hfresh (delivers_textWords _)
  refine ⟨?_, ?_, ?_, ?_, ?_⟩
  · rw [hrep.items_eq]
    decide +kernel
  · decide +kernel
  · intro _
    rw [hrep.size_toNat]
    decide +kernel
  · intro _
    rw [hconforms.vtype]
    decide +kernel
  · intro i hi hwritten
    rw [hconforms.bytes]
    exact hzeros i hi hwritten

theorem exists_remembered {fixedPoint : Num → UInt32} {first last : Bytes} {i : ℕ} {byte : UInt8}
    (hroom : (sketchOf fixedPoint (textWords first)).strings.length + 2 ^ 29 ≤ maxKeys)
    (hvtype : (nothingLeft bare).vtypeOf (sketchOf fixedPoint (textWords first)).vtype = .vvague)
    (hstrings : ∀ text ∈ (sketchOf fixedPoint (textWords last)).looked,
      ∀ entry ∈ (sketchOf fixedPoint (textWords first)).strings,
        entry.str ≠ text.takeWhile (· ≠ 0) ++ [0])
    (hok : ((sketchParse fixedPoint (textWords last) ((textWords last).length + 1)).map
      fun reply => reply.1.toBool) = some true)
    (hi : i < (sketchOf fixedPoint (textWords last)).len)
    (hunwritten : (sketchOf fixedPoint (textWords last)).written i = none)
    (hwritten : (sketchOf fixedPoint (textWords first)).written i = some byte) (hbyte : byte ≠ 0) :
    ∃ fresh p fuel used clean, vulnspecParserInit = some fresh ∧
      History fixedPoint fresh [first] p ∧
      vulnspecParse fixedPoint p last fuel = some (.ok (), used) ∧
      vulnspecParse fixedPoint fresh last fuel = some (.ok (), clean) ∧
      vulnspecParserData used ≠ vulnspecParserData clean := by
  obtain ⟨fresh, p, hstart, hhistory, hconforms⟩ :=
    @exists_first_call fixedPoint bare first (.inl rfl)
  have hinit : vulnspecParserInit = some fresh := vulnspecParserIn_bare ▸ hstart
  have huntouched : Untouched (leftBy bare p _) (sketchOf fixedPoint (textWords last)) :=
    ⟨hstrings, .inl rfl, fun _ => hroom, fun _ => hconforms.vtype.trans hvtype⟩
  have hsketch := sketchOf_ok hok
  obtain ⟨clean, hclean, hfresh⟩ := vulnspecParse_fresh hinit (delivers_textWords last) hsketch
  obtain ⟨used, hused, hleft⟩ := vulnspecParse_follows (delivers_textWords last) rfl
    hconforms.represents (List.Sublist.refl _) (fun _ => rfl) hsketch huntouched
  refine ⟨fresh, p, _, used, clean, hinit, hhistory, hused, hclean, fun heq => hbyte ?_⟩
  have hsame := congrArg (fun bytes => byteAt bytes i) heq
  unfold vulnspecParserData at hsame
  rw [byteAt_contents_lt _ (hleft.len ▸ hi), byteAt_contents_lt _ (hfresh.len ▸ hi), hleft.bytes,
    hfresh.bytes, hunwritten] at hsame
  change byteAt p.progn.data i = 0 at hsame
  rw [hconforms.bytes, hwritten] at hsame
  exact hsame

/-- After a program of two forms the only form of the next program still has the
link to the second one. -/
theorem vulnspecParse_keeps_link : ∃ fresh p fuel used clean, vulnspecParserInit = some fresh ∧
    History (fun _ => 0) fresh [shortForm 97 98 99 ++ shortForm 97 98 99] p ∧
    vulnspecParse (fun _ => 0) p (shortForm 101 102 103) fuel = some (.ok (), used) ∧
    vulnspecParse (fun _ => 0) fresh (shortForm 101 102 103) fuel = some (.ok (), clean) ∧
    vulnspecParserData used ≠ vulnspecParserData clean :=
  @exists_remembered (fun _ => 0) (shortForm 97 98 99 ++ shortForm 97 98 99)
    (shortForm 101 102 103) 12 112 (by decide +kernel) (by decide +kernel) (by decide +kernel)
    (by decide +kernel) (by decide +kernel) (by decide +kernel) (by decide +kernel) (by decide)

end Yans.Vulnspec
