import Yans.Vulnspec.Compiler

/-! Cve forms: the parser allocates a node, fills in its fields one after the
other while it reads the form, and links it to the form before. -/
namespace Yans.Vulnspec

open Library.Memory Util Util.Objtbl

/-- A node at the end of the program as it was, with the fields that have their
value so far. -/
structure Filling (p₀ : Parser) (strings₀ : Strings) (size : ℕ) (fields : List (ℕ × ℕ))
    (p : Parser) (strings : Strings) : Prop extends Evolves (Beyond p₀) p₀ strings₀ p strings where
  room : p₀.progn.len + size ≤ p.progn.len
  clear : Clear strings p₀.progn.len size
  inside : ∀ field ∈ fields, field.1 + 4 ≤ size
  fields_eq : ∀ field ∈ fields, read32 p.progn.data (p₀.progn.len + field.1) = field.2

namespace Filling

variable {p₀ p p' : Parser} {strings₀ strings strings' : Strings} {size : ℕ}
  {fields : List (ℕ × ℕ)}

section

variable (h : Filling p₀ strings₀ size fields p strings)

include h

theorem later {region : ℕ → Prop}
    (hevolves : Evolves region p strings p' strings')
    (hregion : ∀ i, region i → p₀.progn.len + size ≤ i) :
    Filling p₀ strings₀ size fields p' strings' := by
  refine ⟨h.toEvolves.trans (hevolves.mono fun i hi => ?_), h.room.trans hevolves.len_le,
    h.clear.mono hevolves h.room, h.inside, ?_⟩
  · exact (Nat.le_add_right _ _).trans (hregion i hi)
  · intro field hfield
    have hinside := h.inside field hfield
    rw [← h.fields_eq field hfield]
    refine readWord_congr fun i hi => hevolves.frame _ fun hr => ?_
    have := hregion _ hr
    omega

theorem reader (r : Reader) :
    Filling p₀ strings₀ size fields { p with r := r } strings :=
  h.later (@Evolves.reader (fun _ => False) p strings h.ok r) fun _ => False.elim

theorem store {k : ℕ} {words : List ℕ}
    (hinside : k + 4 * words.length ≤ size) (hwords : ∀ n ∈ words, n < 2 ^ 32)
    (hother : ∀ field ∈ fields, field.1 + 4 ≤ k ∨ k + 4 * words.length ≤ field.1) :
    ∃ progn, Runs (ParserM.storeWords (p₀.progn.len + k) words) p () { p with progn := progn } ∧
      progn.len = p.progn.len ∧
      Evolves (Range (p₀.progn.len + k) (4 * words.length)) p strings { p with progn := progn }
        strings ∧
      Filling p₀ strings₀ size ((words.mapIdx fun j n => (k + 4 * j, n)) ++ fields)
        { p with progn := progn } strings := by
  have hroom := h.room
  obtain ⟨hstore, hevolves, hwordsAt⟩ := @evolves_storeWords p strings h.ok (p₀.progn.len + k) words
    (by omega) (h.clear.sub (Nat.le_add_right _ _) (by omega)) hwords
  refine ⟨_, hstore, rfl, hevolves, ⟨h.toEvolves.trans (hevolves.mono fun i hi => ?_), hroom, h.clear, ?_, ?_⟩⟩
  · exact (Nat.le_add_right _ _).trans hi.1
  · intro field hfield
    obtain hnew | hold := List.mem_append.mp hfield
    · obtain ⟨j, hj, rfl⟩ := List.mem_mapIdx.mp hnew
      omega
    · exact h.inside field hold
  · intro field hfield
    obtain hnew | hold := List.mem_append.mp hfield
    · obtain ⟨j, hj, rfl⟩ := List.mem_mapIdx.mp hnew
      rw [← Nat.add_assoc]
      exact hwordsAt j _ (List.getElem?_eq_getElem hj)
    · have hapart := hother field hold
      rw [← h.fields_eq field hold]
      refine readWord_congr fun i hi => hevolves.frame _ fun hr => ?_
      have hlow := hr.1
      have hhigh := hr.2
      omega

end

end Filling

theorem runs_allocNode {p : Parser} {strings : Strings} (ok : ParserOk p strings) {size k : ℕ}
    (hsize : size ≠ 0) (hk : k + 4 ≤ size) (hlen : p.progn.len < 2 ^ 32) :
    ∃ progn, Runs (ParserM.prognAlloc size) p p.progn.len { p with progn := progn } ∧
      Filling p strings size [(k, 0)] { p with progn := progn } strings ∧
      layoutOf { p with progn := progn } strings = (layoutOf p strings).alloc size := by
  obtain ⟨progn, halloc, hevolves, hlayout⟩ := runs_prognAlloc ok hsize hlen
  have hprogn : progn.len = ((layoutOf p strings).alloc size).len := congrArg Layout.len hlayout
  have hgrows : p.progn.len + size ≤ _ := (layoutOf p strings).len_le_alloc size
  refine ⟨progn, halloc, ⟨hevolves _, by dsimp only; omega, ok.clear size, by simpa using hk, ?_⟩,
    hlayout⟩
  intro field hfield
  obtain rfl := List.mem_singleton.mp hfield
  refine read32_eq_zero fun i hi => ?_
  rw [(hevolves fun _ => False).frame _ not_false]
  exact ok.zeros _ (by omega)

section Fields

variable {p₀ p : Parser} {strings₀ strings : Strings} {size k : ℕ} {fields : List (ℕ × ℕ)}
  {lexemes : List Lexeme}

theorem Filling.loadString {text : CString} (h : Filling p₀ strings₀ size fields p strings)
    (hspells : Spells (.string text :: lexemes) p.r.input)
    (hsize : ((layoutOf p strings).intern text).len < 2 ^ 32) (hk : k + 8 ≤ size)
    (hother : ∀ field ∈ fields, field.1 + 4 ≤ k ∨ k + 8 ≤ field.1) :
    ∃ val p' strings',
      (∀ {β : Type} {f : Unit → ParserM β} {b : β} {p'' : Parser}, Runs (f ()) p' b p'' →
        Runs (do
          let cval ← ParserM.loads
          let u ← ParserM.storeWords (p₀.progn.len + k) [cval.length, cval.offset]
          f u) p b p'') ∧
      Filling p₀ strings₀ size ((k, text.bytes.length + 1) :: (k + 4, val) :: fields) p' strings' ∧
      (text, val) ∈ strings' ∧ (∀ text val, (text, val) ∈ strings → (text, val) ∈ strings') ∧
      Spells lexemes p'.r.input ∧ layoutOf p' strings' = (layoutOf p strings).intern text := by
  obtain ⟨val, p₁, strings₁, hloads, hmem, hreaches⟩ := runs_loads h.ok hspells hsize
  have hlater := h.later hreaches.toEvolves fun i hi => h.room.trans hi
  have hlen : p₁.progn.len < 2 ^ 32 := hreaches.len_eq ▸ hsize
  have hbounds := PointsTo.bounds hreaches.ok hmem hlen
  obtain ⟨progn, hstore, hprogn, -, hfilled⟩ := @Filling.store _ _ _ _ _ _ hlater k
    [text.bytes.length + 1, val] hk (by simpa using hbounds) hother
  refine ⟨val, _, strings₁, fun hf => hloads.bind (hstore.bind hf), hfilled, hmem,
    hreaches.keeps, hreaches.spells, ?_⟩
  refine Eq.trans ?_ hreaches.layout_eq
  unfold layoutOf
  rw [hprogn]

theorem Filling.loadScore {fixedPoint : Num → UInt32} {score : Score}
    (h : Filling p₀ strings₀ size fields p strings)
    (hspells : Spells (.score score :: lexemes) p.r.input) (hk : k + 4 ≤ size)
    (hother : ∀ field ∈ fields, field.1 + 4 ≤ k ∨ k + 4 ≤ field.1) :
    ∃ p',
      (∀ {β : Type} {f : Unit → ParserM β} {b : β} {p'' : Parser}, Runs (f ()) p' b p'' →
        Runs (do
          ParserM.expect .tdouble
          let p ← ParserM.get
          let u ← ParserM.storeWords (p₀.progn.len + k) [(fixedPoint p.r.num).toNat]
          f u) p b p'') ∧
      Filling p₀ strings₀ size ((k, (fixedPoint score.num).toNat) :: fields) p' strings ∧
      Spells lexemes p'.r.input ∧ layoutOf p' strings = layoutOf p strings := by
  obtain ⟨rest, hrest, hexpect⟩ := @runs_expect p (.score score) lexemes trivial hspells
  obtain ⟨progn, hstore, hprogn, -, hfilled⟩ := @Filling.store _ _ _ _ _ _
    (h.reader (Lexeme.load p.r rest (.score score))) k [(fixedPoint score.num).toNat] hk
    (by simpa using (fixedPoint score.num).toNat_lt) hother
  refine ⟨_, fun hf => hexpect.bind ((runs_get _).bind (hstore.bind hf)), hfilled, by simpa using hrest,
    ?_⟩
  unfold layoutOf
  rw [hprogn]

end Fields

def CveForm.layout (form : CveForm) (layout : Layout) : Layout :=
  form.expr.layout false (((layout.alloc cveSize).intern form.id).intern form.description)

/-- The node at an offset stands for a form; its `next` is left open. -/
structure CveFor (fixedPoint : Num → UInt32) (data : Bytes) (strings : Strings) (hi : ℕ)
    (form : CveForm) (off : ℕ) : Prop where
  room : off + cveSize ≤ hi
  type_eq : read32 data off = NodeType.cve.toCode
  cvss2_eq : read32 data (off + 8) = (fixedPoint form.cvss2.num).toNat
  cvss3_eq : read32 data (off + 12) = (fixedPoint form.cvss3.num).toNat
  id_eq : PointsTo strings ⟨read32 data (off + 16), read32 data (off + 20)⟩ form.id
  description_eq : PointsTo strings ⟨read32 data (off + 24), read32 data (off + 28)⟩
    form.description
  expr : form.expr.CompiledAt data strings (off + cveSize) hi false (read32 data (off + 32))

variable {fixedPoint : Num → UInt32} {form : CveForm}

theorem CveFor.frame {data data' : Bytes} {strings strings' : Strings}
    {hi hi' off : ℕ} (h : CveFor fixedPoint data strings hi form off)
    (hbytes : ∀ i, off ≤ i → i < hi → ¬ Range (off + 4) 4 i → byteAt data' i = byteAt data i)
    (hkeeps : ∀ text val, (text, val) ∈ strings → (text, val) ∈ strings') (hhi : hi ≤ hi') :
    CveFor fixedPoint data' strings' hi' form off := by
  have hroom := h.room
  have hsize : cveSize = 36 := rfl
  have hword : ∀ k, k + 4 ≤ 36 → k = 0 ∨ 8 ≤ k → read32 data' (off + k) = read32 data (off + k) := by
    intro k hk hnot
    refine readWord_congr fun i hi => hbytes _ (by omega) (by omega) fun hr => ?_
    have hlow := hr.1
    have hhigh := hr.2
    omega
  have hcval : ∀ {text : CString} k, k + 8 ≤ 36 → 8 ≤ k →
      PointsTo strings ⟨read32 data (off + k), read32 data (off + (k + 4))⟩ text →
      PointsTo strings' ⟨read32 data' (off + k), read32 data' (off + (k + 4))⟩ text := by
    intro text k hk hlow hpoints
    rw [hword k (by omega) (.inr hlow), hword (k + 4) (by omega) (by omega)]
    exact hpoints.mono hkeeps
  refine ⟨hroom.trans hhi, (hword 0 (by omega) (.inl rfl)).trans h.type_eq,
    (hword 8 (by omega) (by omega)).trans h.cvss2_eq, (hword 12 (by omega) (by omega)).trans h.cvss3_eq,
    hcval 16 (by omega) (by omega) h.id_eq, hcval 24 (by omega) (by omega) h.description_eq, ?_⟩
  rw [hword 32 (by omega) (by omega)]
  refine h.expr.frame ?_ hkeeps le_rfl hhi
  intro i hlow hhigh
  refine hbytes i (by omega) hhigh fun hr => ?_
  have := hr.2
  omega

theorem runs_cve {fuel : ℕ} {p : Parser}
    {strings : Strings} {lexemes : List Lexeme} (hfuel : form.expr.depth ≤ fuel)
    (ok : ParserOk p strings) (hvtype : p.vtype = .vvague)
    (hspells : Spells (.string form.id :: .score form.cvss2 :: .score form.cvss3 ::
      .string form.description :: .lparen :: (form.expr.lexemes ++ lexemes)) p.r.input)
    (hsize : (form.layout (layoutOf p strings)).len < 2 ^ 32) :
    ∃ p' strings', Runs (ParserM.cve fixedPoint fuel) p p.progn.len p' ∧
      Reaches (Beyond p) lexemes (form.layout (layoutOf p strings)) p strings p' strings' ∧
      CveFor fixedPoint p'.progn.data strings' p'.progn.len form p.progn.len ∧
      Clear strings' p.progn.len cveSize ∧ read32 p'.progn.data (p.progn.len + 4) = 0 := by
  have halloc := (layoutOf p strings).len_le_alloc cveSize
  have hid := ((layoutOf p strings).alloc cveSize).len_le_intern form.id
  have hdescription :=
    (((layoutOf p strings).alloc cveSize).intern form.id).len_le_intern form.description
  have hexpr := form.expr.len_le_layout false
    ((((layoutOf p strings).alloc cveSize).intern form.id).intern form.description)
  have hlen : (layoutOf p strings).len = p.progn.len := rfl
  unfold CveForm.layout at hsize ⊢
  obtain ⟨progn, hnode, hfilling, hlayout⟩ := @runs_allocNode p strings ok cveSize 4 (by decide)
    (by decide) (by omega)
  obtain ⟨val, p₁, strings₁, hrun₁, hfilling₁, hmem₁, hkeeps₁, hspells₁, hlayout₁⟩ :=
    @Filling.loadString _ _ _ _ _ 16 _ _ form.id hfilling hspells (by rw [hlayout]; omega)
      (by decide) (by simp)
  rw [hlayout] at hlayout₁
  obtain ⟨p₂, hrun₂, hfilling₂, hspells₂, hlayout₂⟩ :=
    @Filling.loadScore _ _ _ _ _ 8 _ _ fixedPoint form.cvss2 hfilling₁ hspells₁ (by decide) (by simp)
  obtain ⟨p₃, hrun₃, hfilling₃, hspells₃, hlayout₃⟩ :=
    @Filling.loadScore _ _ _ _ _ 12 _ _ fixedPoint form.cvss3 hfilling₂ hspells₂ (by decide) (by simp)
  obtain ⟨progn₄, hrun₄, hprogn₄, -, hfilling₄⟩ := @Filling.store _ _ _ _ _ _ hfilling₃ 0
    [NodeType.cve.toCode] (by decide) (by simp [NodeType.toCode]) (by simp)
  have hlayout₄ : layoutOf { p₃ with progn := progn₄ } strings₁ =
      ((layoutOf p strings).alloc cveSize).intern form.id := by
    rw [← hlayout₁, ← hlayout₂, ← hlayout₃]
    unfold layoutOf
    rw [hprogn₄]
  obtain ⟨val', p₅, strings₅, hrun₅, hfilling₅, hmem₅, hkeeps₅, hspells₅, hlayout₅⟩ :=
    @Filling.loadString _ _ _ _ _ 24 _ _ form.description hfilling₄ hspells₃
      (by rw [hlayout₄]; omega) (by decide) (by simp)
  rw [hlayout₄] at hlayout₅
  obtain ⟨rest, hrest, hlparen⟩ := @runs_expect p₅ .lparen _ trivial hspells₅
  have hfilling₆ := hfilling₅.reader (Lexeme.load p₅.r rest .lparen)
  obtain ⟨off, p₇, strings₇, hvulnexpr, hreaches, hcompiled⟩ := @Vexpr.compiles form.expr fuel false _
    strings₅ lexemes hfuel hfilling₆.ok (hfilling₆.vtype_eq.trans hvtype) (by simpa using hrest)
    (by rw [← hlayout₅] at hsize; exact hsize)
  have hlen₇ : p₇.progn.len < 2 ^ 32 := by
    rw [hreaches.len_eq]
    rw [← hlayout₅] at hsize
    exact hsize
  have hoff := hcompiled.range.2
  have hfilling₇ := hfilling₆.later hreaches.toEvolves fun i hi => hfilling₆.room.trans hi
  obtain ⟨progn₈, hrun₈, hprogn₈, hevolves₈, hfilling₈⟩ := @Filling.store _ _ _ _ _ _ hfilling₇ 32
    [off] le_rfl (by simpa using hoff.trans hlen₇) (by simp)
  have hfield := hfilling₈.fields_eq
  simp only [List.mapIdx_cons, List.mapIdx_nil, List.cons_append, List.nil_append,
    List.forall_mem_cons, List.not_mem_nil, false_implies, implies_true, and_true] at hfield
  obtain ⟨hvalue, hdlen, hdoff, htype, hcvss3, hcvss2, hilen, hioff, hnext⟩ := hfield
  have hexpr₈ : form.expr.CompiledAt progn₈.data strings₇ (p.progn.len + cveSize) progn₈.len false
      off := by
    refine hcompiled.frame (fun i hlow _ => hevolves₈.frame i fun hr => ?_) (fun _ _ h => h)
      hfilling₆.room (by rw [hprogn₈])
    have hhigh : i < p.progn.len + 32 + 4 := hr.2
    have hroom := hfilling₆.room
    unfold cveSize at hroom
    omega
  refine ⟨_, strings₇, ?_, ⟨hfilling₈.toEvolves, hreaches.spells, ?_⟩, ⟨hfilling₈.room, htype,
    hcvss2, hcvss3, ⟨val, ?_, ?_⟩, ⟨val', hreaches.keeps _ _ hmem₅, ?_⟩, ?_⟩, hfilling₈.clear, hnext⟩
  · exact hnode.bind (hrun₁ (hrun₂ (hrun₃ (hrun₄.bind (hrun₅ (hlparen.bind (hvulnexpr.bind
      (hrun₈.bind (runs_pure _ _)))))))))
  · rw [← hlayout₅]
    refine Eq.trans ?_ hreaches.layout_eq
    unfold layoutOf
    rw [hprogn₈]
  · exact hreaches.keeps _ _ (hkeeps₅ _ _ hmem₁)
  · rw [hilen, hioff]
    rfl
  · rw [hdlen, hdoff]
    rfl
  · rw [hvalue]
    exact hexpr₈

def formsLayout (forms : List CveForm) (layout : Layout) : Layout :=
  forms.foldl (fun layout form => form.layout layout) layout

def formsDepth : List CveForm → ℕ
  | [] => 1
  | form :: forms => max form.expr.depth (formsDepth forms) + 1

def CvesFor (fixedPoint : Num → UInt32) (data : Bytes) (strings : Strings) (hi : ℕ) :
    List CveForm → ℕ → Prop
  | [], off => off = 0
  | form :: forms, off => headerSize ≤ off ∧ CveFor fixedPoint data strings hi form off ∧
      CvesFor fixedPoint data strings hi forms (read32 data (off + 4))

def firstOffset (p : Parser) : List CveForm → ℕ
  | [] => 0
  | _ :: _ => p.progn.len

theorem CveForm.len_le_layout (form : CveForm) (layout : Layout) :
    layout.len ≤ (form.layout layout).len := by
  have halloc := layout.len_le_alloc cveSize
  have hid := (layout.alloc cveSize).len_le_intern form.id
  have hdescription := ((layout.alloc cveSize).intern form.id).len_le_intern form.description
  have hexpr := form.expr.len_le_layout false
    (((layout.alloc cveSize).intern form.id).intern form.description)
  unfold CveForm.layout
  omega

theorem len_le_formsLayout (forms : List CveForm) : ∀ layout : Layout,
    layout.len ≤ (formsLayout forms layout).len := by
  induction forms with
  | nil => exact fun _ => le_rfl
  | cons form forms ih => exact fun layout => (form.len_le_layout layout).trans (ih _)

theorem CveForm.lexemes_append (form : CveForm) (lexemes : List Lexeme) :
    form.lexemes ++ lexemes = .lparen :: .symbol (keyword .cve) :: .string form.id ::
      .score form.cvss2 :: .score form.cvss3 :: .string form.description :: .lparen ::
        (form.expr.lexemes ++ .rparen :: lexemes) := by
  simp [CveForm.lexemes]

theorem runs_readToken_end {p : Parser} (h : Spells [] p.r.input) :
    Runs ParserM.readToken p .teof { p with r := { p.r with input := [] } } := by
  generalize hinput : p.r.input = input at h
  cases h with
  | nil hblanks =>
    unfold Runs ParserM.readToken
    rw [readToken_end p.r hblanks hinput]

theorem runs_form {fuel prev : ℕ} {p : Parser}
    {strings : Strings} {lexemes : List Lexeme} (hfuel : form.expr.depth ≤ fuel)
    (ok : ParserOk p strings) (hvtype : p.vtype = .vvague)
    (hspells : Spells (form.lexemes ++ lexemes) p.r.input)
    (hsize : (form.layout (layoutOf p strings)).len < 2 ^ 32) (hprev : Linkable p strings prev) :
    ∃ p' strings',
      (∀ {p'' : Parser}, Runs (ParserM.parseLoop fixedPoint fuel p.progn.len) p' () p'' →
        Runs (ParserM.parseLoop fixedPoint (fuel + 1) prev) p () p'') ∧
      Reaches (Touches p prev) lexemes (form.layout (layoutOf p strings)) p strings p' strings' ∧
      CveFor fixedPoint p'.progn.data strings' p'.progn.len form p.progn.len ∧
      Clear strings' p.progn.len cveSize ∧ read32 p'.progn.data (p.progn.len + 4) = 0 ∧
      (prev ≠ 0 → read32 p'.progn.data (prev + 4) = p.progn.len) := by
  rw [form.lexemes_append] at hspells
  obtain ⟨rest, hrest, hlparen⟩ := @runs_readToken p .lparen _ trivial hspells
  have hrest' : Spells _ (Lexeme.load p.r rest .lparen).input := hrest
  obtain ⟨rest₁, hrest₁, hsymbol⟩ := @runs_readSymbol { p with r := Lexeme.load p.r rest .lparen } _
    .cve (by decide) hrest'
  let p₁ : Parser := { p with r := { (Lexeme.load p.r rest .lparen) with
    input := rest₁, symbol := keyword .cve } }
  have hreader : Evolves (Beyond p) p strings p₁ strings := Evolves.reader ok _
  obtain ⟨p₂, strings₂, hcve, hreaches, hfor, hclear, hnext⟩ := @runs_cve fixedPoint form fuel p₁
    strings (.rparen :: lexemes) hfuel hreader.ok hvtype hrest₁ hsize
  obtain ⟨rest₂, hrest₂, hrparen⟩ := @runs_expect p₂ .rparen lexemes trivial hreaches.spells
  have hreader₂ := @Evolves.reader (Beyond p) p₂ strings₂ hreaches.ok (Lexeme.load p₂.r rest₂ .rparen)
  have hevolves₂ := hreader.trans (hreaches.toEvolves.trans hreader₂)
  have hlen : p₂.progn.len < 2 ^ 32 := hreaches.len_eq ▸ hsize
  have hgrows : p.progn.len ≤ p₂.progn.len := hreaches.len_le
  have hprev₂ : Linkable { p₂ with r := Lexeme.load p₂.r rest₂ .rparen } strings₂ prev := by
    obtain hzero | ⟨hrange, hclear⟩ := hprev
    · exact .inl hzero
    · exact .inr ⟨hrange.trans hgrows, hclear.mono hreaches.toEvolves hrange⟩
  obtain ⟨progn, hlink, hlinks, hprogn, hlinked⟩ := @runs_linkNext _ strings₂ prev p.progn.len
    hreader₂.ok hprev₂ (by omega)
  -- the link is in front of the form
  have hkept : ∀ i, p.progn.len ≤ i → byteAt progn.data i = byteAt p₂.progn.data i := by
    intro i hi
    refine hlinks.frame i ?_
    rintro ⟨hzero, hr⟩
    obtain hprev | ⟨hrange, -⟩ := hprev
    · exact hzero hprev
    · have := hr.2
      omega
  refine ⟨_, strings₂, fun hloop => ?_, ⟨(hevolves₂.mono fun i hi => .inl hi).trans
    (hlinks.mono fun i hi => .inr hi), by simpa using hrest₂, ?_⟩, ?_, hclear, ?_, hlinked⟩
  · rw [ParserM.parseLoop]
    refine hlparen.bind ?_
    rw [if_neg (show Lexeme.lparen.token ≠ .teof by decide)]
    exact (runs_failIf (show ¬ Lexeme.lparen.token ≠ .tlparen by decide) _ _).bind (hsymbol.bind
      ((runs_failIf (not_not.mpr rfl) _ _).bind (hcve.bind (hrparen.bind (hlink.bind hloop)))))
  · refine Eq.trans ?_ hreaches.layout_eq
    unfold layoutOf
    rw [hprogn]
  · exact hfor.frame (fun i hlow _ _ => hkept i hlow) (fun _ _ h => h) hprogn.ge
  · rw [← hnext]
    exact readWord_congr fun i _ => hkept _ (Nat.le_add_right_of_le (Nat.le_add_right _ _))

theorem runs_parseLoop (forms : List CveForm) :
    ∀ {fuel prev : ℕ} {p : Parser} {strings : Strings}, formsDepth forms ≤ fuel →
    ParserOk p strings → p.vtype = .vvague → Spells (forms.flatMap CveForm.lexemes) p.r.input →
    (formsLayout forms (layoutOf p strings)).len < 2 ^ 32 → Linkable p strings prev →
    ∃ p' strings', Runs (ParserM.parseLoop fixedPoint fuel prev) p () p' ∧
      Evolves (Touches p prev) p strings p' strings' ∧
      CvesFor fixedPoint p'.progn.data strings' p'.progn.len forms (firstOffset p forms) ∧
      p'.progn.len = (formsLayout forms (layoutOf p strings)).len ∧
      (prev ≠ 0 → read32 p.progn.data (prev + 4) = 0 →
        read32 p'.progn.data (prev + 4) = firstOffset p forms) := by
  induction forms with
  | nil =>
    intro fuel prev p strings hfuel ok _ hspells _ _
    obtain ⟨fuel, rfl⟩ := Nat.exists_eq_add_of_le' (show 1 ≤ fuel from hfuel)
    refine ⟨_, strings, ?_, Evolves.reader ok { p.r with input := [] }, rfl, rfl, fun _ h => h⟩
    rw [ParserM.parseLoop]
    refine (runs_readToken_end hspells).bind ?_
    rw [if_pos rfl]
    exact runs_pure _ _
  | cons form forms ih =>
    intro fuel prev p strings hfuel ok hvtype hspells hsize hprev
    rw [formsDepth] at hfuel
    obtain ⟨fuel, rfl⟩ := Nat.exists_eq_add_of_le' (le_trans (Nat.le_add_left 1 _) hfuel)
    have hlayout : formsLayout (form :: forms) (layoutOf p strings) =
      formsLayout forms (form.layout (layoutOf p strings)) := rfl
    rw [hlayout] at hsize ⊢
    have hgrows := len_le_formsLayout forms (form.layout (layoutOf p strings))
    obtain ⟨p₁, strings₁, hform, hreaches, hfor, hclear, hnext, hlinked⟩ := @runs_form fixedPoint form
      fuel prev p strings _ (by omega) ok hvtype hspells (by omega) hprev
    have hroom := hfor.room
    have hcve : cveSize = 36 := rfl
    have hlow := ok.low
    have hheader : headerSize = 8 := rfl
    obtain ⟨p₂, strings₂, hloop, hevolves, hforms, hlen, hnext₂⟩ := @ih fuel p.progn.len p₁ strings₁
      (by omega) hreaches.ok (hreaches.vtype_eq.trans hvtype) hreaches.spells
      (by rw [hreaches.layout_eq]; exact hsize)
      (.inr ⟨by omega, hclear.sub (Nat.le_add_right _ _) (by omega)⟩)
    -- the forms after this one touch its `next` alone
    have hkept : ∀ i, i < p₁.progn.len → ¬ Range (p.progn.len + 4) 4 i →
        byteAt p₂.progn.data i = byteAt p₁.progn.data i := by
      intro i hi hnot
      refine hevolves.frame i ?_
      rintro (hbeyond | ⟨-, hrange⟩)
      · exact absurd hi (Nat.not_lt.mpr hbeyond)
      · exact hnot hrange
    refine ⟨p₂, strings₂, hform hloop, hreaches.toEvolves.trans (hevolves.mono ?_), ⟨hlow, ?_, ?_⟩,
      ?_, ?_⟩
    · rintro i (hbeyond | ⟨-, hrange⟩)
      · exact .inl (hreaches.len_le.trans hbeyond)
      · exact .inl ((Nat.le_add_right _ _).trans hrange.1)
    · exact hfor.frame (fun i _ hi hnot => hkept i hi hnot) hevolves.keeps hevolves.len_le
    · rw [firstOffset, hnext₂ (by omega) hnext]
      exact hforms
    · rw [hlen, hreaches.layout_eq]
    · intro hzero _
      rw [firstOffset, ← hlinked hzero]
      obtain hprev | ⟨hrange, -⟩ := hprev
      · exact absurd hprev hzero
      · refine readWord_congr fun i hi => hkept _ (by omega) fun hr => ?_
        have := hr.1
        omega

def programSize (forms : List CveForm) : ℕ := (formsLayout forms ⟨[], headerSize⟩).len

theorem vulnspecParserInit_spec (input : Bytes) :
    ∃ p, vulnspecParserInit = some p ∧ p.vtype = .vvague ∧
      ParserOk { p with r := vulnspecReaderInit input, progn := p.progn.clear.adata header } [] ∧
      (p.progn.clear.adata header).len = headerSize ∧
      ∀ i < headerSize, byteAt (p.progn.clear.adata header).data i = byteAt header i := by
  obtain ⟨strtab, hinit, hholds⟩ := HoldsStrings.init
  refine ⟨⟨.vvague, strtab, Buf.init defaultPrognSize, vulnspecReaderInit []⟩, ?_, rfl, ?_⟩
  · unfold vulnspecParserInit
    rw [hinit]
    rfl
  · have hlen : ((Buf.init defaultPrognSize).clear.adata header).len = headerSize :=
      Buf.len_adata _ _
    have hbyte : ∀ i, byteAt ((Buf.init defaultPrognSize).clear.adata header).data i =
        if 0 ≤ i ∧ i < 0 + headerSize then byteAt header i
        else byteAt (Buf.init defaultPrognSize).data i := Buf.byteAt_adata _ _
    refine ⟨⟨hholds, hlen.ge, ?_, ?_, nofun, Nat.zero_le _⟩, hlen, ?_⟩
    · dsimp only
      rw [hlen]
      rfl
    · intro i hi
      dsimp only at hi ⊢
      rw [hbyte, if_neg (by omega), Buf.byteAt_init]
    · intro i hi
      rw [hbyte, if_pos (by omega)]

theorem vulnspecParse_spec (fixedPoint : Num → UInt32) {forms : List CveForm}
    {text : Bytes} (hspells : Spells ((form :: forms).flatMap CveForm.lexemes) text)
    (hsize : programSize (form :: forms) < 2 ^ 32) :
    ∃ fresh p strings, vulnspecParserInit = some fresh ∧
      (∃ enough, ∀ fuel, enough ≤ fuel →
        vulnspecParse fixedPoint fresh text fuel = some (.ok (), p)) ∧
      ParserOk p strings ∧ p.progn.len = programSize (form :: forms) ∧
      (∀ i < headerSize, byteAt p.progn.data i = byteAt header i) ∧
      CvesFor fixedPoint p.progn.data strings p.progn.len (form :: forms) headerSize := by
  obtain ⟨fresh, hinit, hvtype, ok, hlen, hheader⟩ := vulnspecParserInit_spec text
  have hlayout : layoutOf { fresh with
      r := vulnspecReaderInit text, progn := fresh.progn.clear.adata header } [] =
      ⟨[], headerSize⟩ := by
    unfold layoutOf
    rw [hlen]
    rfl
  obtain ⟨p, strings, hrun, hevolves, hcves, hsize', -⟩ := @runs_parseLoop fixedPoint (form :: forms)
    _ 0 _ [] le_rfl ok hvtype hspells (by rw [hlayout]; exact hsize) (.inl rfl)
  rw [hlayout] at hsize'
  rw [firstOffset, hlen] at hcves
  refine ⟨fresh, p, strings, hinit, ⟨_, fun fuel hfuel => vulnspecParse_mono hfuel hrun⟩,
    hevolves.ok, hsize', ?_, hcves⟩
  intro i hi
  rw [← hheader i hi]
  refine hevolves.frame i ?_
  rintro (hbeyond | ⟨hzero, -⟩)
  · unfold Beyond at hbeyond
    dsimp only at hbeyond
    omega
  · exact hzero rfl

end Yans.Vulnspec
