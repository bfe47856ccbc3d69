import Mathlib.Data.List.TakeWhile
import Yans.Vulnspec.ParserState

/-! The parser compiles: from the text of an expression it builds nodes that
stand for it. Nodes of an expression lie in the room that was free before, so
that later writes leave them alone; the one exception is the `next` of the last
node of a chain, which is written when another node follows. -/
namespace Yans.Vulnspec

open Library.Memory Util Util.Vaguever

/-- The version type that the parser has inside or outside of `nalpha`. -/
def versionType (nalpha : Bool) : VersionType := if nalpha then .vnalpha else .vvague

def stringCvalue (text : CString) (val : ℕ) : Cvalue := ⟨text.bytes.length + 1, val⟩

def PointsTo (strings : Strings) (cval : Cvalue) (text : CString) : Prop :=
  ∃ val, (text, val) ∈ strings ∧ cval = stringCvalue text val

theorem PointsTo.mono {strings strings' : Strings} {cval : Cvalue} {text : CString}
    (h : PointsTo strings cval text)
    (hkeeps : ∀ text val, (text, val) ∈ strings → (text, val) ∈ strings') :
    PointsTo strings' cval text := by
  obtain ⟨val, hmem, heq⟩ := h
  exact ⟨val, hkeeps text val hmem, heq⟩

structure ComparFor (strings : Strings) (nalpha : Bool) (op : CompareOp)
    (vendprod version : CString) (node : ComparNode) : Prop where
  type_eq : node.type = some op.nodeType
  vendprod_eq : PointsTo strings node.vendprod vendprod
  vtype_eq : node.vtype = versionType nalpha
  vague_eq : nalpha = false → node.vague = vagueverInit version.bytes
  cval_eq : nalpha = true → PointsTo strings node.cval version

mutual

/-- The nodes at an offset stand for an expression, all of them between two
offsets. -/
def Vexpr.CompiledAt (data : Bytes) (strings : Strings) (lo hi : ℕ) (nalpha : Bool) :
    Vexpr → ℕ → Prop
  | .compar op vendprod version, off => (lo ≤ off ∧ off + comparSize ≤ hi) ∧
      ComparFor strings nalpha op vendprod version (comparAt data off)
  | .boolean op operands, off => operands.CompiledAt data strings lo hi nalpha op off
  | .nalpha expr, off => expr.CompiledAt data strings lo hi true off

def Operands.CompiledAt (data : Bytes) (strings : Strings) (lo hi : ℕ) (nalpha : Bool)
    (op : BoolOp) : Operands → ℕ → Prop
  | .one expr, off => (lo ≤ off ∧ off + booleanSize ≤ hi) ∧
      typeAt data off = some op.nodeType ∧ read32 data (off + 4) = 0 ∧
      expr.CompiledAt data strings lo hi nalpha (read32 data (off + 8))
  | .more expr rest, off => (lo ≤ off ∧ off + booleanSize ≤ hi) ∧
      typeAt data off = some op.nodeType ∧
      expr.CompiledAt data strings lo hi nalpha (read32 data (off + 8)) ∧
      rest.CompiledAt data strings lo hi nalpha op (read32 data (off + 4))

end

section Frame

variable {data data' : Bytes} {strings strings' : Strings} {lo hi lo' hi' : ℕ}

theorem ComparFor.mono {nalpha : Bool} {op : CompareOp} {vendprod version : CString}
    {node : ComparNode} (h : ComparFor strings nalpha op vendprod version node)
    (hkeeps : ∀ text val, (text, val) ∈ strings → (text, val) ∈ strings') :
    ComparFor strings' nalpha op vendprod version node :=
  { h with
    vendprod_eq := h.vendprod_eq.mono hkeeps
    cval_eq := fun hnalpha => (h.cval_eq hnalpha).mono hkeeps }

mutual

theorem Vexpr.CompiledAt.frame (hbytes : ∀ i, lo ≤ i → i < hi → byteAt data' i = byteAt data i)
    (hkeeps : ∀ text val, (text, val) ∈ strings → (text, val) ∈ strings') (hlo : lo' ≤ lo)
    (hhi : hi ≤ hi') {nalpha : Bool} : ∀ {expr : Vexpr} {off : ℕ},
    expr.CompiledAt data strings lo hi nalpha off → expr.CompiledAt data' strings' lo' hi' nalpha off
  | .compar op vendprod version, off, ⟨hrange, hnode⟩ => by
    have hsame : comparAt data' off = comparAt data off :=
      comparAt_congr fun i hlow hhigh => hbytes i (by omega) (by omega)
    refine ⟨by omega, ?_⟩
    rw [hsame]
    exact hnode.mono hkeeps
  | .boolean op operands, off, h => Operands.CompiledAt.frame hbytes hkeeps hlo hhi h
  | .nalpha expr, off, h => @Vexpr.CompiledAt.frame hbytes hkeeps hlo hhi true expr off h

theorem Operands.CompiledAt.frame (hbytes : ∀ i, lo ≤ i → i < hi → byteAt data' i = byteAt data i)
    (hkeeps : ∀ text val, (text, val) ∈ strings → (text, val) ∈ strings') (hlo : lo' ≤ lo)
    (hhi : hi ≤ hi') {nalpha : Bool} {op : BoolOp} : ∀ {operands : Operands} {off : ℕ},
    operands.CompiledAt data strings lo hi nalpha op off →
      operands.CompiledAt data' strings' lo' hi' nalpha op off
  | .one expr, off, ⟨hrange, htype, hnext, hexpr⟩ => by
    have hnode : ∀ i, off ≤ i → i < off + booleanSize → byteAt data' i = byteAt data i :=
      fun i hlow hhigh => hbytes i (by omega) (by omega)
    refine ⟨by omega, ?_, ?_, ?_⟩
    · rw [typeAt_congr hnode (by decide)]
      exact htype
    · rw [read32_congr hnode (by decide)]
      exact hnext
    · rw [read32_congr hnode (by decide)]
      exact hexpr.frame hbytes hkeeps hlo hhi
  | .more expr rest, off, ⟨hrange, htype, hexpr, hrest⟩ => by
    have hnode : ∀ i, off ≤ i → i < off + booleanSize → byteAt data' i = byteAt data i :=
      fun i hlow hhigh => hbytes i (by omega) (by omega)
    refine ⟨by omega, ?_, ?_, ?_⟩
    · rw [typeAt_congr hnode (by decide)]
      exact htype
    · rw [read32_congr hnode (by decide)]
      exact hexpr.frame hbytes hkeeps hlo hhi
    · rw [read32_congr hnode (by decide)]
      exact hrest.frame hbytes hkeeps hlo hhi

end

end Frame

/-! The room that an expression takes -/

mutual

def Vexpr.layout (nalpha : Bool) : Vexpr → Layout → Layout
  | .compar _ vendprod version, layout =>
    let layout := (layout.alloc comparSize).intern vendprod
    if nalpha then layout.intern version else layout
  | .boolean _ operands, layout => operands.layout nalpha layout
  | .nalpha expr, layout => expr.layout true layout

def Operands.layout (nalpha : Bool) : Operands → Layout → Layout
  | .one expr, layout => expr.layout nalpha (layout.alloc booleanSize)
  | .more expr rest, layout =>
    rest.layout nalpha (expr.layout nalpha (layout.alloc booleanSize))

end

mutual

theorem Vexpr.len_le_layout (nalpha : Bool) : ∀ (expr : Vexpr) (layout : Layout),
    layout.len ≤ (expr.layout nalpha layout).len
  | .compar _ vendprod version, layout => by
    have halloc := layout.len_le_alloc comparSize
    have hvendprod := (layout.alloc comparSize).len_le_intern vendprod
    have hversion := ((layout.alloc comparSize).intern vendprod).len_le_intern version
    rw [Vexpr.layout]
    split <;> omega
  | .boolean _ operands, layout => Operands.len_le_layout nalpha operands layout
  | .nalpha expr, layout => Vexpr.len_le_layout true expr layout

theorem Operands.len_le_layout (nalpha : Bool) : ∀ (operands : Operands) (layout : Layout),
    layout.len ≤ (operands.layout nalpha layout).len
  | .one expr, layout => by
    have halloc := layout.len_le_alloc booleanSize
    have hexpr := Vexpr.len_le_layout nalpha expr (layout.alloc booleanSize)
    rw [Operands.layout]
    omega
  | .more expr rest, layout => by
    have halloc := layout.len_le_alloc booleanSize
    have hexpr := Vexpr.len_le_layout nalpha expr (layout.alloc booleanSize)
    have hrest := Operands.len_le_layout nalpha rest
      (expr.layout nalpha (layout.alloc booleanSize))
    rw [Operands.layout]
    omega

end

theorem VagueverVersion.exists_fields (v : VagueverVersion) :
    ∃ nused a b c d, v = ⟨nused, #v[a, b, c, d]⟩ := by
  obtain ⟨nused, ⟨⟨fields⟩, hsize⟩⟩ := v
  match fields, hsize with
  | [a, b, c, d], _ => exact ⟨nused, a, b, c, d, rfl⟩

theorem toInt32_ofNat_toNat (x : Int32) : (UInt32.ofNat x.toUInt32.toNat).toInt32 = x := by
  simp

section Compar

variable {p : Parser} {strings : Strings}

def WordsAt (data : Bytes) (off : ℕ) (words : List ℕ) : Prop :=
  ∀ k n, words[k]? = some n → read32 data (off + 4 * k) = n

variable {off val : ℕ} {op : CompareOp} {vendprod : CString}

theorem WordsAt.comparHead {data : Bytes} {vtype : ℕ}
    {rest : List ℕ}
    (h : WordsAt data off (op.nodeType.toCode :: (vendprod.bytes.length + 1) :: val :: vtype :: rest)) :
    (comparAt data off).type = some op.nodeType ∧
      (comparAt data off).vendprod = stringCvalue vendprod val ∧
      (comparAt data off).vtype = VersionType.ofCode vtype := by
  refine ⟨?_, ?_, ?_⟩
  · change NodeType.ofCode (read32 data (off + 4 * 0)) = _
    rw [h 0 _ rfl, NodeType.ofCode_toCode]
  · change (⟨read32 data (off + 4 * 1), read32 data (off + 4 * 2)⟩ : Cvalue) = _
    rw [h 1 _ rfl, h 2 _ rfl]
    rfl
  · change VersionType.ofCode (read32 data (off + 4 * 3)) = _
    rw [h 3 _ rfl]

variable {version : CString}

theorem WordsAt.comparFor_vague {data : Bytes} (hmem : (vendprod, val) ∈ strings)
    (h : WordsAt data off ([op.nodeType.toCode, vendprod.bytes.length + 1, val, 0] ++
      ParserM.vagueverWords (vagueverInit version.bytes))) :
    ComparFor strings false op vendprod version (comparAt data off) := by
  obtain ⟨htype, hvendprod, hvtype⟩ := h.comparHead
  refine ⟨htype, ⟨val, hmem, hvendprod⟩, hvtype, fun _ => ?_, nofun⟩
  obtain ⟨nused, a, b, c, d, hversion⟩ := VagueverVersion.exists_fields (vagueverInit version.bytes)
  rw [hversion] at h ⊢
  have hint : ∀ k x, ([op.nodeType.toCode, vendprod.bytes.length + 1, val, 0] ++
      ParserM.vagueverWords ⟨nused, #v[a, b, c, d]⟩)[k]? = some x.toUInt32.toNat →
        readInt32 data (off + 4 * k) = x := by
    intro k x hk
    rw [readInt32, h k _ hk, toInt32_ofNat_toNat]
  change (⟨readInt32 data (off + 4 * 4), #v[readInt32 data (off + 4 * 5),
    readInt32 data (off + 4 * 6), readInt32 data (off + 4 * 7),
    readInt32 data (off + 4 * 8)]⟩ : VagueverVersion) = _
  rw [hint 4 nused rfl, hint 5 a rfl, hint 6 b rfl, hint 7 c rfl, hint 8 d rfl]

theorem WordsAt.comparFor_nalpha {data : Bytes} {val' : ℕ} (hmem : (vendprod, val) ∈ strings)
    (hmem' : (version, val') ∈ strings)
    (h : WordsAt data off [op.nodeType.toCode, vendprod.bytes.length + 1, val, 1,
      version.bytes.length + 1, val']) :
    ComparFor strings true op vendprod version (comparAt data off) := by
  obtain ⟨htype, hvendprod, hvtype⟩ := h.comparHead
  refine ⟨htype, ⟨val, hmem, hvendprod⟩, hvtype, nofun, fun _ => ⟨val', hmem', ?_⟩⟩
  change (⟨read32 data (off + 4 * 4), read32 data (off + 4 * 5)⟩ : Cvalue) = _
  rw [h 4 _ rfl, h 5 _ rfl]
  rfl

theorem evolves_storeWords (ok : ParserOk p strings) {off : ℕ} {words : List ℕ}
    (hrange : off + 4 * words.length ≤ p.progn.len) (hclear : Clear strings off (4 * words.length))
    (hwords : ∀ n ∈ words, n < 2 ^ 32) :
    let p' : Parser := { p with progn := p.progn.store off (words.flatMap (littleEndian 4)) }
    Runs (ParserM.storeWords off words) p () p' ∧
      Evolves (Range off (4 * words.length)) p strings p' strings ∧
      WordsAt p'.progn.data off words := by
  have hlength := length_words words
  have hevolves := @evolves_store p strings ok off (words.flatMap (littleEndian 4))
    (by rw [hlength]; exact hrange) (by rw [hlength]; exact hclear)
  rw [hlength] at hevolves
  exact ⟨runs_storeWords off words, hevolves, fun k n hk => read32_storeWords hrange hwords k hk⟩

theorem evolves_storeWord (ok : ParserOk p strings) {off n : ℕ} (hrange : off + 4 ≤ p.progn.len)
    (hclear : Clear strings off 4) (hn : n < 2 ^ 32) :
    ∃ progn, Runs (ParserM.storeWords off [n]) p () { p with progn := progn } ∧
      Evolves (Range off 4) p strings { p with progn := progn } strings ∧
      progn.len = p.progn.len ∧ read32 progn.data off = n := by
  obtain ⟨hstore, hevolves, hwords⟩ := @evolves_storeWords p strings ok off [n] hrange hclear
    (by simpa using hn)
  exact ⟨_, hstore, hevolves, rfl, hwords 0 n rfl⟩

theorem vagueverWords_lt (v : VagueverVersion) : ∀ n ∈ ParserM.vagueverWords v, n < 2 ^ 32 := by
  intro n hn
  obtain rfl | hn := List.mem_cons.mp hn
  · exact v.nused.toUInt32.toNat_lt
  · obtain ⟨field, -, rfl⟩ := List.mem_map.mp hn
    exact field.toUInt32.toNat_lt

theorem PointsTo.bounds (ok : ParserOk p strings) {text : CString}
    (hmem : (text, val) ∈ strings) (hlen : p.progn.len < 2 ^ 32) :
    text.bytes.length + 1 < 2 ^ 32 ∧ val < 2 ^ 32 := by
  have := (ok.stored text val hmem).high
  omega

theorem CompareOp.toCode_lt (op : CompareOp) : op.nodeType.toCode < 2 ^ 32 := op.nodeType.toCode_lt

theorem takeWhile_cstring (text : CString) : text.bytes.takeWhile (· ≠ 0) = text.bytes :=
  List.takeWhile_eq_self_iff.mpr (by simpa using text.no_zero)

theorem runs_comparFields {nalpha : Bool} {lexemes : List Lexeme} (ok : ParserOk p strings)
    (hvtype : p.vtype = versionType nalpha)
    (hspells : Spells (.string version :: lexemes) p.r.input) (hmem : (vendprod, val) ∈ strings)
    (hrange : off + comparSize ≤ p.progn.len) (hclear : Clear strings off comparSize)
    (hsize : (if nalpha then (layoutOf p strings).intern version
      else layoutOf p strings).len < 2 ^ 32) :
    ∃ p' strings',
      Runs (ParserM.comparFields op.nodeType off ⟨vendprod.bytes.length + 1, val⟩) p () p' ∧
      Reaches (fun i => Beyond p i ∨ Range off comparSize i) lexemes
        (if nalpha then (layoutOf p strings).intern version else layoutOf p strings)
        p strings p' strings' ∧
      ComparFor strings' nalpha op vendprod version (comparAt p'.progn.data off) := by
  cases nalpha with
  | false =>
    have hlen : p.progn.len < 2 ^ 32 := hsize
    obtain ⟨rest, hrest, hexpect⟩ := @runs_expect p (.string version) lexemes trivial hspells
    have hreader := @Evolves.reader (fun i => Beyond p i ∨ Range off comparSize i) p strings ok
      (Lexeme.load p.r rest (.string version))
    let words := [op.nodeType.toCode, vendprod.bytes.length + 1, val, 0] ++
      ParserM.vagueverWords (vagueverInit version.bytes)
    have hlength : 4 * words.length = comparSize := by
      simp [words, length_vagueverWords, comparSize]
    have hwords : ∀ n ∈ words, n < 2 ^ 32 := by
      have hbounds := PointsTo.bounds ok hmem hlen
      have hcode := op.toCode_lt
      have hvague := vagueverWords_lt (vagueverInit version.bytes)
      intro n hn
      simp only [words, List.mem_append, List.mem_cons, List.not_mem_nil, or_false] at hn
      obtain (rfl | rfl | rfl | rfl) | hn := hn
      · exact hcode
      · exact hbounds.1
      · exact hbounds.2
      · decide
      · exact hvague n hn
    obtain ⟨hstore, hevolves, hwordsAt⟩ := evolves_storeWords hreader.ok
      (by rw [hlength]; exact hrange) (by rw [hlength]; exact hclear) hwords
    rw [hlength] at hevolves
    refine ⟨_, strings, ?_, ⟨hreader.trans (hevolves.mono fun i hi => .inr hi), ?_, rfl⟩,
      hwordsAt.comparFor_vague hmem⟩
    · refine (runs_get p).bind ?_
      have hvague : p.vtype = .vvague := hvtype
      rw [if_pos hvague]
      refine hexpect.bind ((runs_get _).bind ?_)
      rw [readerString_load, takeWhile_cstring]
      exact hstore
    · simpa using hrest
  | true =>
    obtain ⟨val', p₁, strings₁, hloads, hmem', hreaches⟩ := runs_loads ok hspells hsize
    have hlen : p₁.progn.len < 2 ^ 32 := by
      rw [hreaches.len_eq]
      exact hsize
    have hmem₁ := hreaches.keeps _ _ hmem
    let words := [op.nodeType.toCode, vendprod.bytes.length + 1, val, 1,
      version.bytes.length + 1, val']
    have hwords : ∀ n ∈ words, n < 2 ^ 32 := by
      have hbounds := PointsTo.bounds hreaches.ok hmem₁ hlen
      have hbounds' := PointsTo.bounds hreaches.ok hmem' hlen
      have hcode := op.toCode_lt
      simp only [words, List.forall_mem_cons, List.not_mem_nil, false_implies, implies_true, and_true]
      exact ⟨hcode, hbounds.1, hbounds.2, by decide, hbounds'.1, hbounds'.2⟩
    have hfits : off + 4 * words.length ≤ off + comparSize :=
      Nat.add_le_add_left (show 24 ≤ 36 by decide) off
    have hclear₁ : Clear strings₁ off (4 * words.length) :=
      (hclear.mono hreaches.toEvolves hrange).sub le_rfl hfits
    have hrange₁ : off + 4 * words.length ≤ p₁.progn.len :=
      hfits.trans (hrange.trans hreaches.len_le)
    obtain ⟨hstore, hevolves, hwordsAt⟩ := evolves_storeWords hreaches.ok hrange₁ hclear₁ hwords
    refine ⟨_, strings₁, ?_, ⟨(hreaches.toEvolves.mono fun i hi => .inl hi).trans
      (hevolves.mono fun i hi => .inr ⟨hi.1, hi.2.trans_le hfits⟩),
      hreaches.spells, hreaches.layout_eq⟩, hwordsAt.comparFor_nalpha hmem₁ hmem'⟩
    refine (runs_get p).bind ?_
    rw [if_neg (by rw [hvtype]; decide)]
    exact hloads.bind hstore

theorem runs_compar {nalpha : Bool} {op : CompareOp} {vendprod version : CString}
    {lexemes : List Lexeme} (ok : ParserOk p strings) (hvtype : p.vtype = versionType nalpha)
    (hspells : Spells (.string vendprod :: .string version :: .rparen :: lexemes) p.r.input)
    (hsize : ((Vexpr.compar op vendprod version).layout nalpha (layoutOf p strings)).len < 2 ^ 32) :
    ∃ p' strings', Runs (ParserM.compar op.nodeType) p p.progn.len p' ∧
      Reaches (Beyond p) lexemes ((Vexpr.compar op vendprod version).layout nalpha
        (layoutOf p strings)) p strings p' strings' ∧
      (Vexpr.compar op vendprod version).CompiledAt p'.progn.data strings' p.progn.len
        p'.progn.len nalpha p.progn.len := by
  rw [Vexpr.layout] at hsize ⊢
  have halloc := (layoutOf p strings).len_le_alloc comparSize
  have hvendprod := ((layoutOf p strings).alloc comparSize).len_le_intern vendprod
  have hversion :=
    (((layoutOf p strings).alloc comparSize).intern vendprod).len_le_intern version
  have hlen : (layoutOf p strings).len = p.progn.len := rfl
  have hbound : (((layoutOf p strings).alloc comparSize).intern vendprod).len < 2 ^ 32 := by
    split at hsize <;> omega
  obtain ⟨progn, hnode, hevolves, hlayout⟩ :=
    runs_prognAlloc ok (show comparSize ≠ 0 by decide) (by omega)
  have hroom : p.progn.len + comparSize ≤ progn.len := by
    have hprogn : progn.len = ((layoutOf p strings).alloc comparSize).len :=
      congrArg Layout.len hlayout
    omega
  have hfirst := hevolves (Beyond p)
  obtain ⟨val, p₂, strings₂, hloads, hmem, hreaches⟩ :=
    runs_loads hfirst.ok hspells (by rw [hlayout]; exact hbound)
  rw [hlayout] at hreaches
  have hsecond := hfirst.trans (hreaches.toEvolves.beyond hfirst.len_le)
  have hclear : Clear strings₂ p.progn.len comparSize :=
    (ok.clear comparSize).mono hreaches.toEvolves hroom
  obtain ⟨p₃, strings₃, hfields, hreaches₃, hcompar⟩ :=
    runs_comparFields hreaches.ok (hsecond.vtype_eq.trans hvtype) hreaches.spells hmem
      (hroom.trans hreaches.len_le) hclear (by rw [hreaches.layout_eq]; exact hsize)
  rw [hreaches.layout_eq] at hreaches₃
  have hthird := hsecond.trans (hreaches₃.toEvolves.mono fun i hi => by
    obtain hi | hi := hi
    · exact hsecond.len_le.trans hi
    · exact hi.1)
  obtain ⟨rest, hrest, hexpect⟩ := @runs_expect p₃ .rparen lexemes trivial hreaches₃.spells
  have hlast := @Evolves.reader (Beyond p) p₃ strings₃ hreaches₃.ok (Lexeme.load p₃.r rest .rparen)
  refine ⟨_, strings₃, ?_, ⟨hthird.trans hlast, by simpa using hrest, hreaches₃.layout_eq⟩,
    ⟨le_rfl, ?_⟩, hcompar⟩
  · exact hnode.bind (hloads.bind (hfields.bind (hexpect.bind (runs_pure _ _))))
  · exact hroom.trans (hreaches.len_le.trans hreaches₃.len_le)

end Compar

theorem Operands.CompiledAt.range {data : Bytes} {strings : Strings} {lo hi : ℕ} {nalpha : Bool}
    {op : BoolOp} {operands : Operands} {off : ℕ}
    (h : operands.CompiledAt data strings lo hi nalpha op off) : lo ≤ off ∧ off < hi := by
  have hpos : 0 < booleanSize := by decide
  cases operands with
  | one expr =>
    obtain ⟨hrange, -⟩ := h
    omega
  | more expr rest =>
    obtain ⟨hrange, -⟩ := h
    omega

theorem Vexpr.CompiledAt.range {data : Bytes} {strings : Strings} {lo hi : ℕ} :
    ∀ {nalpha : Bool} {expr : Vexpr} {off : ℕ},
      expr.CompiledAt data strings lo hi nalpha off → lo ≤ off ∧ off < hi
  | _, .compar op vendprod version, off, ⟨hrange, _⟩ => by
    have hpos : 0 < comparSize := by decide
    omega
  | _, .boolean op operands, off, h => Operands.CompiledAt.range h
  | _, .nalpha expr, off, h => @Vexpr.CompiledAt.range data strings lo hi true expr off h

mutual

def Vexpr.depth : Vexpr → ℕ
  | .compar _ _ _ => 1
  | .boolean _ operands => operands.depth + 1
  | .nalpha expr => expr.depth + 1

def Operands.depth : Operands → ℕ
  | .one expr => max expr.depth 1 + 1
  | .more expr rest => max expr.depth rest.depth + 1

end

/-- There is a node before whose `next` can be written, or no node at all. -/
def Linkable (p : Parser) (strings : Strings) (prev : ℕ) : Prop :=
  prev = 0 ∨ prev + 8 ≤ p.progn.len ∧ Clear strings (prev + 4) 4

/-- New room, and the `next` of the node before. -/
def Touches (p : Parser) (prev i : ℕ) : Prop := Beyond p i ∨ prev ≠ 0 ∧ Range (prev + 4) 4 i

def Vexpr.Compiles (expr : Vexpr) : Prop :=
  ∀ {fuel : ℕ} {nalpha : Bool} {p : Parser} {strings : Strings} {lexemes : List Lexeme},
    expr.depth ≤ fuel → ParserOk p strings → p.vtype = versionType nalpha →
    Spells (expr.lexemes ++ lexemes) p.r.input →
    (expr.layout nalpha (layoutOf p strings)).len < 2 ^ 32 →
    ∃ off p' strings', Runs (ParserM.vulnexpr fuel) p off p' ∧
      Reaches (Beyond p) lexemes (expr.layout nalpha (layoutOf p strings)) p strings p' strings' ∧
      expr.CompiledAt p'.progn.data strings' p.progn.len p'.progn.len nalpha off

/-- The loop over operands starts its chain at the end of the program and links
it to the node before. -/
def Operands.Compiles (operands : Operands) : Prop :=
  ∀ {fuel : ℕ} {nalpha : Bool} {op : BoolOp} {p : Parser} {strings : Strings}
    {lexemes : List Lexeme} {bnode prev : ℕ},
    operands.depth ≤ fuel → ParserOk p strings → p.vtype = versionType nalpha →
    Spells (operands.lexemes ++ .rparen :: lexemes) p.r.input →
    (operands.layout nalpha (layoutOf p strings)).len < 2 ^ 32 → Linkable p strings prev →
    ∃ p' strings', Runs (ParserM.boolean op.nodeType fuel bnode prev) p
        (if bnode = 0 then p.progn.len else bnode) p' ∧
      Reaches (Touches p prev) lexemes (operands.layout nalpha (layoutOf p strings)) p strings
        p' strings' ∧
      operands.CompiledAt p'.progn.data strings' p.progn.len p'.progn.len nalpha op p.progn.len ∧
      (prev ≠ 0 → read32 p'.progn.data (prev + 4) = p.progn.len)

theorem runs_linkNext {p : Parser} {strings : Strings} {prev curr : ℕ} (ok : ParserOk p strings)
    (hprev : Linkable p strings prev) (hcurr : curr < 2 ^ 32) :
    ∃ progn, Runs (ParserM.linkNext prev curr) p () { p with progn := progn } ∧
      Evolves (fun i => prev ≠ 0 ∧ Range (prev + 4) 4 i) p strings { p with progn := progn }
        strings ∧
      progn.len = p.progn.len ∧ (prev ≠ 0 → read32 progn.data (prev + 4) = curr) := by
  unfold ParserM.linkNext
  obtain rfl | ⟨hrange, hclear⟩ := hprev
  · exact ⟨p.progn, rfl, Evolves.refl ok, rfl, fun h => absurd rfl h⟩
  · by_cases hzero : prev = 0
    · rw [if_neg (not_not.mpr hzero)]
      exact ⟨p.progn, rfl, Evolves.refl ok, rfl, fun h => absurd hzero h⟩
    · rw [if_pos hzero]
      obtain ⟨progn, hstore, hevolves, hlen, hword⟩ := evolves_storeWord ok hrange hclear hcurr
      exact ⟨progn, hstore, hevolves.mono fun i hi => ⟨hzero, hi⟩, hlen, fun _ => hword⟩

structure OperandAt (data : Bytes) (strings : Strings) (hi : ℕ) (nalpha : Bool) (op : BoolOp)
    (expr : Vexpr) (curr : ℕ) : Prop where
  room : curr + booleanSize ≤ hi
  clear : Clear strings curr booleanSize
  type_eq : typeAt data curr = some op.nodeType
  next_eq : read32 data (curr + 4) = 0
  value : expr.CompiledAt data strings (curr + booleanSize) hi nalpha (read32 data (curr + 8))

theorem BoolOp.toCode_lt (op : BoolOp) : op.nodeType.toCode < 2 ^ 32 := op.nodeType.toCode_lt

theorem runs_fillOperand {p₀ p : Parser} {strings : Strings} {nalpha : Bool} {op : BoolOp}
    {expr : Vexpr} {prev val mid : ℕ} (ok : ParserOk p strings)
    (hroom : p₀.progn.len + booleanSize ≤ mid) (hmid : mid ≤ p.progn.len)
    (hlen : p.progn.len < 2 ^ 32) (hclear : Clear strings p₀.progn.len booleanSize)
    (hprev : Linkable p₀ strings prev)
    (hzeros : ∀ i, p₀.progn.len ≤ i → i < mid → byteAt p.progn.data i = 0)
    (hexpr : expr.CompiledAt p.progn.data strings mid p.progn.len nalpha val) :
    ∃ progn, (∀ {β : Type} {f : Unit → ParserM β} {b : β} {p' : Parser},
        Runs (f ()) { p with progn := progn } b p' →
        Runs (do
          ParserM.storeWords p₀.progn.len [op.nodeType.toCode]
          ParserM.storeWords (p₀.progn.len + 8) [val]
          let u ← ParserM.linkNext prev p₀.progn.len
          f u) p b p') ∧
      Evolves (Touches p₀ prev) p strings { p with progn := progn } strings ∧
      progn.len = p.progn.len ∧
      OperandAt progn.data strings progn.len nalpha op expr p₀.progn.len ∧
      (prev ≠ 0 → read32 progn.data (prev + 4) = p₀.progn.len) := by
  have hsize : booleanSize = 12 := rfl
  have hval := hexpr.range.2
  obtain ⟨progn₁, hstore₁, hevolves₁, hlen₁, hword₁⟩ := @evolves_storeWord p strings ok
    p₀.progn.len op.nodeType.toCode (by omega) (hclear.sub le_rfl (by omega)) op.toCode_lt
  obtain ⟨progn₂, hstore₂, hevolves₂, hlen₂, hword₂⟩ := @evolves_storeWord _ strings hevolves₁.ok
    (p₀.progn.len + 8) val (by dsimp only; omega) (hclear.sub (by omega) (by omega)) (by omega)
  have hprev₂ : Linkable { p with progn := progn₂ } strings prev := by
    obtain hzero | ⟨hrange, hclear⟩ := hprev
    · exact .inl hzero
    · exact .inr ⟨by dsimp only at hlen₂ ⊢; omega, hclear⟩
  obtain ⟨progn₃, hlink, hevolves₃, hlen₃, hlinked⟩ := @runs_linkNext _ strings prev p₀.progn.len
    hevolves₂.ok hprev₂ (by omega)
  dsimp only at hlen₁ hlen₂ hlen₃
  -- the link is in front of the node, the other two stores are inside of it
  have hlinkRange : ∀ i, prev ≠ 0 ∧ Range (prev + 4) 4 i → i < p₀.progn.len := by
    rintro i ⟨hzero, hi⟩
    obtain hprev | ⟨hrange, -⟩ := hprev
    · exact absurd hprev hzero
    · have := hi.2
      omega
  refine ⟨progn₃, ?_, ?_, by omega, ?_, hlinked⟩
  · intro β f b p' hf
    exact hstore₁.bind (hstore₂.bind (hlink.bind hf))
  · refine ((hevolves₁.mono fun i hi => .inl hi.1).trans (hevolves₂.mono fun i hi => .inl ?_)).trans
      (hevolves₃.mono fun i hi => .inr hi)
    have := hi.1
    unfold Beyond
    omega
  · have hvalue : expr.CompiledAt progn₃.data strings (p₀.progn.len + booleanSize) progn₃.len
        nalpha val := by
      refine hexpr.frame ?_ (fun _ _ h => h) hroom (by omega)
      intro i hlow _
      have hinside : ∀ off, off + 4 ≤ mid → ¬ Range off 4 i := fun off hoff hi => by
        have := hi.2
        omega
      rw [hevolves₃.frame i fun hi => by have := hlinkRange i hi; omega,
        hevolves₂.frame i (hinside _ (by omega)), hevolves₁.frame i (hinside _ (by omega))]
    have hlinked : ∀ {i}, p₀.progn.len ≤ i → byteAt progn₃.data i = byteAt progn₂.data i :=
      fun hi => hevolves₃.frame _ fun hr => absurd (hlinkRange _ hr) (by omega)
    have hnext : read32 progn₃.data (p₀.progn.len + 4) = 0 := by
      refine read32_eq_zero fun i hi => ?_
      rw [hlinked (by omega), hevolves₂.frame _ fun hr => by have := hr.1; omega,
        hevolves₁.frame _ fun hr => by have := hr.2; omega]
      exact hzeros _ (by omega) (by omega)
    have hval₃ : read32 progn₃.data (p₀.progn.len + 8) = val :=
      (readWord_congr fun i _ => hlinked (by omega)).trans hword₂
    have htype : read32 progn₃.data p₀.progn.len = op.nodeType.toCode := by
      refine (readWord_congr fun i hi => ?_).trans hword₁
      rw [hlinked (by omega)]
      exact hevolves₂.frame _ fun hr => by have := hr.1; omega
    refine ⟨by omega, hclear, ?_, hnext, hval₃.symm ▸ hvalue⟩
    unfold typeAt
    rw [htype, NodeType.ofCode_toCode]

theorem Linkable.mono {region : ℕ → Prop} {p q q' : Parser} {strings strings' : Strings} {prev : ℕ}
    (hprev : Linkable p strings prev) (h : Evolves region q strings q' strings')
    (hlen : p.progn.len ≤ q.progn.len) : Linkable p strings' prev := by
  obtain hzero | ⟨hrange, hclear⟩ := hprev
  · exact .inl hzero
  · exact .inr ⟨hrange, hclear.mono h (by omega)⟩

theorem runs_operand {expr : Vexpr} (hexpr : expr.Compiles) {fuel : ℕ} {nalpha : Bool} {op : BoolOp}
    {p : Parser} {strings : Strings} {lexemes : List Lexeme} {bnode prev : ℕ}
    (hfuel : expr.depth ≤ fuel) (ok : ParserOk p strings) (hvtype : p.vtype = versionType nalpha)
    (hspells : Spells (.lparen :: (expr.lexemes ++ lexemes)) p.r.input)
    (hsize : (expr.layout nalpha ((layoutOf p strings).alloc booleanSize)).len < 2 ^ 32)
    (hprev : Linkable p strings prev) :
    ∃ p' strings',
      Reaches (Touches p prev) lexemes (expr.layout nalpha ((layoutOf p strings).alloc booleanSize))
        p strings p' strings' ∧
      OperandAt p'.progn.data strings' p'.progn.len nalpha op expr p.progn.len ∧
      (prev ≠ 0 → read32 p'.progn.data (prev + 4) = p.progn.len) ∧
      ∀ {b : ℕ} {p'' : Parser},
        Runs (ParserM.boolean op.nodeType fuel (if bnode = 0 then p.progn.len else bnode)
          p.progn.len) p' b p'' →
        Runs (ParserM.boolean op.nodeType (fuel + 1) bnode prev) p b p'' := by
  have halloc := (layoutOf p strings).len_le_alloc booleanSize
  have hgrows := expr.len_le_layout nalpha ((layoutOf p strings).alloc booleanSize)
  have hlayout : (layoutOf p strings).len = p.progn.len := rfl
  obtain ⟨rest, hrest, hread⟩ := @runs_readToken p .lparen _ trivial hspells
  have hreader := @Evolves.reader (Beyond p) p strings ok (Lexeme.load p.r rest .lparen)
  obtain ⟨progn, hnode, hevolves, hlayout₂⟩ :=
    runs_prognAlloc hreader.ok (show booleanSize ≠ 0 by decide) (by dsimp only; omega)
  have hsecond := hreader.trans (hevolves (Beyond p))
  have hprogn : progn.len = ((layoutOf p strings).alloc booleanSize).len :=
    congrArg Layout.len hlayout₂
  obtain ⟨val, p₃, strings₃, hvulnexpr, hreaches, hcompiled⟩ := hexpr hfuel hsecond.ok
    (hsecond.vtype_eq.trans hvtype) (by simpa using hrest) (by rw [hlayout₂]; exact hsize)
  rw [hlayout₂] at hreaches
  have hthird := hsecond.trans (hreaches.toEvolves.beyond hsecond.len_le)
  have hroom : p.progn.len + booleanSize ≤ progn.len := by omega
  have hzeros : ∀ i, p.progn.len ≤ i → i < progn.len → byteAt p₃.progn.data i = 0 := by
    intro i hlow hhigh
    rw [hreaches.frame i (Nat.not_le.mpr hhigh), (hevolves fun _ => False).frame i not_false]
    exact ok.zeros i hlow
  obtain ⟨progn', hfill, hfilled, hlen, hoperand, hlinked⟩ := @runs_fillOperand p p₃ strings₃ nalpha
    op expr prev val progn.len hreaches.ok hroom hreaches.len_le
    (hreaches.len_eq ▸ hsize) ((ok.clear booleanSize).mono hreaches.toEvolves hroom)
    (hprev.mono hreaches.toEvolves hsecond.len_le) hzeros hcompiled
  have hlast := (hthird.mono fun i hi => Or.inl hi).trans hfilled
  refine ⟨{ p₃ with progn := progn' }, strings₃, ⟨hlast, hreaches.spells, ?_⟩, hoperand, hlinked, ?_⟩
  · refine Eq.trans ?_ hreaches.layout_eq
    unfold layoutOf
    rw [hlen]
  · intro b p'' hloop
    rw [ParserM.boolean]
    refine hread.bind ?_
    rw [if_pos (show Lexeme.lparen.token = .tlparen from rfl)]
    exact hnode.bind (hvulnexpr.bind (hfill hloop))

variable {expr : Vexpr}

theorem Operands.one_compiles (hexpr : expr.Compiles) :
    (Operands.one expr).Compiles := by
  intro fuel nalpha op p strings lexemes bnode prev hfuel ok hvtype hspells hsize hprev
  rw [Operands.depth] at hfuel
  rw [Operands.lexemes, List.cons_append] at hspells
  rw [Operands.layout] at hsize ⊢
  obtain ⟨fuel, rfl⟩ := Nat.exists_eq_add_of_le' (le_trans (by omega : 2 ≤ max expr.depth 1 + 1) hfuel)
  obtain ⟨p₁, strings₁, hreaches, hoperand, hlinked, hloop⟩ := @runs_operand expr hexpr (fuel + 1)
    nalpha op p strings (.rparen :: lexemes) bnode prev (by omega) ok hvtype hspells hsize hprev
  obtain ⟨rest, hrest, hread⟩ := @runs_readToken p₁ .rparen lexemes trivial hreaches.spells
  have hreader := @Evolves.reader (Touches p prev) p₁ strings₁ hreaches.ok
    (Lexeme.load p₁.r rest .rparen)
  refine ⟨_, strings₁, hloop ?_, ⟨hreaches.toEvolves.trans hreader, by simpa using hrest,
    hreaches.layout_eq⟩, ⟨⟨le_rfl, hoperand.room⟩, hoperand.type_eq, hoperand.next_eq, ?_⟩, hlinked⟩
  · have hlow : p.progn.len ≠ 0 := by
      have := ok.low
      unfold headerSize at this
      omega
    have hbnode : (if bnode = 0 then p.progn.len else bnode) ≠ 0 := by split <;> assumption
    rw [ParserM.boolean]
    refine hread.bind ?_
    have htoken : Lexeme.rparen.token = .trparen := rfl
    rw [if_neg (by rw [htoken]; decide), if_neg (not_not.mpr htoken), if_neg hbnode]
    exact runs_pure _ _
  · exact hoperand.value.frame (fun _ _ _ => rfl) (fun _ _ h => h) (Nat.le_add_right _ _) le_rfl

theorem Operands.more_compiles {rest : Operands} (hexpr : expr.Compiles)
    (hrest : rest.Compiles) : (Operands.more expr rest).Compiles := by
  intro fuel nalpha op p strings lexemes bnode prev hfuel ok hvtype hspells hsize hprev
  rw [Operands.depth] at hfuel
  rw [Operands.lexemes, List.cons_append, List.append_assoc] at hspells
  rw [Operands.layout] at hsize ⊢
  obtain ⟨fuel, rfl⟩ := Nat.exists_eq_add_of_le' (le_trans (Nat.le_add_left 1 _) hfuel)
  have hgrows := rest.len_le_layout nalpha (expr.layout nalpha ((layoutOf p strings).alloc booleanSize))
  obtain ⟨p₁, strings₁, hreaches, hoperand, hlinked, hloop⟩ := @runs_operand expr hexpr fuel
    nalpha op p strings (rest.lexemes ++ .rparen :: lexemes) bnode prev (by omega) ok hvtype hspells
    (by omega) hprev
  have hsizeof : booleanSize = 12 := rfl
  have hroom := hoperand.room
  have hclear : Clear strings₁ (p.progn.len + 4) 4 := hoperand.clear.sub (by omega) (by omega)
  obtain ⟨p₂, strings₂, hboolean, hreaches₂, hcompiled, hnext⟩ := @hrest fuel nalpha op p₁ strings₁ lexemes
    (if bnode = 0 then p.progn.len else bnode) p.progn.len (by omega) hreaches.ok
    (hreaches.vtype_eq.trans hvtype) hreaches.spells (by rw [hreaches.layout_eq]; exact hsize)
    (.inr ⟨by omega, hclear⟩)
  have hlow : p.progn.len ≠ 0 := by
    have := ok.low
    unfold headerSize at this
    omega
  -- of what was there, the rest of the chain touches the link to it alone
  have hkept : ∀ i, i < p₁.progn.len → ¬ Range (p.progn.len + 4) 4 i →
      byteAt p₂.progn.data i = byteAt p₁.progn.data i := by
    intro i hi hnot
    refine hreaches₂.frame i ?_
    rintro (hbeyond | ⟨-, hrange⟩)
    · exact absurd hi (Nat.not_lt.mpr hbeyond)
    · exact hnot hrange
  have hword : ∀ k, k = 0 ∨ k = 8 →
      read32 p₂.progn.data (p.progn.len + k) = read32 p₁.progn.data (p.progn.len + k) := by
    intro k hk
    refine readWord_congr fun i hi => hkept _ (by omega) fun hr => ?_
    have hlower := hr.1
    have hupper := hr.2
    omega
  have hvalue : expr.CompiledAt p₂.progn.data strings₂ p.progn.len p₂.progn.len nalpha
      (read32 p₂.progn.data (p.progn.len + 8)) := by
    rw [hword 8 (.inr rfl)]
    refine hoperand.value.frame ?_ hreaches₂.keeps (Nat.le_add_right _ _) hreaches₂.len_le
    intro i hlower hupper
    refine hkept i hupper fun hr => ?_
    have := hr.2
    omega
  refine ⟨p₂, strings₂, hloop ?_, ⟨hreaches.toEvolves.trans (hreaches₂.toEvolves.mono ?_),
    hreaches₂.spells, hreaches₂.layout_eq.trans ?_⟩, ⟨⟨le_rfl, ?_⟩, ?_, hvalue, ?_⟩, ?_⟩
  · have hbnode : (if bnode = 0 then p.progn.len else bnode) ≠ 0 := by split <;> assumption
    rwa [if_neg hbnode] at hboolean
  · rintro i (hbeyond | ⟨-, hrange⟩)
    · exact .inl (hreaches.len_le.trans hbeyond)
    · exact .inl ((Nat.le_add_right _ _).trans hrange.1)
  · rw [hreaches.layout_eq]
  · exact hroom.trans hreaches₂.len_le
  · exact (congrArg NodeType.ofCode (hword 0 (.inl rfl))).trans hoperand.type_eq
  · rw [hnext hlow]
    exact hcompiled.frame (fun _ _ _ => rfl) (fun _ _ h => h) hreaches.len_le le_rfl
  · intro hzero
    rw [← hlinked hzero]
    obtain hprev | ⟨hrange, -⟩ := hprev
    · exact absurd hprev hzero
    · refine readWord_congr fun i hi => hkept _ (by omega) fun hr => ?_
      have := hr.1
      omega

theorem CompareOp.keyword_ne (op : CompareOp) : keyword op.nodeType ≠ [] := by
  cases op <;> decide

theorem BoolOp.keyword_ne (op : BoolOp) : keyword op.nodeType ≠ [] := by
  cases op <;> decide

theorem Vexpr.compar_compiles (op : CompareOp) (vendprod version : CString) :
    (Vexpr.compar op vendprod version).Compiles := by
  intro fuel nalpha p strings lexemes hfuel ok hvtype hspells hsize
  rw [Vexpr.depth] at hfuel
  obtain ⟨fuel, rfl⟩ := Nat.exists_eq_add_of_le' hfuel
  obtain ⟨rest, hrest, hread⟩ := runs_readSymbol op.keyword_ne hspells
  have hreader := @Evolves.reader (Beyond p) p strings ok
    { p.r with input := rest, symbol := keyword op.nodeType }
  obtain ⟨p₁, strings₁, hcompar, hreaches, hcompiled⟩ := @runs_compar _ strings nalpha op vendprod
    version lexemes hreader.ok hvtype hrest hsize
  refine ⟨p.progn.len, p₁, strings₁, ?_, ⟨hreader.trans hreaches.toEvolves, hreaches.spells,
    hreaches.layout_eq⟩, hcompiled⟩
  rw [ParserM.vulnexpr]
  refine hread.bind ?_
  rw [if_pos (by cases op <;> rfl)]
  exact hcompar

theorem Vexpr.boolean_compiles (op : BoolOp) {operands : Operands} (hoperands : operands.Compiles) :
    (Vexpr.boolean op operands).Compiles := by
  intro fuel nalpha p strings lexemes hfuel ok hvtype hspells hsize
  rw [Vexpr.depth] at hfuel
  rw [Vexpr.lexemes, List.cons_append, List.append_assoc] at hspells
  obtain ⟨fuel, rfl⟩ := Nat.exists_eq_add_of_le' (le_trans (Nat.le_add_left 1 _) hfuel)
  obtain ⟨rest, hrest, hread⟩ := runs_readSymbol op.keyword_ne hspells
  have hreader := @Evolves.reader (Beyond p) p strings ok
    { p.r with input := rest, symbol := keyword op.nodeType }
  obtain ⟨p₁, strings₁, hboolean, hreaches, hcompiled, -⟩ := @hoperands fuel nalpha op _ strings lexemes
    0 0 (by omega) hreader.ok hvtype hrest hsize (.inl rfl)
  refine ⟨p.progn.len, p₁, strings₁, ?_, ⟨hreader.trans (hreaches.toEvolves.mono ?_),
    hreaches.spells, hreaches.layout_eq⟩, hcompiled⟩
  · rw [ParserM.vulnexpr]
    refine hread.bind ?_
    rw [if_neg (by cases op <;> decide), if_pos (by cases op <;> rfl)]
    exact hboolean
  · rintro i (hbeyond | ⟨hzero, -⟩)
    · exact hbeyond
    · exact absurd rfl hzero

theorem runs_setVtype (vtype : VersionType) (p : Parser) :
    Runs (ParserM.setVtype vtype) p () { p with vtype := vtype } := rfl

theorem ParserOk.scoped {p : Parser} {strings : Strings} (ok : ParserOk p strings)
    (vtype : VersionType) (r : Reader) : ParserOk { p with vtype := vtype, r := r } strings :=
  ⟨ok.strtab, ok.low, ok.aligned, ok.zeros, ok.stored, ok.count⟩

theorem Evolves.restored {region : ℕ → Prop} {p p' : Parser} {strings strings' : Strings}
    {vtype : VersionType} {r : Reader} (r' : Reader)
    (h : Evolves region { p with vtype := vtype, r := r } strings p' strings') :
    Evolves region p strings { p' with vtype := p.vtype, r := r' } strings' :=
  ⟨h.ok.scoped _ _, h.len_le, h.frame, h.keeps, h.fresh, rfl⟩

theorem Vexpr.nalpha_compiles (hexpr : expr.Compiles) :
    (Vexpr.nalpha expr).Compiles := by
  intro fuel nalpha p strings lexemes hfuel ok hvtype hspells hsize
  rw [Vexpr.depth] at hfuel
  rw [Vexpr.lexemes, List.cons_append, List.cons_append, List.append_assoc] at hspells
  obtain ⟨fuel, rfl⟩ := Nat.exists_eq_add_of_le' (le_trans (Nat.le_add_left 1 _) hfuel)
  obtain ⟨rest, hrest, hread⟩ := runs_readSymbol (show keyword .nalpha ≠ [] by decide) hspells
  let p₁ : Parser := { p with
    vtype := .vnalpha, r := { p.r with input := rest, symbol := keyword .nalpha } }
  obtain ⟨rest₁, hrest₁, hlparen⟩ := @runs_expect p₁ .lparen _ trivial hrest
  let p₂ : Parser := { p₁ with r := Lexeme.load p₁.r rest₁ .lparen }
  have ok₂ : ParserOk p₂ strings := ok.scoped _ _
  obtain ⟨off, p₃, strings₃, hvulnexpr, hreaches, hcompiled⟩ := @hexpr fuel true p₂ strings
    (.rparen :: lexemes) (by omega) ok₂ rfl (by simpa [p₂] using hrest₁) hsize
  obtain ⟨rest₃, hrest₃, hrparen⟩ := @runs_expect p₃ .rparen lexemes trivial hreaches.spells
  have hscoped := @Evolves.restored (Beyond p) p p₃ strings strings₃ .vnalpha p₂.r
    (Lexeme.load p₃.r rest₃ .rparen) hreaches.toEvolves
  refine ⟨off, _, strings₃, ?_, ⟨hscoped, by simpa using hrest₃, hreaches.layout_eq⟩, hcompiled⟩
  rw [ParserM.vulnexpr]
  refine hread.bind ?_
  rw [if_neg (by decide), if_neg (by decide), if_pos rfl]
  exact (runs_get _).bind ((runs_setVtype _ _).bind (hlparen.bind (hvulnexpr.bind (hrparen.bind
    ((runs_setVtype _ _).bind (runs_pure _ _))))))

mutual

theorem Vexpr.compiles : ∀ expr : Vexpr, expr.Compiles
  | .compar op vendprod version => Vexpr.compar_compiles op vendprod version
  | .boolean op operands => Vexpr.boolean_compiles op operands.compiles
  | .nalpha expr => Vexpr.nalpha_compiles expr.compiles

theorem Operands.compiles : ∀ operands : Operands, operands.Compiles
  | .one expr => Operands.one_compiles expr.compiles
  | .more expr rest => Operands.more_compiles expr.compiles rest.compiles

end

end Yans.Vulnspec
