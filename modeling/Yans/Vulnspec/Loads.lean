import Yans.Vulnspec.Correctness
import Yans.Vulnspec.Grammar
import Yans.Vulnspec.Growth

/-! What the compiler accepts is loaded. Each construct lays down nodes that
unfold, and they go on to unfold, since what is written later fills in other
fields. Only the program without a node, which a text of blanks compiles to,
does not pass the validator. -/
namespace Yans.Vulnspec

open Library.Memory Library.Computations Library.Computations.Computation Util

variable {s s' : Sketch}

theorem Blank.room {off n : ℕ} (h : Blank s (Range off n)) (hn : 0 < n) : off + n ≤ s.len := by
  have hlast := (h (off + (n - 1)) ⟨Nat.le_add_right _ _, by omega⟩).1
  omega

theorem Sketch.IsText.bounds (hlen : s.len < 2 ^ 32) {cval : Cvalue} (h : s.IsText cval) :
    cval.length < 2 ^ 32 ∧ cval.offset < 2 ^ 32 := by
  obtain ⟨len, hlength, hlow, hpos, hhigh, -⟩ := h
  exact ⟨hlength ▸ Nat.mod_lt _ (by decide), by omega⟩

def VersionWords (s : Sketch) (words : List ℕ) : Prop :=
  (∃ version, words = 0 :: ParserM.vagueverWords version) ∨
    ∃ cversion, s.IsText cversion ∧ words = [1, cversion.length, cversion.offset]

variable {words : List ℕ}

theorem VersionWords.lt (hlen : s.len < 2 ^ 32) (h : VersionWords s words) :
    ∀ n ∈ words, n < 2 ^ 32 := by
  obtain ⟨version, rfl⟩ | ⟨cversion, htext, rfl⟩ := h
  · have hvague := vagueverWords_lt version
    simpa using hvague
  · have hbounds := htext.bounds hlen
    simpa using hbounds

theorem VersionWords.grows {region : ℕ → Prop} (h : VersionWords s words)
    (hgrows : Grows region s s') : VersionWords s' words := by
  obtain hvague | ⟨cversion, htext, hwords⟩ := h
  · exact .inl hvague
  · exact .inr ⟨cversion, htext.grows hgrows, hwords⟩

variable {t : NodeType} {cvendprod : Cvalue}

theorem unfolds_compar (hs : Sound s) (hlen : s.len < 2 ^ 32)
    (hcompar : t.isCompar = true) {off : ℕ} (hlow : headerSize ≤ off)
    (hhigh : off + comparSize ≤ s.len) (hvendprod : s.IsText cvendprod)
    (hversion : VersionWords s words)
    (hholds : s.Holds off ((t.toCode :: cvendprod.length :: cvendprod.offset :: words).flatMap
      (littleEndian 4))) : Unfolds s.memory (.vulnexpr off) := by
  have hwords : ∀ n ∈ t.toCode :: cvendprod.length :: cvendprod.offset :: words, n < 2 ^ 32 := by
    have hbounds := hvendprod.bounds hlen
    simpa using ⟨t.toCode_lt, hbounds.1, hbounds.2, hversion.lt hlen⟩
  have hread := @Sketch.Holds.read32 s hs off _ hholds hwords
  have htype : typeAt s.memory off = some t :=
    (congrArg NodeType.ofCode (hread 0 rfl)).trans (NodeType.ofCode_toCode t)
  have hfirst : cvalueAt s.memory (off + 4) = cvendprod := by
    unfold cvalueAt
    rw [show read32 s.memory (off + 4) = cvendprod.length from hread 1 rfl,
      show read32 s.memory (off + 4 + 4) = cvendprod.offset from hread 2 rfl]
  refine ⟨_, .compar htype hcompar ⟨hlow, (Sketch.length_memory s).symm ▸ hhigh, ?_, ?_⟩⟩
  · change StringOk s.memory (cvalueAt s.memory (off + 4))
    rw [hfirst]
    exact hvendprod.stringOk hlen
  · intro hnalpha
    obtain ⟨version, rfl⟩ | ⟨cversion, htext, rfl⟩ := hversion
    · refine absurd ?_ hnalpha
      exact congrArg VersionType.ofCode (hread 3 rfl)
    · have hsecond : cvalueAt s.memory (off + 16) = cversion := by
        unfold cvalueAt
        rw [show read32 s.memory (off + 16) = cversion.length from hread 4 rfl,
          show read32 s.memory (off + 16 + 4) = cversion.offset from hread 5 rfl]
      change StringOk s.memory (cvalueAt s.memory (off + 16))
      rw [hsecond]
      exact htext.stringOk hlen

variable {u : Unit}

theorem lays_comparNode (hs : Sound s) (hcompar : t.isCompar = true) {off : ℕ}
    (hlow : headerSize ≤ off) (hblank : Blank s (Range off comparSize))
    (hvendprod : s.IsText cvendprod) (hversion : VersionWords s words)
    (hfits : 4 * (words.length + 3) ≤ comparSize)
    (h : SketchM.storeWords off (t.toCode :: cvendprod.length :: cvendprod.offset :: words) s =
      some (.ok u, s')) :
    Lays (Range off comparSize) s s' ∧
      Settled s' s'.len fun data => Unfolds data (.vulnexpr off) := by
  have hroom : ∀ i, Range off (4 * (words.length + 3)) i → Range off comparSize i :=
    fun i hi => ⟨hi.1, hi.2.trans_le (Nat.add_le_add_left hfits off)⟩
  obtain ⟨hstore, hholds⟩ := lays_storeWords hs (hblank.sub hroom) h
  refine ⟨⟨hstore.toGrows.mono fun i _ hi => hroom i hi, hstore.sound⟩, ?_⟩
  intro s'' hs'' hgrows hlen
  have hhigh := (hblank.room (by decide)).trans (hstore.len_le.trans hgrows.len_le)
  exact unfolds_compar hs'' hlen hcompar hlow hhigh ((hvendprod.grows hstore.toGrows).grows hgrows)
    ((hversion.grows hstore.toGrows).grows hgrows) (hholds.grows hgrows)

theorem lays_comparFields (hs : Sound s) (hcompar : t.isCompar = true) {off : ℕ}
    (hlow : headerSize ≤ off) (hblank : Blank s (Range off comparSize))
    (hvendprod : s.IsText cvendprod)
    (h : SketchM.comparFields t off cvendprod s = some (.ok u, s')) :
    Lays (Range off comparSize) s s' ∧
      Settled s' s'.len fun data => Unfolds data (.vulnexpr off) := by
  unfold SketchM.comparFields at h
  obtain ⟨vtype, s₀, hvtype, h⟩ := bind_eq_ok h
  cases hvtype
  split at h
  · obtain ⟨text, s₁, htext, h⟩ := bind_eq_ok h
    obtain ⟨_, s₂, hread, h⟩ := bind_eq_ok h
    have hlays₁ := lays_take hs htext
    have hlays₂ := hlays₁.then (lays_versionRead hlays₁.sound hread)
    obtain ⟨hlays, hsettled⟩ := lays_comparNode hlays₂.sound hcompar hlow (hblank.nowhere hlays₂)
      (hvendprod.grows hlays₂.toGrows) (.inl ⟨_, rfl⟩) (by simp [length_vagueverWords, comparSize]) h
    exact ⟨hlays₂.then hlays, hsettled⟩
  · obtain ⟨cversion, s₁, hloads, h⟩ := bind_eq_ok h
    obtain ⟨hlays₁, hversion⟩ := lays_loads hs hloads
    obtain ⟨hlays, hsettled⟩ := lays_comparNode hlays₁.sound hcompar hlow (hblank.nowhere hlays₁)
      (hvendprod.grows hlays₁.toGrows) (.inr ⟨cversion, hversion, rfl⟩) (by simp [comparSize]) h
    exact ⟨hlays₁.then hlays, hsettled⟩

theorem lays_compar (hs : Sound s) (hcompar : t.isCompar = true) {val : ℕ}
    (h : SketchM.compar t s = some (.ok val, s')) :
    Lays Nowhere s s' ∧ Settled s' s.len fun data => Unfolds data (.vulnexpr val) := by
  obtain ⟨compar, s₁, halloc, h⟩ := bind_eq_ok h
  obtain ⟨cvendprod, s₂, hloads, h⟩ := bind_eq_ok h
  obtain ⟨_, s₃, hfields, h⟩ := bind_eq_ok h
  obtain ⟨_, s₄, hparen, h⟩ := bind_eq_ok h
  obtain ⟨hval, rfl⟩ := Prod.mk.inj (Option.some.inj h)
  cases hval
  obtain ⟨hlays₁, rfl, -, hblank⟩ := lays_alloc hs halloc
  obtain ⟨hlays₂, hvendprod⟩ := lays_loads hlays₁.sound hloads
  obtain ⟨hlays₃, hsettled⟩ :=
    lays_comparFields hlays₂.sound hcompar hs.low (hblank.nowhere hlays₂) hvendprod hfields
  have hlays₄ := lays_take hlays₃.sound hparen
  refine ⟨((hlays₁.then hlays₂).fresh hlays₃ fun i hi => hi.1).then hlays₄, ?_⟩
  · refine (hsettled.grows hlays₄.toGrows fun _ _ => False.elim).mono ?_
    exact (hlays₁.len_le.trans hlays₂.len_le).trans hlays₃.len_le

/-- The `next` field of a node before, if there is one. -/
def Link (prev i : ℕ) : Prop := prev ≠ 0 ∧ Range (prev + 4) 4 i

theorem lays_storeWord (hs : Sound s) {off n : ℕ} (hblank : Blank s (Range off 4))
    (h : SketchM.storeWords off [n] s = some (.ok u, s')) :
    Lays (Range off 4) s s' ∧ s'.Holds off ([n].flatMap (littleEndian 4)) :=
  lays_storeWords hs hblank h

theorem Sketch.Holds.read32_single (hs : Sound s) {off n : ℕ}
    (h : s.Holds off ([n].flatMap (littleEndian 4))) (hn : n < 2 ^ 32) :
    Vulnspec.read32 s.memory off = n :=
  h.read32 hs (by simpa using hn) 0 rfl

variable {curr prev : ℕ}

theorem lays_linkNext (hs : Sound s)
    (hblank : prev ≠ 0 → Blank s (Range (prev + 4) 4))
    (h : SketchM.linkNext prev curr s = some (.ok u, s')) :
    Lays (Link prev) s s' ∧ (prev ≠ 0 → s'.Holds (prev + 4) ([curr].flatMap (littleEndian 4))) := by
  unfold SketchM.linkNext at h
  split at h
  · rename_i hprev
    obtain ⟨hstore, hholds⟩ := lays_storeWord hs (hblank hprev) h
    exact ⟨⟨hstore.toGrows.mono fun i _ hi => ⟨hprev, hi⟩, hstore.sound⟩, fun _ => hholds⟩
  · rename_i hfirst
    cases h
    refine ⟨⟨(lays_same hs rfl rfl rfl).toGrows.mono fun _ _ => False.elim, hs⟩, ?_⟩
    exact fun hprev => absurd hprev hfirst

section Booleans

variable {data : Bytes} {off : ℕ}

theorem Unfolds.vulnexpr_lt (h : Unfolds data (.vulnexpr off)) : off < data.length := by
  obtain ⟨tree, htree⟩ := h
  cases htree with
  | compar _ _ hok =>
    have hhigh := hok.2.1
    unfold comparSize at hhigh
    omega
  | enter _ _ hdecodes =>
    have hhigh := hdecodes.boolean_range.2
    unfold booleanSize at hhigh
    omega

theorem decodes_boolean {type : NodeType} (hlow : headerSize ≤ off)
    (hhigh : off + booleanSize ≤ data.length) (htype : typeAt data off = some type)
    (hboolean : type.isBoolean = true) (hvalue : Unfolds data (.vulnexpr (booleanAt data off).value))
    (hnext : Unfolds data (.boolean (booleanAt data off).next)) :
    ∃ tree, Decodes data (.boolean off) tree := by
  obtain ⟨value, hvalue⟩ := hvalue
  obtain hzero | ⟨next, hnext⟩ := hnext
  · exact ⟨_, .last hlow hhigh htype hboolean hzero hvalue⟩
  · exact ⟨_, .chain hlow hhigh htype hboolean hnext.boolean_pos hvalue hnext⟩

end Booleans

def LaysVulnexpr (fuel : ℕ) : Prop :=
  ∀ s s' val, Sound s → SketchM.vulnexpr fuel s = some (.ok val, s') →
    Lays Nowhere s s' ∧ Settled s' s.len fun data => Unfolds data (.vulnexpr val)

/-- The loop of `boolean` links the node before to the chain it lays down; from
the start it returns that chain. -/
def LaysBoolean (nodet : NodeType) (fuel : ℕ) : Prop :=
  ∀ bnode prev s s' val, Sound s → (prev ≠ 0 → Blank s (Range (prev + 4) 4)) →
    SketchM.boolean nodet fuel bnode prev s = some (.ok val, s') →
    Lays (Link prev) s s' ∧
      (prev ≠ 0 → Settled s' (prev + 4) fun data => Unfolds data (.boolean (read32 data (prev + 4)))) ∧
      (bnode ≠ 0 → val = bnode) ∧
      (bnode = 0 → Settled s' s.len fun data => Unfolds data (.vulnexpr val))

structure OperandLaid (nodet : NodeType) (prev curr : ℕ) (s s' : Sketch) : Prop
    extends Lays (Link prev) s s' where
  curr_eq : curr = s.len
  room : curr + booleanSize ≤ s'.len
  next : Blank s' (Range (curr + 4) 4)
  type : s'.Holds curr ([nodet.toCode].flatMap (littleEndian 4))
  value : ∃ val, s'.Holds (curr + 8) ([val].flatMap (littleEndian 4)) ∧
    Settled s' (curr + booleanSize) fun data => Unfolds data (.vulnexpr val)
  link : prev ≠ 0 → s'.Holds (prev + 4) ([curr].flatMap (littleEndian 4))

variable {nodet : NodeType}

theorem OperandLaid.unfolds (hboolean : nodet.isBoolean = true) {s s₁ s' : Sketch}
    (h : OperandLaid nodet prev curr s s₁) (hs : Sound s)
    (hlays : Lays (Link curr) s₁ s')
    (hrest : Settled s' (curr + 4) fun data => Unfolds data (.boolean (read32 data (curr + 4)))) :
    Settled s' curr fun data =>
      typeAt data curr = some nodet ∧ ∃ tree, Decodes data (.boolean curr) tree := by
  have hsize : booleanSize = 12 := rfl
  obtain ⟨val, hval, hvalue⟩ := h.value
  have hvalue := hvalue.grows hlays.toGrows fun i _ hi => by
    have hlast := hi.2.2
    omega
  intro s'' hs'' hgrows hlen
  have hunfolds := hvalue.mono (by omega) s'' hs'' hgrows hlen
  have hlt := hunfolds.vulnexpr_lt
  rw [Sketch.length_memory] at hlt
  have htype : typeAt s''.memory curr = some nodet := by
    have hcode := ((h.type.grows hlays.toGrows).grows hgrows).read32_single hs'' nodet.toCode_lt
    exact (congrArg NodeType.ofCode hcode).trans (NodeType.ofCode_toCode nodet)
  have hhigh : curr + booleanSize ≤ s''.memory.length := by
    rw [Sketch.length_memory]
    exact (h.room.trans hlays.len_le).trans hgrows.len_le
  refine ⟨htype, decodes_boolean (h.curr_eq ▸ hs.low) hhigh htype hboolean ?_ ?_⟩
  · have hread : (booleanAt s''.memory curr).value = val :=
      ((hval.grows hlays.toGrows).grows hgrows).read32_single hs'' (by omega)
    rw [hread]
    exact hunfolds
  · exact hrest.mono (Nat.le_add_right curr 4) s'' hs'' hgrows hlen

variable {fuel : ℕ}

theorem operand_laid {s s₁ s₂ s₃ s₄ s' : Sketch}
    (ih : LaysVulnexpr fuel) (hs : Sound s) (hprev : prev ≠ 0 → Blank s (Range (prev + 4) 4))
    (halloc : SketchM.alloc booleanSize s = some (.ok curr, s₁)) {val : ℕ}
    (hvalue : SketchM.vulnexpr fuel s₁ = some (.ok val, s₂))
    (htype : SketchM.storeWords curr [nodet.toCode] s₂ = some (.ok u, s₃))
    (hstore : SketchM.storeWords (curr + 8) [val] s₃ = some (.ok u, s₄))
    (hlink : SketchM.linkNext prev curr s₄ = some (.ok u, s')) :
    OperandLaid nodet prev curr s s' := by
  have hsize : booleanSize = 12 := rfl
  obtain ⟨hlays₁, rfl, hroom, hblank⟩ := lays_alloc hs halloc
  obtain ⟨hlays₂, hunfolds⟩ := ih _ _ _ hlays₁.sound hvalue
  have hblank := hblank.nowhere hlays₂
  obtain ⟨hlays₃, hholds⟩ := lays_storeWord hlays₂.sound
    (hblank.sub fun i hi => ⟨hi.1, by have := hi.2; omega⟩) htype
  obtain ⟨hlays₄, hholds'⟩ := lays_storeWord hlays₃.sound
    ((hblank.grows hlays₃.toGrows).sub fun i hi => by unfold Range at hi ⊢; omega) hstore
  have hlays := ((hlays₁.then hlays₂).fresh hlays₃ fun i hi => hi.1).fresh hlays₄ fun i hi =>
    (Nat.le_add_right _ 8).trans hi.1
  obtain ⟨hlays₅, hnext⟩ := lays_linkNext hlays₄.sound (fun h => (hprev h).nowhere hlays) hlink
  have hbefore : prev ≠ 0 → prev + 8 ≤ s.len := fun h => (hprev h).room (by decide)
  refine ⟨hlays.then hlays₅, rfl, ?_, ?_, ?_, ⟨val, hholds'.grows hlays₅.toGrows, ?_⟩, hnext⟩
  · have h₂ := hlays₂.len_le
    have h₃ := hlays₃.len_le
    have h₄ := hlays₄.len_le
    have h₅ := hlays₅.len_le
    omega
  · refine (((hblank.grows hlays₃.toGrows).grows hlays₄.toGrows).grows hlays₅.toGrows).sub ?_
    rintro i ⟨hlow, hhigh⟩
    refine ⟨⟨⟨⟨by omega, by omega⟩, ?_⟩, ?_⟩, ?_⟩
    · rintro ⟨-, hin⟩
      omega
    · rintro ⟨hin, -⟩
      omega
    · rintro ⟨hne, -, hin⟩
      have := hbefore hne
      omega
  · exact (hholds.grows hlays₄.toGrows).grows hlays₅.toGrows
  · have h₁ := hunfolds.mono hroom
    have h₂ := h₁.grows hlays₃.toGrows fun i _ hi => by have := hi.2; omega
    have h₃ := h₂.grows hlays₄.toGrows fun i _ hi => by have := hi.2; omega
    refine h₃.grows hlays₅.toGrows ?_
    rintro i _ ⟨hne, -, hin⟩
    have := hbefore hne
    omega

theorem laysBoolean_succ (hboolean : nodet.isBoolean = true)
    (ihvulnexpr : LaysVulnexpr fuel) (ihboolean : LaysBoolean nodet fuel) :
    LaysBoolean nodet (fuel + 1) := by
  intro bnode prev s s' val hs hprev h
  rw [SketchM.boolean] at h
  obtain ⟨tok, s₀, htok, h⟩ := bind_eq_ok h
  have hread := lays_readToken hs htok
  have hblank₀ : prev ≠ 0 → Blank s₀ (Range (prev + 4) 4) := fun hne => (hprev hne).nowhere hread
  split at h
  · obtain ⟨curr, s₁, halloc, h⟩ := bind_eq_ok h
    obtain ⟨value, s₂, hvalue, h⟩ := bind_eq_ok h
    obtain ⟨_, s₃, htype, h⟩ := bind_eq_ok h
    obtain ⟨_, s₄, hstore, h⟩ := bind_eq_ok h
    obtain ⟨_, s₅, hlink, h⟩ := bind_eq_ok h
    have hnode := operand_laid ihvulnexpr hread.sound hblank₀ halloc hvalue htype hstore hlink
    obtain ⟨hlays, hrest, hkeep, -⟩ := ihboolean _ curr s₅ s' val hnode.sound (fun _ => hnode.next) h
    have hcurr : s.len ≤ curr := hnode.curr_eq ▸ hread.len_le
    have hpos : curr ≠ 0 := by
      have hlow := hs.low
      unfold headerSize at hlow
      omega
    have hchain := hnode.unfolds hboolean hread.sound hlays (hrest hpos)
    have hbefore : prev ≠ 0 → prev + 8 ≤ s.len := fun hne => (hprev hne).room (by decide)
    refine ⟨?_, ?_, ?_, ?_⟩
    · apply (hread.then hnode.toLays).trans hlays
      rintro i hi (hin | ⟨-, hlow, -⟩)
      · exact hin
      · omega
    · intro hne s'' hs'' hgrows hlen
      obtain ⟨-, hdecodes⟩ := hchain.mono (by omega) s'' hs'' hgrows hlen
      have hrange := hdecodes.choose_spec.boolean_range.2
      rw [Sketch.length_memory] at hrange
      rw [(((hnode.link hne).grows hlays.toGrows).grows hgrows).read32_single hs'' (by omega)]
      exact .inr hdecodes
    · intro hne
      have hval := hkeep (by rwa [if_neg hne])
      rwa [if_neg hne] at hval
    · rintro rfl
      rw [if_pos rfl] at hkeep
      obtain rfl := hkeep hpos
      intro s'' hs'' hgrows hlen
      obtain ⟨htype, tree, htree⟩ := hchain.mono hcurr s'' hs'' hgrows hlen
      exact ⟨tree, .enter htype hboolean htree⟩
  · split at h
    · simp [Computation.bail] at h
    · split at h
      · simp [Computation.bail] at h
      · rename_i hlater
        obtain ⟨hval, rfl⟩ := Prod.mk.inj (Option.some.inj h)
        cases hval
        refine ⟨⟨hread.toGrows.mono fun _ _ => False.elim, hread.sound⟩, ?_, fun _ => rfl,
          fun hfirst => absurd hfirst hlater⟩
        intro hne s'' hs'' hgrows hlen
        -- the chain ends at the node before
        have hblank : Blank s'' (Range (prev + 4) 4) :=
          ((hblank₀ hne).grows hgrows).sub fun i hi => ⟨hi, not_lt.mpr hi.1⟩
        exact .inl hblank.read32

theorem laysVulnexpr_succ (ihvulnexpr : LaysVulnexpr fuel)
    (ihboolean : ∀ nodet : NodeType, nodet.isBoolean = true → LaysBoolean nodet fuel) :
    LaysVulnexpr (fuel + 1) := by
  intro s s' val hs h
  rw [SketchM.vulnexpr] at h
  obtain ⟨nodet, s₁, hsymbol, h⟩ := bind_eq_ok h
  have hread := lays_take hs hsymbol
  split at h
  · rename_i hcompar
    obtain ⟨hlays, hsettled⟩ := lays_compar hread.sound hcompar h
    exact ⟨hread.then hlays, hsettled.mono hread.len_le⟩
  · split at h
    · rename_i hboolean
      obtain ⟨hlays, -, -, hsettled⟩ :=
        ihboolean nodet hboolean 0 0 s₁ s' val hread.sound (fun hne => absurd rfl hne) h
      refine ⟨hread.then ⟨hlays.toGrows.mono fun i _ hi => hi.1 rfl, hlays.sound⟩, ?_⟩
      exact (hsettled rfl).mono hread.len_le
    · split at h
      · obtain ⟨tmp, s₂, hvtype, h⟩ := bind_eq_ok h
        cases hvtype
        obtain ⟨_, s₃, hset, h⟩ := bind_eq_ok h
        obtain ⟨_, s₄, hlparen, h⟩ := bind_eq_ok h
        obtain ⟨inner, s₅, hinner, h⟩ := bind_eq_ok h
        obtain ⟨_, s₆, hrparen, h⟩ := bind_eq_ok h
        obtain ⟨_, s₇, hreset, h⟩ := bind_eq_ok h
        obtain ⟨hval, rfl⟩ := Prod.mk.inj (Option.some.inj h)
        cases hval
        have hlays₃ := hread.then (lays_setVtype hread.sound hset)
        have hlays₄ := hlays₃.then (lays_take hlays₃.sound hlparen)
        obtain ⟨hlays₅, hsettled⟩ := ihvulnexpr _ _ _ hlays₄.sound hinner
        have hlays₆ := lays_take hlays₅.sound hrparen
        have hlays₇ := hlays₆.then (lays_setVtype hlays₆.sound hreset)
        refine ⟨(hlays₄.then hlays₅).then hlays₇, ?_⟩
        exact (hsettled.grows hlays₇.toGrows fun _ _ => False.elim).mono hlays₄.len_le
      · simp [Computation.bail] at h

theorem lays_vulnexpr_boolean (fuel : ℕ) : LaysVulnexpr fuel ∧
    ∀ nodet : NodeType, nodet.isBoolean = true → LaysBoolean nodet fuel := by
  induction fuel with
  | zero =>
    constructor
    · intro s s' val _ h
      rw [SketchM.vulnexpr] at h
      contradiction
    · intro nodet _ bnode prev s s' val _ _ h
      rw [SketchM.boolean] at h
      contradiction
  | succ fuel ih =>
    obtain ⟨ihvulnexpr, ihboolean⟩ := ih
    refine ⟨laysVulnexpr_succ ihvulnexpr ihboolean, fun nodet hboolean => ?_⟩
    exact laysBoolean_succ hboolean ihvulnexpr (ihboolean nodet hboolean)

theorem cvalueAt_of_holds (hs : Sound s) (hlen : s.len < 2 ^ 32) {off : ℕ} {cval : Cvalue}
    (htext : s.IsText cval)
    (h : s.Holds off ([cval.length, cval.offset].flatMap (littleEndian 4))) :
    cvalueAt s.memory off = cval := by
  have hwords : ∀ n ∈ [cval.length, cval.offset], n < 2 ^ 32 := by
    have hbounds := htext.bounds hlen
    simpa using hbounds
  have hread := @Sketch.Holds.read32 s hs off _ h hwords
  unfold cvalueAt
  rw [show read32 s.memory off = cval.length from hread 0 rfl,
    show read32 s.memory (off + 4) = cval.offset from hread 1 rfl]

structure CveOk (data : Bytes) (cve : ℕ) : Prop where
  type : typeAt data cve = some .cve
  id : StringOk data (cveAt data cve).id
  description : StringOk data (cveAt data cve).description
  vulnexpr : Unfolds data (.vulnexpr (cveAt data cve).vulnexpr)

structure CveLaid (cve : ℕ) (s s' : Sketch) : Prop extends Lays Nowhere s s' where
  cve_eq : cve = s.len
  room : cve + cveSize ≤ s'.len
  next : Blank s' (Range (cve + 4) 4)
  settled : Settled s' (cve + cveSize) fun data => CveOk data cve

variable {fixedPoint : Num → UInt32}

theorem lays_cve {cve : ℕ} (hs : Sound s)
    (h : SketchM.cve fixedPoint fuel s = some (.ok cve, s')) : CveLaid cve s s' := by
  have hsize : cveSize = 36 := rfl
  obtain ⟨cve, s₁, halloc, h⟩ := bind_eq_ok h
  obtain ⟨id, s₂, hid, h⟩ := bind_eq_ok h
  obtain ⟨_, s₃, hstoreId, h⟩ := bind_eq_ok h
  obtain ⟨cvss2, s₄, hcvss2, h⟩ := bind_eq_ok h
  obtain ⟨_, s₅, hstore2, h⟩ := bind_eq_ok h
  obtain ⟨cvss3, s₆, hcvss3, h⟩ := bind_eq_ok h
  obtain ⟨_, s₇, hstore3, h⟩ := bind_eq_ok h
  obtain ⟨_, s₈, hstoreType, h⟩ := bind_eq_ok h
  obtain ⟨description, s₉, hdescription, h⟩ := bind_eq_ok h
  obtain ⟨_, s₁₀, hstoreDescription, h⟩ := bind_eq_ok h
  obtain ⟨_, s₁₁, hparen, h⟩ := bind_eq_ok h
  obtain ⟨vexpr, s₁₂, hvexpr, h⟩ := bind_eq_ok h
  obtain ⟨_, s₁₃, hstoreVexpr, h⟩ := bind_eq_ok h
  obtain ⟨hcve, rfl⟩ := Prod.mk.inj (Option.some.inj h)
  cases hcve
  obtain ⟨h₁, rfl, hroom⟩ := Building.alloc hs halloc
  obtain ⟨hlays₂, htextId⟩ := lays_loads h₁.sound hid
  obtain ⟨hlays₃, h₃, hholdsId⟩ := (h₁.next hlays₂).store
    (fun i hi => by simp [Range] at hi ⊢; omega) hstoreId
  have hlays₄ := lays_take h₃.sound hcvss2
  obtain ⟨hlays₅, h₅, -⟩ := (h₃.next hlays₄).store
    (fun i hi => by simp [Range] at hi ⊢; omega) hstore2
  have hlays₆ := lays_take h₅.sound hcvss3
  obtain ⟨hlays₇, h₇, -⟩ := (h₅.next hlays₆).store
    (fun i hi => by simp [Range] at hi ⊢; omega) hstore3
  obtain ⟨hlays₈, h₈, hholdsType⟩ := h₇.store
    (fun i hi => by simp [Range] at hi ⊢; omega) hstoreType
  obtain ⟨hlays₉, htextDescription⟩ := lays_loads h₈.sound hdescription
  obtain ⟨hlays₁₀, h₁₀, hholdsDescription⟩ := (h₈.next hlays₉).store
    (fun i hi => by simp [Range] at hi ⊢; omega) hstoreDescription
  have hlays₁₁ := lays_take h₁₀.sound hparen
  obtain ⟨hlays₁₂, hunfolds⟩ := (lays_vulnexpr_boolean fuel).1 _ _ _ hlays₁₁.sound hvexpr
  obtain ⟨hlays₁₃, h₁₃, hholdsVexpr⟩ := ((h₁₀.next hlays₁₁).next hlays₁₂).store
    (fun i hi => by simp [Range] at hi ⊢; omega) hstoreVexpr
  -- what each field is read as in the end
  have hafter₁₀ := (hlays₁₁.then hlays₁₂).toGrows.later hlays₁₃.toGrows
  have hafter₈ := (hlays₉.toGrows.later hlays₁₀.toGrows).later hafter₁₀
  have hafter₃ := (((hlays₄.toGrows.later hlays₅.toGrows).later hlays₆.toGrows).later
    hlays₇.toGrows).later (hlays₈.toGrows.later hafter₈)
  have hroom₁₀ : s.len + cveSize ≤ s₁₁.len := by
    have := ((((((((hlays₂.toGrows.later hlays₃.toGrows).later hlays₄.toGrows).later
      hlays₅.toGrows).later hlays₆.toGrows).later hlays₇.toGrows).later hlays₈.toGrows).later
      hlays₉.toGrows).later hlays₁₀.toGrows).later hlays₁₁.toGrows |>.len_le
    omega
  have hroom₁₃ := (hroom₁₀.trans hlays₁₂.len_le).trans hlays₁₃.len_le
  refine ⟨h₁₃.toLays, rfl, hroom₁₃, h₁₃.free.sub fun i hi => ?_, ?_⟩
  · simp [Range] at hi ⊢
    omega
  · intro s'' hs'' hgrows hlen
    have hvexpr := ((hunfolds.mono hroom₁₀).grows hlays₁₃.toGrows fun i _ hi => by
      have := hi.2
      simp at this
      omega) s'' hs'' hgrows hlen
    have hlt := hvexpr.vulnexpr_lt
    rw [Sketch.length_memory] at hlt
    have htextId := ((htextId.grows hlays₃.toGrows).grows hafter₃).grows hgrows
    have htextDescription := ((htextDescription.grows hlays₁₀.toGrows).grows hafter₁₀).grows hgrows
    have hreadId := cvalueAt_of_holds hs'' hlen htextId ((hholdsId.grows hafter₃).grows hgrows)
    have hreadDescription := cvalueAt_of_holds hs'' hlen htextDescription
      ((hholdsDescription.grows hafter₁₀).grows hgrows)
    have hreadType := ((hholdsType.grows hafter₈).grows hgrows).read32_single hs''
      NodeType.cve.toCode_lt
    have hreadVexpr := (hholdsVexpr.grows hgrows).read32_single hs'' (by omega)
    refine ⟨congrArg NodeType.ofCode hreadType, ?_, ?_, ?_⟩
    · change StringOk s''.memory (cvalueAt s''.memory (s.len + 16))
      rw [hreadId]
      exact htextId.stringOk hlen
    · change StringOk s''.memory (cvalueAt s''.memory (s.len + 24))
      rw [hreadDescription]
      exact htextDescription.stringOk hlen
    · change Unfolds s''.memory (.vulnexpr (read32 s''.memory (s.len + 32)))
      rw [hreadVexpr]
      exact hvexpr

theorem words_of_teof (h : SketchM.readToken s = some (.ok .teof, s')) : s.words = [] := by
  unfold SketchM.readToken at h
  split at h
  · assumption
  · rename_i word words hwords
    obtain ⟨htoken, -⟩ := Prod.mk.inj (Option.some.inj h)
    exact absurd (Except.ok.inj htoken) (by cases word <;> exact Token.noConfusion)

theorem CveOk.unfolds {data : Bytes} {cve : ℕ} (h : CveOk data cve) (hlow : headerSize ≤ cve)
    (hhigh : cve + cveSize ≤ data.length)
    (hnext : Unfolds data (.cve (read32 data (cve + 4)))) : Unfolds data (.cve cve) := by
  obtain ⟨tree, htree⟩ := h.vulnexpr
  obtain ⟨cves, hcves⟩ := hnext
  exact ⟨_, .cons hlow hhigh h.type h.id h.description htree hcves⟩

theorem lays_parseLoop (fixedPoint : Num → UInt32) (fuel : ℕ) : ∀ prev s s' u, Sound s →
    (prev ≠ 0 → Blank s (Range (prev + 4) 4)) →
    SketchM.parseLoop fixedPoint fuel prev s = some (.ok u, s') →
    Lays (Link prev) s s' ∧
      (prev ≠ 0 → Settled s' (prev + 4) fun data => Unfolds data (.cve (read32 data (prev + 4)))) ∧
      (s.words ≠ [] → Settled s' s.len fun data => Unfolds data (.cve s.len)) := by
  induction fuel with
  | zero =>
    intro prev s s' u _ _ h
    contradiction
  | succ fuel ih =>
    intro prev s s' u hs hprev h
    have hsize : cveSize = 36 := rfl
    rw [SketchM.parseLoop] at h
    obtain ⟨tok, s₀, htok, h⟩ := bind_eq_ok h
    have hread := lays_readToken hs htok
    split at h
    · rename_i heof
      subst heof
      cases h
      refine ⟨⟨hread.toGrows.mono fun _ _ => False.elim, hread.sound⟩, ?_, ?_⟩
      · intro hne s'' hs'' hgrows hlen
        have hblank : Blank s'' (Range (prev + 4) 4) :=
          (((hprev hne).nowhere hread).grows hgrows).sub fun i hi => ⟨hi, not_lt.mpr hi.1⟩
        rw [hblank.read32]
        exact ⟨[], .nil⟩
      · exact fun hwords => absurd (words_of_teof htok) hwords
    · split at h
      · simp [Computation.bail] at h
      · obtain ⟨nodet, s₁, hsymbol, h⟩ := bind_eq_ok h
        split at h
        · simp [Computation.bail] at h
        · obtain ⟨curr, s₂, hcve, h⟩ := bind_eq_ok h
          obtain ⟨_, s₃, hparen, h⟩ := bind_eq_ok h
          obtain ⟨_, s₄, hlink, h⟩ := bind_eq_ok h
          have hread₁ := hread.then (lays_take hread.sound hsymbol)
          have hlaid := lays_cve hread₁.sound hcve
          have hlays₃ := hlaid.toLays.then (lays_take hlaid.sound hparen)
          obtain ⟨hlays₄, hholds⟩ := lays_linkNext hlays₃.sound
            (fun hne => (hprev hne).nowhere (hread₁.then hlays₃)) hlink
          have hcurr : curr = s.len :=
            hlaid.cve_eq.trans ((len_take hsymbol).trans (len_readToken htok))
          have hpos : curr ≠ 0 := by
            have hlow := hs.low
            unfold headerSize at hlow
            omega
          have hbefore : prev ≠ 0 → prev + 8 ≤ s.len := fun hne => (hprev hne).room (by decide)
          have hnext : Blank s₄ (Range (curr + 4) 4) := by
            refine ((hlaid.next.nowhere (lays_take hlaid.sound hparen)).grows hlays₄.toGrows).sub ?_
            rintro i ⟨hlow, hhigh⟩
            refine ⟨⟨hlow, hhigh⟩, ?_⟩
            rintro ⟨hne, -, hin⟩
            have hbelow := hbefore hne
            omega
          obtain ⟨hlays, hrest, -⟩ := ih curr s₄ s' u hlays₄.sound (fun _ => hnext) h
          have hnode : Settled s' (curr + cveSize) fun data => CveOk data curr := by
            refine ((hlaid.settled.grows (lays_take hlaid.sound hparen).toGrows
              fun _ _ => False.elim).grows hlays₄.toGrows ?_).grows hlays.toGrows ?_
            · rintro i _ ⟨hne, -, hin⟩
              have hbelow := hbefore hne
              omega
            · rintro i _ ⟨-, -, hin⟩
              omega
          have hroom := ((hlaid.room.trans (lays_take hlaid.sound hparen).len_le).trans
            hlays₄.len_le).trans hlays.len_le
          have hchain : Settled s' curr fun data => Unfolds data (.cve curr) := by
            intro s'' hs'' hgrows hlen
            apply (hnode.mono (Nat.le_add_right curr cveSize) s'' hs'' hgrows hlen).unfolds
            · exact hcurr ▸ hs.low
            · rw [Sketch.length_memory]
              exact hroom.trans hgrows.len_le
            · exact (hrest hpos).mono (Nat.le_add_right curr 4) s'' hs'' hgrows hlen
          refine ⟨?_, ?_, fun _ => hcurr ▸ hchain⟩
          · apply ((hread₁.then hlays₃).then hlays₄).trans hlays
            rintro i hi (hin | ⟨-, hlow, -⟩)
            · exact hin
            · omega
          · intro hne s'' hs'' hgrows hlen
            have hlong := (hroom.trans hgrows.len_le).trans_lt hlen
            rw [((hholds hne).grows (hlays.toGrows.later hgrows)).read32_single hs'' (by omega)]
            exact hchain.mono (by omega) s'' hs'' hgrows hlen

theorem readTokenLoop_teof (r : Reader) (input : Bytes) :
    (readTokenLoop r input).1 = .teof ↔ ∀ byte ∈ input, isBlank byte = true := by
  induction input with
  | nil => simp [readTokenLoop]
  | cons ch rest ih =>
    rw [readTokenLoop]
    by_cases hblank : isBlank ch = true
    · rw [if_pos hblank, ih]
      simp [hblank]
    · have hword : ¬ ∀ byte ∈ ch :: rest, isBlank byte = true :=
        fun h => hblank (h ch List.mem_cons_self)
      rw [if_neg hblank]
      refine iff_of_false ?_ hword
      repeat' split
      · exact Token.noConfusion
      · exact Token.noConfusion
      · exact readNumber_ne_eof _ ch
      · exact readStringLoop_ne_eof rest []
      · exact readSymbolLoop_ne_eof (ch :: rest) []

theorem textWords_eq_nil_iff (input : Bytes) :
    textWords input = [] ↔ ∀ byte ∈ input, isBlank byte = true := by
  rw [← readTokenLoop_teof (vulnspecReaderInit input)]
  change _ ↔ (vulnspecReadToken (vulnspecReaderInit input)).1 = .teof
  have hdelivers := delivers_textWords input
  constructor
  · intro hwords
    rw [hwords] at hdelivers
    obtain ⟨r, hread, -⟩ := hdelivers.read_nil
    rw [hread]
  · intro hread
    obtain ⟨r, hread⟩ : ∃ r, vulnspecReadToken (vulnspecReaderInit input) = (.teof, r) :=
      ⟨_, Prod.ext hread rfl⟩
    exact hdelivers.unique (.eof hread)

theorem sound_emptySketch (words : List Word) : Sound (emptySketch words) := by
  have hwritten := written_cons { emptySketch words with writes := [] } 0 header
  refine ⟨le_rfl, ?_, ?_, nofun⟩
  · intro i hi
    refine (hwritten i).trans (if_neg ?_)
    rintro ⟨-, hin⟩
    rw [Nat.zero_add] at hin
    exact absurd hi (not_le.mpr hin)
  · intro k hk
    refine (hwritten (0 + k)).trans ((if_pos ⟨Nat.zero_le _, by omega⟩).trans ?_)
    simp

theorem memory_emptySketch (words : List Word) : (emptySketch words).memory = header := by
  have hs := sound_emptySketch words
  apply eq_of_byteAt (Sketch.length_memory _)
  intro i hi
  have hbyte := hs.header.byteAt_memory hs hi
  rwa [Nat.zero_add] at hbyte

theorem vulnspecParse_memory {fresh p : Parser} {input : Bytes}
    (hinit : vulnspecParserInit = some fresh)
    (hparse : vulnspecParse fixedPoint fresh input fuel = some (.ok (), p)) :
    ∃ s, sketchParse fixedPoint (textWords input) ((textWords input).length + 1) =
      some (.ok (), s) ∧ vulnspecParserData p = s.memory := by
  obtain ⟨result, s, hsketch, -⟩ :=
    sketchParse_spec fixedPoint (textWords input) (Nat.lt_succ_self _)
  obtain ⟨p', hrun, hconforms⟩ := vulnspecParse_fresh hinit (delivers_textWords input) hsketch
  have hsame := (vulnspecParse_mono (Nat.le_max_left fuel _) hparse).symm.trans
    (vulnspecParse_mono (Nat.le_max_right fuel _) hrun)
  cases hsame
  refine ⟨s, hsketch, ?_⟩
  have hlength : (vulnspecParserData p).length = s.memory.length :=
    (Buf.length_contents _).trans (hconforms.len.trans (Sketch.length_memory s).symm)
  apply eq_of_byteAt hlength
  intro i hi
  rw [Sketch.length_memory] at hi
  have hbyte := byteAt_take p.progn.data p.progn.len i
  rw [if_pos (hconforms.len ▸ hi)] at hbyte
  rw [Sketch.byteAt_memory hi]
  refine hbyte.trans ((hconforms.bytes i).trans ?_)
  rfl

theorem sketchParse_unfolds {words : List Word}
    (hwords : words ≠ []) (h : sketchParse fixedPoint words fuel = some (.ok (), s))
    (hlen : s.len < 2 ^ 32) : hasHeader s.memory ∧ Unfolds s.memory (.cve headerSize) := by
  obtain ⟨hlays, -, hsettled⟩ := lays_parseLoop fixedPoint fuel 0 (emptySketch words) s ()
    (sound_emptySketch words) (fun hne => absurd rfl hne) h
  exact ⟨hlays.sound.hasHeader, (hsettled hwords).now hlays.sound hlen⟩

theorem vulnspecLoad_header (interp loaded : Interp) (fuel : ℕ) :
    vulnspecLoad interp header fuel ≠ some (.ok loaded) := by
  intro h
  obtain ⟨-, -, cves, hcves⟩ := (vulnspecLoad_ok_iff interp loaded header).mp ⟨fuel, h⟩
  exact absurd hcves.length_gt (by decide)

/-- A program that a fresh parser made of a text is loaded exactly when the
text is not blank. -/
theorem vulnspecParse_loads_iff (fixedPoint : Num → UInt32) (input : Bytes) (interp : Interp)
    {fresh p : Parser} {fuel : ℕ} (hinit : vulnspecParserInit = some fresh)
    (hparse : vulnspecParse fixedPoint fresh input fuel = some (.ok (), p))
    (hlen : (vulnspecParserData p).length < 2 ^ 32) :
    (∃ enough, ∀ fuel ≥ enough, vulnspecLoad interp (vulnspecParserData p) fuel =
      some (.ok { interp with data := vulnspecParserData p })) ↔
      ∃ byte ∈ input, isBlank byte = false := by
  obtain ⟨s, hsketch, hdata⟩ := vulnspecParse_memory hinit hparse
  rw [hdata, Sketch.length_memory] at hlen
  rw [hdata]
  have hblank : (∃ byte ∈ input, isBlank byte = false) ↔ textWords input ≠ [] := by
    rw [ne_eq, textWords_eq_nil_iff]
    simp
  rw [hblank]
  constructor
  · rintro ⟨enough, hload⟩ hwords
    have hheader : s.memory = header := by
      rw [hwords] at hsketch
      cases hsketch
      exact memory_emptySketch []
    rw [hheader] at hload
    exact vulnspecLoad_header interp _ enough (hload enough le_rfl)
  · intro hwords
    obtain ⟨hheader, cves, hcves⟩ := sketchParse_unfolds hwords hsketch hlen
    exact hcves.vulnspecLoad hheader interp

theorem vulnspecParse_loads_iff_sample : ∃ fresh p fuel, vulnspecParserInit = some fresh ∧
    vulnspecParse hundredths fresh (spelling sampleForm.lexemes) fuel = some (.ok (), p) ∧
    ∃ enough, ∀ fuel ≥ enough, vulnspecLoad vulnspecInit (vulnspecParserData p) fuel =
      some (.ok { vulnspecInit with data := vulnspecParserData p }) := by
  have hsize : programSize [sampleForm] < 2 ^ 32 := by decide
  have hspells : Spells ([sampleForm].flatMap CveForm.lexemes) (spelling sampleForm.lexemes) := by
    rw [List.flatMap_singleton]
    exact spells_spelling _
  obtain ⟨fresh, p, -, hinit, ⟨enough, hparse⟩, -, hlen, -⟩ :=
    vulnspecParse_spec hundredths hspells hsize
  have hlength : (vulnspecParserData p).length < 2 ^ 32 :=
    lt_of_eq_of_lt ((Buf.length_contents _).trans hlen) hsize
  exact ⟨fresh, p, enough, hinit, hparse enough le_rfl,
    (vulnspecParse_loads_iff hundredths _ vulnspecInit hinit (hparse enough le_rfl) hlength).mpr
      ⟨40, by decide, by decide⟩⟩

/-- The parser has nothing to say against an empty text. -/
theorem empty_text_not_loaded : ¬ ∀ (fixedPoint : Num → UInt32) (input : Bytes) (interp : Interp)
    (fresh p : Parser) (fuel : ℕ), vulnspecParserInit = some fresh →
    vulnspecParse fixedPoint fresh input fuel = some (.ok (), p) →
    (vulnspecParserData p).length < 2 ^ 32 →
    ∃ enough, ∀ fuel ≥ enough, vulnspecLoad interp (vulnspecParserData p) fuel =
      some (.ok { interp with data := vulnspecParserData p }) := by
  intro hloads
  obtain ⟨fresh, hinit⟩ := vulnspecParserInit_fresh
  have hdata : (fresh.progn.clear.adata header).contents = header := by simp
  obtain ⟨enough, hload⟩ := hloads hundredths [] vulnspecInit fresh _ 1 hinit rfl
    ((congrArg List.length hdata).trans_lt (by decide))
  have hheader := hload enough le_rfl
  unfold vulnspecParserData at hheader
  rw [hdata] at hheader
  exact vulnspecLoad_header vulnspecInit _ enough hheader

end Yans.Vulnspec
