import Yans.Vulnspec.Bounds
import Yans.Vulnspec.Forms

/-! What the language means, and that a text means the same to the compiler and
the evaluator: the callback gets the forms whose expression is true. -/
namespace Yans.Vulnspec

open Library.Memory Library.Decimal Util Util.Vaguever Util.Nalphaver

def CompareOp.holds : CompareOp → ℤ → Bool
  | .lt, order => order < 0
  | .le, order => order ≤ 0
  | .eq, order => order = 0
  | .ge, order => order ≥ 0
  | .gt, order => order > 0

/-- How the version asked for compares to one of the text. -/
def compareVersions (nalpha : Bool) (version literal : CString) : ℤ :=
  if nalpha then nalphaverCmp version.bytes literal.bytes
  else vagueverCmp (vagueverInit version.bytes) (vagueverInit literal.bytes)

def BoolOp.combine : BoolOp → Bool → Bool → Bool
  | .and, left, right => left && right
  | .or, left, right => left || right

section Truth

variable (vendprod version : CString)

mutual

def Vexpr.truth (nalpha : Bool) : Vexpr → Bool
  | .compar op vend literal =>
    decide (vend = vendprod) && op.holds (compareVersions nalpha version literal)
  | .boolean op operands => operands.truth nalpha op
  | .nalpha expr => expr.truth true

def Operands.truth (nalpha : Bool) (op : BoolOp) : Operands → Bool
  | .one expr => expr.truth nalpha
  | .more expr rest => op.combine (expr.truth nalpha) (rest.truth nalpha op)

end

def CveForm.truth (form : CveForm) : Bool := form.expr.truth vendprod version false

end Truth

structure Image (data : Bytes) (strings : Strings) : Prop where
  string_ok : ∀ {cval text}, PointsTo strings cval text → StringOk data cval
  string_eq : ∀ {cval text}, PointsTo strings cval text → stringAt data cval.offset = text.bytes

theorem ParserOk.image {p : Parser} {strings : Strings} (ok : ParserOk p strings)
    (hlen : p.progn.len < 2 ^ 32) : Image (vulnspecParserData p) strings := by
  have hbyte : ∀ i, byteAt (vulnspecParserData p) i = byteAt p.progn.data i :=
    Buf.byteAt_contents ok.zeros
  have hlength : (vulnspecParserData p).length = p.progn.len := Buf.length_contents _
  constructor
  · rintro cval text ⟨val, hmem, rfl⟩
    have hstored := ok.stored text val hmem
    have hhigh := hstored.high
    have hlast : lastByte (stringCvalue text val) = val + text.bytes.length := by
      unfold lastByte stringCvalue
      dsimp only
      omega
    refine ⟨hstored.low, by rw [hlength]; exact hhigh, ?_⟩
    rw [hlast, hbyte, hstored.bytes _ le_rfl]
    exact byteAt_append_right (i := 0)
  · rintro cval text ⟨val, hmem, rfl⟩
    have hstored := ok.stored text val hmem
    have hzero : (text.bytes ++ [0]).length = text.bytes.length + 1 := by simp
    refine stringAt_of_slice text.no_zero ?_
    rw [← hzero]
    refine slice_eq_of_byteAt ?_ ?_
    · rw [hlength, hzero]
      exact hstored.high
    · intro i hi
      rw [hbyte]
      exact hstored.bytes i (by omega)

section Decode

variable {data : Bytes} {strings : Strings} {lo : ℕ} {vendprod version : CString}

def queryOf (vendprod version : CString) : Query :=
  ⟨vendprod.bytes, version.bytes, vagueverInit version.bytes⟩

theorem CompareOp.isCompar (op : CompareOp) : op.nodeType.isCompar = true := by
  cases op <;> rfl

theorem BoolOp.isBoolean (op : BoolOp) : op.nodeType.isBoolean = true := by
  cases op <;> rfl

theorem comparHolds_nodeType (op : CompareOp) (order : ℤ) :
    comparHolds (some op.nodeType) order = op.holds order := by
  cases op <;> rfl

theorem ComparFor.truth {nalpha : Bool} {op : CompareOp} {vend literal : CString}
    {node : ComparNode} (image : Image data strings)
    (h : ComparFor strings nalpha op vend literal node) :
    (ecomparNode data (queryOf vendprod version) node).1 =
      (Vexpr.compar op vend literal).truth vendprod version nalpha := by
  have hvend := image.string_eq h.vendprod_eq
  unfold ecomparNode queryOf Vexpr.truth compareVersions
  rw [hvend]
  by_cases hsame : vend = vendprod
  · subst hsame
    rw [if_neg (not_not.mpr rfl), h.vtype_eq]
    cases nalpha with
    | false =>
      simp [versionType, h.type_eq, comparHolds_nodeType, h.vague_eq rfl]
    | true =>
      simp [versionType, h.type_eq, comparHolds_nodeType, image.string_eq (h.cval_eq rfl)]
  · rw [if_pos fun heq => hsame (CString.ext heq)]
    simp [hsame]

theorem shortCircuits_combine (op : BoolOp) (left right : Bool) :
    (if shortCircuits op.nodeType left then left else right) = op.combine left right := by
  cases op <;> cases left <;> rfl

mutual

theorem Vexpr.CompiledAt.decodes (image : Image data strings) (hlo : headerSize ≤ lo) :
    ∀ {nalpha : Bool} {expr : Vexpr} {off : ℕ},
      expr.CompiledAt data strings lo data.length nalpha off →
      ∃ tree, Decodes data (.vulnexpr off) tree ∧
        tree.truth data (queryOf vendprod version) = expr.truth vendprod version nalpha
  | nalpha, .compar op vend literal, off, ⟨hrange, hnode⟩ => by
    have hok : ComparOk data off := by
      refine ⟨by omega, hrange.2, image.string_ok hnode.vendprod_eq, fun hvtype => ?_⟩
      rw [hnode.vtype_eq] at hvtype
      cases nalpha with
      | false => exact absurd rfl hvtype
      | true => exact image.string_ok (hnode.cval_eq rfl)
    exact ⟨_, .compar hnode.type_eq op.isCompar hok, hnode.truth image⟩
  | nalpha, .boolean op operands, off, h => by
    have htype : typeAt data off = some op.nodeType := by
      cases operands with
      | one expr => exact h.2.1
      | more expr rest => exact h.2.1
    obtain ⟨tree, htree, htruth⟩ := Operands.CompiledAt.decodes image hlo h
    exact ⟨tree, .enter htype op.isBoolean htree, htruth⟩
  | nalpha, .nalpha expr, off, h => by
    obtain ⟨tree, htree, htruth⟩ := @Vexpr.CompiledAt.decodes image hlo true expr off h
    exact ⟨tree, htree, htruth⟩

theorem Operands.CompiledAt.decodes (image : Image data strings) (hlo : headerSize ≤ lo) :
    ∀ {nalpha : Bool} {op : BoolOp} {operands : Operands} {off : ℕ},
      operands.CompiledAt data strings lo data.length nalpha op off →
      ∃ tree, Decodes data (.boolean off) tree ∧
        tree.truth data (queryOf vendprod version) = operands.truth vendprod version nalpha op
  | nalpha, op, .one expr, off, ⟨hrange, htype, hnext, hexpr⟩ => by
    obtain ⟨tree, htree, htruth⟩ := hexpr.decodes image hlo
    exact ⟨_, .last (by omega) hrange.2 htype op.isBoolean hnext htree, htruth⟩
  | nalpha, op, .more expr rest, off, ⟨hrange, htype, hexpr, hrest⟩ => by
    obtain ⟨tree, htree, htruth⟩ := hexpr.decodes image hlo
    obtain ⟨next, hdecodes, htruth'⟩ := hrest.decodes image hlo
    have hpos : 0 < read32 data (off + 4) := hdecodes.boolean_pos
    refine ⟨_, .chain (by omega) hrange.2 htype op.isBoolean hpos htree hdecodes, ?_⟩
    rw [Tree.truth, htruth, htruth', shortCircuits_combine]
    rfl

end

def formMatch (fixedPoint : Num → UInt32) (form : CveForm) : CveMatch where
  id := form.id.bytes
  cvss2Base := (fixedPoint form.cvss2.num).toNat
  cvss3Base := (fixedPoint form.cvss3.num).toNat
  desc := form.description.bytes

theorem CveFor.cveMatch_eq {fixedPoint : Num → UInt32} {hi off : ℕ} {form : CveForm}
    (image : Image data strings) (h : CveFor fixedPoint data strings hi form off) :
    cveMatch data (cveAt data off) = formMatch fixedPoint form := by
  have hid : stringAt data (cveAt data off).id.offset = form.id.bytes := image.string_eq h.id_eq
  have hdescription : stringAt data (cveAt data off).description.offset = form.description.bytes :=
    image.string_eq h.description_eq
  have hcvss2 : (cveAt data off).cvss2Base = _ := h.cvss2_eq
  have hcvss3 : (cveAt data off).cvss3Base = _ := h.cvss3_eq
  unfold cveMatch formMatch
  rw [hid, hdescription, hcvss2, hcvss3]

theorem CvesFor.decodes {fixedPoint : Num → UInt32} (image : Image data strings)
    {forms : List CveForm} : ∀ {off : ℕ},
    CvesFor fixedPoint data strings data.length forms off →
    ∃ cves, DecodesCves data off cves ∧ ∀ calls, ∃ cvals,
      runCves data (queryOf vendprod version) (some alwaysOne) cves calls =
        ⟨0, calls ++ (forms.filter (CveForm.truth vendprod version)).map (formMatch fixedPoint),
          cvals⟩ := by
  induction forms with
  | nil =>
    rintro off rfl
    exact ⟨[], .nil, fun calls => ⟨[], by simp [runCves]⟩⟩
  | cons form forms ih =>
    rintro off ⟨hlow, hfor, hforms⟩
    obtain ⟨tree, htree, htruth⟩ := @Vexpr.CompiledAt.decodes _ _ _ vendprod version image
      (hlow.trans (Nat.le_add_right off cveSize)) _ _ _ hfor.expr
    obtain ⟨cves, hcves, hruns⟩ := ih hforms
    have htype : typeAt data off = some .cve := by
      unfold typeAt
      rw [hfor.type_eq, NodeType.ofCode_toCode]
    refine ⟨_, .cons hlow hfor.room htype (image.string_ok hfor.id_eq)
      (image.string_ok hfor.description_eq) htree hcves, fun calls => ?_⟩
    have htruth : tree.truth data (queryOf vendprod version) = form.truth vendprod version := htruth
    cases hform : form.truth vendprod version with
    | false =>
      obtain ⟨cvals, hrun⟩ := hruns calls
      rw [runCves_skip (.inl (htruth.trans hform)), hrun, List.filter_cons_of_neg (by simp [hform])]
      exact ⟨_, rfl⟩
    | true =>
      obtain ⟨cvals, hrun⟩ := hruns (calls ++ [formMatch fixedPoint form])
      rw [runCves_match (htruth.trans hform), hfor.cveMatch_eq image,
        if_neg (by simp [alwaysOne]), hrun, List.filter_cons_of_pos hform, List.map_cons,
        List.append_assoc]
      exact ⟨_, rfl⟩

end Decode

theorem CvesFor.data {fixedPoint : Num → UInt32} {data data' : Bytes} {strings : Strings} {hi : ℕ}
    (hbytes : ∀ i, byteAt data' i = byteAt data i) {forms : List CveForm} : ∀ {off : ℕ},
    CvesFor fixedPoint data strings hi forms off → CvesFor fixedPoint data' strings hi forms off := by
  induction forms with
  | nil => exact fun h => h
  | cons form forms ih =>
    rintro off ⟨hlow, hfor, hforms⟩
    refine ⟨hlow, hfor.frame (fun i _ _ _ => hbytes i) (fun _ _ h => h) le_rfl, ih ?_⟩
    rw [show read32 data' (off + 4) = read32 data (off + 4) from readWord_congr fun i _ => hbytes _]
    exact hforms

/-- `7.5` -/
def sampleScore : Score :=
  ⟨[55], [53], by simp [IsDigit], by decide, by decide, by decide, by decide⟩

/-- `(cve "a" 7.5 7.5 "d" (^ (<= "p" "1.2") (nalpha (< "p" "2"))))` -/
def sampleForm : CveForm where
  id := sampleVendprod
  cvss2 := sampleScore
  cvss3 := sampleScore
  description := ⟨[100], by simp⟩
  expr := .boolean .and (.more (.compar .le ⟨[112], by simp⟩ ⟨[49, 46, 50], by simp⟩)
    (.one (.nalpha (.compar .lt ⟨[112], by simp⟩ ⟨[50], by simp⟩))))

/-- The conversion to hundredths, where the quotient is exact. -/
def hundredths : Num → UInt32
  | .dval ival fpdiv => UInt32.ofNat (ival * 100 / fpdiv).toNat
  | .ival _ => 0

end Yans.Vulnspec
