import Mathlib.Order.Interval.Set.Infinite
import Mathlib.Order.Interval.Finset.Nat
import Yans.Library.Walk
import Yans.Vulnspec.Format

/-! The validator of `lib/vulnspec/interp.c`, which `vulnspec_load` runs over a
program before anything is evaluated. It recurses over the offsets found in the
program; `none` is a validation that is not over after `fuel` nested calls and
loop iterations. A program is an object in memory, so the two pointer checks of
`check` never fail and are left out. -/
namespace Yans.Vulnspec

open Library.Memory Library.Walk

def check (v : Bytes) (offset len : ℕ) : Except Code Unit :=
  if offset < headerSize then .error .einvalidOffset
  else if offset + len > v.length then .error .einvalidOffset
  else .ok ()

/-- The last byte has to be zero. Its offset is computed in 32 bits, and for a
length of zero it is the byte before the string. -/
def vstr (v : Bytes) (cval : Cvalue) : Except Code Unit := do
  check v cval.offset cval.length
  if byteAt v ((cval.offset + cval.length + (2 ^ 32 - 1)) % 2 ^ 32) ≠ 0 then
    throw .einvalidNode

def vcompar (v : Bytes) (offset : ℕ) : Except Code Unit := do
  check v offset comparSize
  let node := comparAt v offset
  vstr v node.vendprod
  if node.vtype ≠ .vvague then
    vstr v node.cval

/-- An iteration of `vboolean` up to the recursion. -/
def vbooleanNode (v : Bytes) (offset : ℕ) : Except Code BooleanNode := do
  check v offset booleanSize
  let node := booleanAt v offset
  match node.type with
  | some .and | some .or => pure node
  | _ => throw .einvalidNode

/-- An iteration of `vcve` up to the recursion. -/
def vcveNode (v : Bytes) (offset : ℕ) : Except Code CveNode := do
  check v offset cveSize
  let cve := cveAt v offset
  if cve.type ≠ some .cve then
    throw .einvalidNode
  vstr v cve.id
  vstr v cve.description
  pure cve

mutual

def vvulnexpr (v : Bytes) : ℕ → ℕ → Outcome Code
  | 0, _ => none
  | fuel + 1, offset =>
    match check v offset typeSize, typeAt v offset with
    | .error err, _ => some (.error err)
    | .ok (), some type =>
      if type.isCompar then some (vcompar v offset)
      else if type.isBoolean then vboolean v fuel offset
      else some (.error .einvalidNode)
    | .ok (), none => some (.error .einvalidNode)

def vboolean (v : Bytes) : ℕ → ℕ → Outcome Code
  | 0, _ => none
  | fuel + 1, offset =>
    if offset > 0 then
      match vbooleanNode v offset with
      | .error err => some (.error err)
      | .ok node => (vvulnexpr v fuel node.value).andThen (vboolean v fuel node.next)
    else some (.ok ())

end

def vcve (v : Bytes) : ℕ → ℕ → Outcome Code
  | 0, _ => none
  | fuel + 1, offset =>
    if offset > 0 then
      match vcveNode v offset with
      | .error err => some (.error err)
      | .ok cve => (vvulnexpr v fuel cve.vulnexpr).andThen (vcve v fuel cve.next)
    else some (.ok ())

def vnode (v : Bytes) (fuel offset : ℕ) : Outcome Code :=
  match check v offset typeSize with
  | .error err => some (.error err)
  | .ok () =>
    if typeAt v offset = some .cve then vcve v fuel offset else some (.error .einvalidNode)

def hasHeader (data : Bytes) : Prop := headerSize ≤ data.length ∧ slice data 0 headerSize = header

instance (data : Bytes) : Decidable (hasHeader data) := inferInstanceAs (Decidable (_ ∧ _))

def validate (data : Bytes) (fuel : ℕ) : Outcome Code :=
  if hasHeader data then vnode data fuel headerSize else some (.error .eheader)

/-! The validator as a walk over the places of a program -/

/-- What the validator can be looking at: a call of `vvulnexpr`, or an
iteration of the loop of `vboolean` or `vcve`. -/
inductive Place where
  | vulnexpr (offset : ℕ)
  | boolean (offset : ℕ)
  | cve (offset : ℕ)
deriving DecidableEq

def Place.offset : Place → ℕ
  | .vulnexpr offset => offset
  | .boolean offset => offset
  | .cve offset => offset

def planVulnexpr (v : Bytes) (offset : ℕ) : Except Code (List Place) :=
  match check v offset typeSize, typeAt v offset with
  | .error err, _ => .error err
  | .ok (), some type =>
    if type.isCompar then (vcompar v offset).map fun () => []
    else if type.isBoolean then .ok [.boolean offset]
    else .error .einvalidNode
  | .ok (), none => .error .einvalidNode

def planBoolean (v : Bytes) (offset : ℕ) : Except Code (List Place) :=
  if offset > 0 then
    (vbooleanNode v offset).map fun node => [.vulnexpr node.value, .boolean node.next]
  else .ok []

def planCve (v : Bytes) (offset : ℕ) : Except Code (List Place) :=
  if offset > 0 then
    (vcveNode v offset).map fun cve => [.vulnexpr cve.vulnexpr, .cve cve.next]
  else .ok []

/-- The places that come next, once the place itself is in order. -/
def plan (v : Bytes) : Place → Except Code (List Place)
  | .vulnexpr offset => planVulnexpr v offset
  | .boolean offset => planBoolean v offset
  | .cve offset => planCve v offset

theorem andThen_ok {Err : Type} (outcome : Outcome Err) :
    outcome.andThen (some (.ok ())) = outcome := by
  obtain _ | ⟨_ | _⟩ := outcome <;> rfl

theorem vvulnexpr_vboolean_eq_walk (v : Bytes) (fuel : ℕ) : ∀ offset,
    vvulnexpr v fuel offset = walk (plan v) fuel (.vulnexpr offset) ∧
      vboolean v fuel offset = walk (plan v) fuel (.boolean offset) := by
  induction fuel with
  | zero => exact fun offset => ⟨rfl, rfl⟩
  | succ fuel ih =>
    intro offset
    constructor
    · rw [vvulnexpr, walk, plan, planVulnexpr]
      split
      · rfl
      · split
        · cases hcompar : vcompar v offset <;> rfl
        · split
          · rw [(ih offset).2]
            exact (andThen_ok _).symm
          · rfl
      · rfl
    · rw [vboolean, walk, plan, planBoolean]
      split
      · cases hnode : vbooleanNode v offset with
        | error err => rfl
        | ok node =>
          simp only [Except.map, walkAll, andThen_ok, (ih node.value).1, (ih node.next).2]
      · rfl

theorem vcve_eq_walk (v : Bytes) (fuel offset : ℕ) :
    vcve v fuel offset = walk (plan v) fuel (.cve offset) := by
  induction fuel generalizing offset with
  | zero => rfl
  | succ fuel ih =>
    rw [vcve, walk, plan, planCve]
    split
    · cases hnode : vcveNode v offset with
      | error err => rfl
      | ok cve =>
        simp only [Except.map, walkAll, andThen_ok, ih, (vvulnexpr_vboolean_eq_walk v fuel _).1]
    · rfl

section Accept

variable {v : Bytes} {offset : ℕ}

theorem bind_ok_iff {α β : Type} {first : Except Code α} {rest : α → Except Code β} {b : β} :
    first >>= rest = .ok b ↔ ∃ a, first = .ok a ∧ rest a = .ok b := by
  cases first with
  | error err => simp [bind, Except.bind]
  | ok a => simp [bind, Except.bind]

theorem map_ok_iff {α β : Type} {first : Except Code α} {f : α → β} {b : β} :
    first.map f = .ok b ↔ ∃ a, first = .ok a ∧ f a = b := by
  cases first with
  | error err => simp [Except.map]
  | ok a => simp [Except.map]

theorem unit_bind_ok_iff {β : Type} {first : Except Code Unit} {rest : Unit → Except Code β}
    {b : β} : first >>= rest = .ok b ↔ first = .ok () ∧ rest () = .ok b := by
  rw [bind_ok_iff]
  exact ⟨fun ⟨(), h⟩ => h, fun h => ⟨(), h⟩⟩

theorem guard_ok_iff {p : Prop} [Decidable p] {err : Code} {u : Unit} :
    (if p then throw err else pure () : Except Code Unit) = .ok u ↔ ¬ p := by
  split <;> simp_all [throw, throwThe, MonadExceptOf.throw, pure, Except.pure]

theorem check_ok_iff {len : ℕ} {u : Unit} :
    check v offset len = .ok u ↔ headerSize ≤ offset ∧ offset + len ≤ v.length := by
  unfold check
  split
  · simp
    omega
  · split
    · simp
      omega
    · simp
      omega

/-- The place of a string's last byte, computed in 32 bits. -/
def lastByte (cval : Cvalue) : ℕ := (cval.offset + cval.length + (2 ^ 32 - 1)) % 2 ^ 32

/-- What `vstr` establishes. -/
def StringOk (v : Bytes) (cval : Cvalue) : Prop :=
  headerSize ≤ cval.offset ∧ cval.offset + cval.length ≤ v.length ∧ byteAt v (lastByte cval) = 0

instance (v : Bytes) (cval : Cvalue) : Decidable (StringOk v cval) :=
  inferInstanceAs (Decidable (_ ∧ _ ∧ _))

theorem vstr_ok_iff {cval : Cvalue} {u : Unit} : vstr v cval = .ok u ↔ StringOk v cval := by
  unfold vstr StringOk lastByte
  rw [unit_bind_ok_iff, check_ok_iff, guard_ok_iff, not_not, and_assoc]

/-- What `vcompar` establishes. -/
def ComparOk (v : Bytes) (offset : ℕ) : Prop :=
  headerSize ≤ offset ∧ offset + comparSize ≤ v.length ∧ StringOk v (comparAt v offset).vendprod ∧
    ((comparAt v offset).vtype ≠ .vvague → StringOk v (comparAt v offset).cval)

instance (v : Bytes) (offset : ℕ) : Decidable (ComparOk v offset) :=
  inferInstanceAs (Decidable (_ ∧ _ ∧ _ ∧ (_ → _)))

theorem vcompar_ok_iff {u : Unit} : vcompar v offset = .ok u ↔ ComparOk v offset := by
  unfold vcompar ComparOk
  rw [unit_bind_ok_iff, check_ok_iff]
  rw [unit_bind_ok_iff, vstr_ok_iff, and_assoc]
  by_cases hvague : (comparAt v offset).vtype = .vvague
  · simp [hvague, pure, Except.pure]
  · simp [hvague, vstr_ok_iff]

theorem vbooleanNode_ok_iff {node : BooleanNode} : vbooleanNode v offset = .ok node ↔
    headerSize ≤ offset ∧ offset + booleanSize ≤ v.length ∧ booleanAt v offset = node ∧
      ∃ type, typeAt v offset = some type ∧ type.isBoolean = true := by
  unfold vbooleanNode
  rw [unit_bind_ok_iff, check_ok_iff, and_assoc]
  have htype : (booleanAt v offset).type = typeAt v offset := rfl
  simp only [htype]
  generalize typeAt v offset = type
  obtain _ | type := type
  · simp [throw, throwThe, MonadExceptOf.throw]
  · cases type <;> simp [throw, throwThe, MonadExceptOf.throw, pure, Except.pure,
      NodeType.isBoolean]

theorem vcveNode_ok_iff {cve : CveNode} : vcveNode v offset = .ok cve ↔
    headerSize ≤ offset ∧ offset + cveSize ≤ v.length ∧ cveAt v offset = cve ∧
      typeAt v offset = some .cve ∧ StringOk v (cveAt v offset).id ∧
      StringOk v (cveAt v offset).description := by
  unfold vcveNode
  have htype : (cveAt v offset).type = typeAt v offset := rfl
  rw [unit_bind_ok_iff, check_ok_iff, and_assoc]
  dsimp only
  rw [htype]
  by_cases hcve : typeAt v offset = some .cve
  · simp only [hcve, not_true_eq_false, ne_eq, if_false, unit_bind_ok_iff, vstr_ok_iff,
      true_and, pure, Except.pure, Except.ok.injEq]
    constructor
    · rintro ⟨hlow, hhigh, hid, hdescription, hnode⟩
      exact ⟨hlow, hhigh, hnode, hid, hdescription⟩
    · rintro ⟨hlow, hhigh, hnode, hid, hdescription⟩
      exact ⟨hlow, hhigh, hid, hdescription, hnode⟩
  · simp [hcve, throw, throwThe, MonadExceptOf.throw, bind, Except.bind]

variable {places : List Place}

theorem planVulnexpr_ok_iff : planVulnexpr v offset = .ok places ↔
    headerSize ≤ offset ∧ offset + typeSize ≤ v.length ∧ ∃ type, typeAt v offset = some type ∧
      (type.isCompar = true ∧ ComparOk v offset ∧ places = [] ∨
        type.isBoolean = true ∧ places = [.boolean offset]) := by
  unfold planVulnexpr
  cases hcheck : check v offset typeSize with
  | error err =>
    have hfail : ¬ (headerSize ≤ offset ∧ offset + typeSize ≤ v.length) := by
      rw [← @check_ok_iff _ _ _ (), hcheck]
      simp
    simp only [reduceCtorEq, false_iff, not_and, not_exists]
    exact fun hlow hhigh => absurd ⟨hlow, hhigh⟩ hfail
  | ok =>
    have hrange := check_ok_iff.mp hcheck
    cases htype : typeAt v offset with
    | none => simp
    | some type =>
      cases type <;> simp [NodeType.isCompar, NodeType.isBoolean, hrange, map_ok_iff,
        vcompar_ok_iff, @eq_comm _ [] places, @eq_comm _ [Place.boolean offset] places]

theorem planBoolean_ok_iff (hpos : 0 < offset) :
    planBoolean v offset = .ok places ↔
    headerSize ≤ offset ∧ offset + booleanSize ≤ v.length ∧
      (∃ type, typeAt v offset = some type ∧ type.isBoolean = true) ∧
      places = [.vulnexpr (booleanAt v offset).value, .boolean (booleanAt v offset).next] := by
  unfold planBoolean
  rw [if_pos hpos, map_ok_iff]
  constructor
  · rintro ⟨node, hnode, rfl⟩
    obtain ⟨hlow, hhigh, rfl, htype⟩ := vbooleanNode_ok_iff.mp hnode
    exact ⟨hlow, hhigh, htype, rfl⟩
  · rintro ⟨hlow, hhigh, htype, rfl⟩
    exact ⟨_, vbooleanNode_ok_iff.mpr ⟨hlow, hhigh, rfl, htype⟩, rfl⟩

theorem planCve_ok_iff (hpos : 0 < offset) :
    planCve v offset = .ok places ↔
    headerSize ≤ offset ∧ offset + cveSize ≤ v.length ∧ typeAt v offset = some .cve ∧
      StringOk v (cveAt v offset).id ∧ StringOk v (cveAt v offset).description ∧
      places = [.vulnexpr (cveAt v offset).vulnexpr, .cve (cveAt v offset).next] := by
  unfold planCve
  rw [if_pos hpos, map_ok_iff]
  constructor
  · rintro ⟨cve, hcve, rfl⟩
    obtain ⟨hlow, hhigh, rfl, htype, hid, hdescription⟩ := vcveNode_ok_iff.mp hcve
    exact ⟨hlow, hhigh, htype, hid, hdescription, rfl⟩
  · rintro ⟨hlow, hhigh, htype, hid, hdescription, rfl⟩
    exact ⟨_, vcveNode_ok_iff.mpr ⟨hlow, hhigh, rfl, htype, hid, hdescription⟩, rfl⟩

theorem plan_offset_lt {place next : Place}
    (hplace : place.offset < 2 ^ 32) (hplan : plan v place = .ok places) (hnext : next ∈ places) :
    next.offset < 2 ^ 32 := by
  cases place with
  | vulnexpr offset =>
    obtain ⟨-, -, type, -, ⟨-, -, rfl⟩ | ⟨-, rfl⟩⟩ := planVulnexpr_ok_iff.mp hplan
    · cases hnext
    · rw [List.mem_singleton.mp hnext]
      exact hplace
  | boolean offset =>
    obtain rfl | hpos := Nat.eq_zero_or_pos offset
    · cases hplan
      cases hnext
    · obtain ⟨-, -, -, rfl⟩ := (planBoolean_ok_iff hpos).mp hplan
      obtain rfl | rfl : next = _ ∨ next = _ := by simpa using hnext
      · exact read32_lt _ _
      · exact read32_lt _ _
  | cve offset =>
    obtain rfl | hpos := Nat.eq_zero_or_pos offset
    · cases hplan
      cases hnext
    · obtain ⟨-, -, -, -, -, rfl⟩ := (planCve_ok_iff hpos).mp hplan
      obtain rfl | rfl : next = _ ∨ next = _ := by simpa using hnext
      · exact read32_lt _ _
      · exact read32_lt _ _

end Accept

theorem finite_places : {place : Place | place.offset < 2 ^ 32}.Finite := by
  have hoffsets := Set.finite_lt_nat (2 ^ 32)
  refine ((hoffsets.image Place.vulnexpr).union ((hoffsets.image Place.boolean).union
    (hoffsets.image Place.cve))).subset ?_
  rintro (offset | offset | offset) hoffset
  · exact .inl ⟨offset, hoffset, rfl⟩
  · exact .inr (.inl ⟨offset, hoffset, rfl⟩)
  · exact .inr (.inr ⟨offset, hoffset, rfl⟩)

theorem cve_returns_iff (v : Bytes) :
    Returns (plan v) (.cve headerSize) ↔ ¬ RunsIntoCycle (plan v) (.cve headerSize) := by
  refine returns_iff finite_places ?_ (by decide)
  rintro place next hplace ⟨before, after, hplan, -⟩
  exact plan_offset_lt hplace hplan (List.mem_append_right _ List.mem_cons_self)

theorem cve_returns_of_refused {v : Bytes}
    (h : ¬ (check v headerSize typeSize = .ok () ∧ typeAt v headerSize = some .cve)) :
    Returns (plan v) (.cve headerSize) := by
  refine ⟨1, ?_⟩
  cases hplan : plan v (.cve headerSize) with
  | error err => simp [walk, hplan]
  | ok places =>
    obtain ⟨hlow, hhigh, htype, -⟩ := (planCve_ok_iff (by decide)).mp hplan
    refine absurd ⟨check_ok_iff.mpr ⟨hlow, ?_⟩, htype⟩ h
    exact le_trans (Nat.add_le_add_left (by decide) _) hhigh

theorem vnode_returns_iff (v : Bytes) :
    (∃ fuel, vnode v fuel headerSize ≠ none) ↔ Returns (plan v) (.cve headerSize) := by
  by_cases h : check v headerSize typeSize = .ok () ∧ typeAt v headerSize = some .cve
  · obtain ⟨hcheck, htype⟩ := h
    simp only [vnode, hcheck, htype, if_true, vcve_eq_walk, Returns]
  · refine ⟨fun _ => cve_returns_of_refused h, fun _ => ⟨0, ?_⟩⟩
    unfold vnode
    cases hcheck : check v headerSize typeSize with
    | error err => simp
    | ok => simp [show typeAt v headerSize ≠ some .cve from fun htype => h ⟨hcheck, htype⟩]

/-- Validation ends exactly when it does not run into a cycle of offsets: it
never notices that it is at a node for the second time. -/
theorem validate_returns_iff (data : Bytes) :
    (∃ fuel, validate data fuel ≠ none) ↔
      (hasHeader data → ¬ RunsIntoCycle (plan data) (.cve headerSize)) := by
  unfold validate
  by_cases hheader : hasHeader data
  · simp only [hheader, if_true, true_implies]
    rw [vnode_returns_iff, cve_returns_iff]
  · simp [hheader]

/-- A program of one cve node whose `next` is its own offset. -/
def selfLinked : Bytes :=
  header ++ ([1, 8, 0, 0, 1, 16, 1, 16, 44] ++ [7, 1, 16, 0, 1, 0, 0, 0, 0]).flatMap (littleEndian 4)

theorem validate_selfLinked_loops : ¬ ∀ data, ∃ fuel, validate data fuel ≠ none := by
  intro hreturns
  obtain ⟨fuel, hfuel⟩ := hreturns selfLinked
  have hexpr : Accepted (plan selfLinked) (.vulnexpr 44) := @Accepted.intro _ _ _ _ [] rfl (by simp)
  have hedge : Edge (plan selfLinked) (.cve headerSize) (.cve headerSize) :=
    ⟨[.vulnexpr 44], [], rfl, by simpa using hexpr⟩
  have hnode := (vnode_returns_iff selfLinked).mp ⟨fuel, hfuel⟩
  exact not_runsIntoCycle_of_returns hnode ⟨.cve headerSize, .refl, .single hedge⟩

end Yans.Vulnspec
