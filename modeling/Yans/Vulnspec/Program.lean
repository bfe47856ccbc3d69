import Yans.Vulnspec.Interp

/-! What a program means, without its offsets. An accepted program unfolds to a
list of cve nodes with a tree of comparisons each, and evaluation computes the
truth of these trees. A chain of boolean nodes may mix conjunction and
disjunction, although no compiled one does. -/
namespace Yans.Vulnspec

open Library.Memory Library.Walk

inductive Tree where
  | compar (node : ComparNode)
  | last (type : NodeType) (value : Tree)
  | chain (type : NodeType) (value next : Tree)

/-- A truth value that ends a chain at a node of this type. -/
def shortCircuits (type : NodeType) (ret : Bool) : Bool :=
  match type with
  | .and => !ret
  | .or => ret
  | _ => false

namespace Tree

def truth (data : Bytes) (query : Query) : Tree → Bool
  | compar node => (ecomparNode data query node).1
  | last _ value => value.truth data query
  | chain type value next =>
    if shortCircuits type (value.truth data query) then value.truth data query
    else next.truth data query

def strings (data : Bytes) (query : Query) : Tree → List Cvalue
  | compar node => (ecomparNode data query node).2
  | last _ value => value.strings data query
  | chain type value next =>
    if shortCircuits type (value.truth data query) then value.strings data query
    else value.strings data query ++ next.strings data query

end Tree

inductive Decodes (data : Bytes) : Place → Tree → Prop where
  | compar {offset : ℕ} {type : NodeType} (type_eq : typeAt data offset = some type)
      (isCompar : type.isCompar = true) (compar_ok : ComparOk data offset) :
      Decodes data (.vulnexpr offset) (.compar (comparAt data offset))
  | enter {offset : ℕ} {type : NodeType} {tree : Tree} (type_eq : typeAt data offset = some type)
      (isBoolean : type.isBoolean = true) (decodes : Decodes data (.boolean offset) tree) :
      Decodes data (.vulnexpr offset) tree
  | last {offset : ℕ} {type : NodeType} {value : Tree} (low : headerSize ≤ offset)
      (high : offset + booleanSize ≤ data.length) (type_eq : typeAt data offset = some type)
      (isBoolean : type.isBoolean = true) (next_eq : (booleanAt data offset).next = 0)
      (decodes_value : Decodes data (.vulnexpr (booleanAt data offset).value) value) :
      Decodes data (.boolean offset) (.last type value)
  | chain {offset : ℕ} {type : NodeType} {value next : Tree} (low : headerSize ≤ offset)
      (high : offset + booleanSize ≤ data.length) (type_eq : typeAt data offset = some type)
      (isBoolean : type.isBoolean = true) (next_pos : 0 < (booleanAt data offset).next)
      (decodes_value : Decodes data (.vulnexpr (booleanAt data offset).value) value)
      (decodes_next : Decodes data (.boolean (booleanAt data offset).next) next) :
      Decodes data (.boolean offset) (.chain type value next)

inductive DecodesCves (data : Bytes) : ℕ → List (CveNode × Tree) → Prop where
  | nil : DecodesCves data 0 []
  | cons {offset : ℕ} {tree : Tree} {rest : List (CveNode × Tree)} (low : headerSize ≤ offset)
      (high : offset + cveSize ≤ data.length) (type_eq : typeAt data offset = some .cve)
      (id_ok : StringOk data (cveAt data offset).id)
      (description_ok : StringOk data (cveAt data offset).description)
      (decodes : Decodes data (.vulnexpr (cveAt data offset).vulnexpr) tree)
      (decodes_rest : DecodesCves data (cveAt data offset).next rest) :
      DecodesCves data offset ((cveAt data offset, tree) :: rest)

variable {data : Bytes}

variable {offset : ℕ} {tree : Tree}

theorem Decodes.boolean_range (h : Decodes data (.boolean offset) tree) :
    headerSize ≤ offset ∧ offset + booleanSize ≤ data.length := by
  cases h with
  | last low high => exact ⟨low, high⟩
  | chain low high => exact ⟨low, high⟩

theorem Decodes.boolean_pos (h : Decodes data (.boolean offset) tree) : 0 < offset :=
  lt_of_lt_of_le (by decide) h.boolean_range.1

theorem isCompar_of_isBoolean {type : NodeType} (h : type.isBoolean = true) :
    type.isCompar = false := by
  cases type <;> simp [NodeType.isBoolean, NodeType.isCompar] at h ⊢

variable {place : Place}

theorem Decodes.unique (h : Decodes data place tree) :
    ∀ {tree' : Tree}, Decodes data place tree' → tree = tree' := by
  induction h with
  | compar htype hcompar _ =>
    intro tree' h'
    cases h' with
    | compar => rfl
    | enter htype' hboolean =>
      obtain rfl := Option.some.inj (htype.symm.trans htype')
      exact absurd hcompar (by simp [isCompar_of_isBoolean hboolean])
  | enter htype hboolean _ ih =>
    intro tree' h'
    cases h' with
    | compar htype' hcompar =>
      obtain rfl := Option.some.inj (htype.symm.trans htype')
      exact absurd hcompar (by simp [isCompar_of_isBoolean hboolean])
    | enter _ _ hdecodes => exact ih hdecodes
  | last _ _ htype _ hnext _ ih =>
    intro tree' h'
    cases h' with
    | last _ _ htype' _ _ hvalue =>
      obtain rfl := Option.some.inj (htype.symm.trans htype')
      rw [ih hvalue]
    | chain _ _ _ _ hpos => omega
  | chain _ _ htype _ hpos _ _ ihvalue ihnext =>
    intro tree' h'
    cases h' with
    | last _ _ _ _ hnext => omega
    | chain _ _ htype' _ _ hvalue hrest =>
      obtain rfl := Option.some.inj (htype.symm.trans htype')
      rw [ihvalue hvalue, ihnext hrest]

variable {cves : List (CveNode × Tree)}

theorem DecodesCves.unique (h : DecodesCves data offset cves) :
    ∀ {cves' : List (CveNode × Tree)}, DecodesCves data offset cves' → cves = cves' := by
  induction h with
  | nil =>
    intro cves' h'
    cases h' with
    | nil => rfl
    | cons hlow => exact absurd hlow (by decide)
  | cons hlow _ _ _ _ hdecodes _ ih =>
    intro cves' h'
    cases h' with
    | nil => exact absurd hlow (by decide)
    | cons _ _ _ _ _ hdecodes' hrest' => rw [hdecodes.unique hdecodes', ih hrest']

theorem accepted_boolean_zero : Accepted (plan data) (.boolean 0) :=
  @Accepted.intro _ _ _ _ [] rfl (by simp)

theorem accepted_pair {left right : Place} (hplan : plan data place = .ok [left, right])
    (hleft : Accepted (plan data) left) (hright : Accepted (plan data) right) :
    Accepted (plan data) place := by
  refine .intro hplan ?_
  intro next hnext
  obtain rfl | rfl : next = left ∨ next = right := by simpa using hnext
  · exact hleft
  · exact hright

theorem Decodes.accepted {place : Place} {tree : Tree} (h : Decodes data place tree) :
    Accepted (plan data) place := by
  induction h with
  | compar htype hcompar hok =>
    refine @Accepted.intro _ _ _ _ [] (planVulnexpr_ok_iff.mpr ⟨hok.1, ?_, _, htype, ?_⟩) (by simp)
    · exact (Nat.add_le_add_left (by decide) _).trans hok.2.1
    · exact .inl ⟨hcompar, hok, rfl⟩
  | @enter offset type tree htype hboolean hdecodes ih =>
    obtain ⟨hlow, hhigh⟩ := hdecodes.boolean_range
    refine @Accepted.intro _ _ _ _ [.boolean offset]
      (planVulnexpr_ok_iff.mpr ⟨hlow, ?_, _, htype, .inr ⟨hboolean, rfl⟩⟩) (by simpa using ih)
    exact (Nat.add_le_add_left (by decide) _).trans hhigh
  | last hlow hhigh htype hboolean hnext _ ih =>
    refine accepted_pair ((planBoolean_ok_iff (lt_of_lt_of_le (by decide) hlow)).mpr
      ⟨hlow, hhigh, ⟨_, htype, hboolean⟩, rfl⟩) ih ?_
    rw [hnext]
    exact accepted_boolean_zero
  | chain hlow hhigh htype hboolean _ _ _ ihvalue ihnext =>
    exact accepted_pair ((planBoolean_ok_iff (lt_of_lt_of_le (by decide) hlow)).mpr
      ⟨hlow, hhigh, ⟨_, htype, hboolean⟩, rfl⟩) ihvalue ihnext

theorem DecodesCves.accepted {offset : ℕ} {cves : List (CveNode × Tree)}
    (h : DecodesCves data offset cves) : Accepted (plan data) (.cve offset) := by
  induction h with
  | nil => exact @Accepted.intro _ _ _ _ [] rfl (by simp)
  | cons hlow hhigh htype hid hdescription hdecodes _ ih =>
    exact accepted_pair ((planCve_ok_iff (lt_of_lt_of_le (by decide) hlow)).mpr
      ⟨hlow, hhigh, htype, hid, hdescription, rfl⟩) hdecodes.accepted ih

def Unfolds (data : Bytes) : Place → Prop
  | .vulnexpr offset => ∃ tree, Decodes data (.vulnexpr offset) tree
  | .boolean offset => offset = 0 ∨ ∃ tree, Decodes data (.boolean offset) tree
  | .cve offset => ∃ cves, DecodesCves data offset cves

theorem unfolds_of_accepted (h : Accepted (plan data) place) :
    Unfolds data place := by
  induction h with
  | @intro place places hplan _ ih =>
    cases place with
    | vulnexpr offset =>
      obtain ⟨hlow, -, type, htype, ⟨hcompar, hok, -⟩ | ⟨hboolean, rfl⟩⟩ :=
        planVulnexpr_ok_iff.mp hplan
      · exact ⟨_, .compar htype hcompar hok⟩
      · obtain rfl | ⟨tree, htree⟩ := ih _ List.mem_cons_self
        · exact absurd hlow (by decide)
        · exact ⟨tree, .enter htype hboolean htree⟩
    | boolean offset =>
      obtain rfl | hpos := Nat.eq_zero_or_pos offset
      · exact .inl rfl
      · obtain ⟨hlow, hhigh, ⟨type, htype, hboolean⟩, rfl⟩ := (planBoolean_ok_iff hpos).mp hplan
        obtain ⟨value, hvalue⟩ := ih _ List.mem_cons_self
        right
        obtain hzero | ⟨next, hnext⟩ := ih _ (List.mem_cons_of_mem _ List.mem_cons_self)
        · exact ⟨_, .last hlow hhigh htype hboolean hzero hvalue⟩
        · exact ⟨_, .chain hlow hhigh htype hboolean hnext.boolean_pos hvalue hnext⟩
    | cve offset =>
      obtain rfl | hpos := Nat.eq_zero_or_pos offset
      · exact ⟨[], .nil⟩
      · obtain ⟨hlow, hhigh, htype, hid, hdescription, rfl⟩ := (planCve_ok_iff hpos).mp hplan
        obtain ⟨tree, htree⟩ := ih _ List.mem_cons_self
        obtain ⟨rest, hrest⟩ := ih _ (List.mem_cons_of_mem _ List.mem_cons_self)
        exact ⟨_, .cons hlow hhigh htype hid hdescription htree hrest⟩

theorem accepted_cve_iff :
    Accepted (plan data) (.cve offset) ↔ ∃ cves, DecodesCves data offset cves :=
  ⟨unfolds_of_accepted, fun ⟨_, h⟩ => h.accepted⟩

theorem DecodesCves.vnode_eq (h : DecodesCves data headerSize cves) (fuel : ℕ) :
    vnode data fuel headerSize = walk (plan data) fuel (.cve headerSize) := by
  cases h with
  | cons hlow hhigh htype =>
    have hcheck : check data headerSize typeSize = .ok () :=
      check_ok_iff.mpr ⟨hlow, (Nat.add_le_add_left (by decide) _).trans hhigh⟩
    simp only [vnode, hcheck, htype, if_true, vcve_eq_walk]

theorem validate_ok_iff (data : Bytes) : (∃ fuel, validate data fuel = some (.ok ())) ↔
    hasHeader data ∧ ∃ cves, DecodesCves data headerSize cves := by
  unfold validate
  by_cases hheader : hasHeader data
  · simp only [hheader, if_true, true_and]
    constructor
    · rintro ⟨fuel, hfuel⟩
      unfold vnode at hfuel
      split at hfuel
      · simp at hfuel
      · split at hfuel
        · rw [vcve_eq_walk] at hfuel
          exact accepted_cve_iff.mp (accepted_of_walk hfuel)
        · simp at hfuel
    · rintro ⟨cves, hcves⟩
      obtain ⟨fuel, hfuel⟩ := hcves.accepted.walk
      exact ⟨fuel, (hcves.vnode_eq fuel).trans hfuel⟩
  · simp [hheader]

theorem vulnspecLoad_ok_iff (interp loaded : Interp) (data : Bytes) :
    (∃ fuel, vulnspecLoad interp data fuel = some (.ok loaded)) ↔
      loaded = { interp with data := data } ∧ hasHeader data ∧
        ∃ cves, DecodesCves data headerSize cves := by
  rw [← validate_ok_iff]
  simp only [vulnspecLoad, Option.map_eq_some_iff, map_ok_iff]
  constructor
  · rintro ⟨fuel, result, hvalidate, ⟨⟩, rfl, hloaded⟩
    exact ⟨hloaded.symm, fuel, hvalidate⟩
  · rintro ⟨rfl, fuel, hvalidate⟩
    exact ⟨fuel, _, hvalidate, (), rfl, rfl⟩

theorem DecodesCves.vulnspecLoad
    (h : DecodesCves data headerSize cves) (hheader : hasHeader data) (interp : Interp) :
    ∃ enough, ∀ fuel, enough ≤ fuel →
      vulnspecLoad interp data fuel = some (.ok { interp with data := data }) := by
  obtain ⟨enough, henough⟩ := h.accepted.walk
  refine ⟨enough, fun fuel hfuel => ?_⟩
  unfold Vulnspec.vulnspecLoad validate
  rw [if_pos hheader, h.vnode_eq, walk_mono hfuel henough]
  rfl

theorem DecodesCves.length_gt
    (h : DecodesCves data headerSize cves) : headerSize + typeSize < data.length := by
  cases h with
  | cons _ hhigh => exact lt_of_lt_of_le (by decide) hhigh

variable {query : Query}

def Covers (data : Bytes) (reads : List Access) (strings : List Cvalue) : Prop :=
  (∀ access ∈ reads, access.InBounds data) ↔ ∀ cval ∈ strings, Terminated data cval.offset

variable {reads : List Access}

theorem Covers.node_cons {size : ℕ} {strings : List Cvalue}
    (h : Covers data reads strings) (hsize : offset + size ≤ data.length) :
    Covers data (.node offset size :: reads) strings := by
  unfold Covers at h ⊢
  simpa [Access.InBounds, hsize] using h

theorem Covers.append {reads' : List Access} {strings strings' : List Cvalue}
    (h : Covers data reads strings) (h' : Covers data reads' strings') :
    Covers data (reads ++ reads') (strings ++ strings') := by
  unfold Covers at h h' ⊢
  rw [List.forall_mem_append, List.forall_mem_append, h, h']

theorem covers_strings (data : Bytes) (strings : List Cvalue) :
    Covers data (strings.map fun cval => .string cval.offset) strings := by
  unfold Covers
  simp [Access.InBounds]

/-- With enough fuel the evaluation ends with this truth value after looking at
these strings. -/
def Evaluates (data : Bytes) (eval : ℕ → Eval) (ret : Bool) (strings : List Cvalue) : Prop :=
  ∃ reads, Covers data reads strings ∧
    ∃ enough, ∀ fuel, enough ≤ fuel → eval fuel = some (.ok ret, reads)

/-- The call of the evaluator for a place; `ret` is the operand before in a
chain. -/
def evalPlace (data : Bytes) (query : Query) (ret : Bool) : Place → ℕ → Eval
  | .vulnexpr offset, fuel => evulnexpr data query fuel offset
  | .boolean offset, fuel => eboolean data query fuel offset ret
  | .cve _, _ => none

variable {fuel : ℕ}

theorem eboolean_step {type : NodeType} {before ret : Bool} (hpos : 0 < offset) (htype : typeAt data offset = some type)
    (hboolean : type.isBoolean = true)
    (hvalue : evulnexpr data query fuel (booleanAt data offset).value = some (.ok ret, reads)) :
    eboolean data query (fuel + 1) offset before =
      if shortCircuits type ret then some (.ok ret, .node offset booleanSize :: reads)
      else (eboolean data query fuel (booleanAt data offset).next ret).after
        (.node offset booleanSize :: reads) := by
  have hnode : (booleanAt data offset).type = some type := htype
  rw [eboolean, if_pos hpos]
  simp only [hnode, hvalue]
  cases type <;> cases ret <;> simp [NodeType.isBoolean, shortCircuits] at hboolean ⊢

theorem Decodes.evaluates (h : Decodes data place tree)
    (query : Query) : ∀ before, Evaluates data (evalPlace data query before place) (tree.truth data query)
      (tree.strings data query) := by
  induction h with
  | @compar offset type htype hcompar hok =>
    intro before
    refine ⟨.node offset typeSize :: .node offset comparSize :: _,
      ((covers_strings data _).node_cons hok.2.1).node_cons
        ((Nat.add_le_add_left (by decide) _).trans hok.2.1), 1, ?_⟩
    intro fuel hfuel
    obtain ⟨fuel, rfl⟩ : ∃ k, fuel = k + 1 := ⟨fuel - 1, by omega⟩
    simp only [evalPlace, evulnexpr, htype, hcompar, if_true, ecompar, Eval.after, Option.map_some]
    rfl
  | @enter offset type tree htype hboolean hdecodes ih =>
    intro before
    obtain ⟨reads, hreads, enough, henough⟩ := ih false
    refine ⟨.node offset typeSize :: reads, hreads.node_cons
      ((Nat.add_le_add_left (by decide) _).trans hdecodes.boolean_range.2), enough + 1, ?_⟩
    intro fuel hfuel
    obtain ⟨fuel, rfl⟩ : ∃ k, fuel = k + 1 := ⟨fuel - 1, by omega⟩
    have hrun : eboolean data query fuel offset false = _ := henough fuel (by omega)
    simp [evalPlace, evulnexpr, htype, hboolean, isCompar_of_isBoolean hboolean, hrun, Eval.after]
  | @last offset type value hlow hhigh htype hboolean hnext hvalue ih =>
    intro before
    obtain ⟨reads, hreads, enough, henough⟩ := ih false
    refine ⟨.node offset booleanSize :: reads, hreads.node_cons hhigh, enough + 2, ?_⟩
    intro fuel hfuel
    obtain ⟨fuel, rfl⟩ : ∃ k, fuel = k + 2 := ⟨fuel - 2, by omega⟩
    have hpos : 0 < offset := lt_of_lt_of_le (by decide) hlow
    rw [evalPlace, eboolean_step hpos htype hboolean (henough (fuel + 1) (by omega)), hnext]
    split
    · rfl
    · simp [eboolean, Eval.after]
      rfl
  | @chain offset type value next hlow hhigh htype hboolean hnext hvalue hrest ihvalue ihnext =>
    intro before
    obtain ⟨reads, hreads, enough, henough⟩ := ihvalue false
    obtain ⟨reads', hreads', enough', henough'⟩ := ihnext (value.truth data query)
    have hpos : 0 < offset := lt_of_lt_of_le (by decide) hlow
    by_cases hshort : shortCircuits type (value.truth data query) = true
    · refine ⟨.node offset booleanSize :: reads, ?_, enough + 1, ?_⟩
      · simp only [Tree.strings, hshort, if_true]
        exact hreads.node_cons hhigh
      · intro fuel hfuel
        obtain ⟨fuel, rfl⟩ : ∃ k, fuel = k + 1 := ⟨fuel - 1, by omega⟩
        rw [evalPlace, eboolean_step hpos htype hboolean (henough fuel (by omega))]
        simp only [Tree.truth, hshort, if_true]
    · refine ⟨.node offset booleanSize :: reads ++ reads', ?_, max enough enough' + 1, ?_⟩
      · simp only [Tree.strings, hshort]
        exact (hreads.node_cons hhigh).append hreads'
      · intro fuel hfuel
        obtain ⟨fuel, rfl⟩ : ∃ k, fuel = k + 1 := ⟨fuel - 1, by omega⟩
        have hrun : eboolean data query fuel (booleanAt data offset).next _ = _ :=
          henough' fuel (by omega)
        rw [evalPlace, eboolean_step hpos htype hboolean (henough fuel (by omega)), hrun]
        simp only [Tree.truth, hshort]
        rfl

/-- The outcome of evaluating an unfolded program. -/
structure Run where
  status : ℤ
  calls : List CveMatch
  strings : List Cvalue

/-- Evaluation of an unfolded program after some calls: the callback gets the
matches in order and ends the evaluation with a result that is not positive. -/
def runCves (data : Bytes) (query : Query) (onMatch : Option (List CveMatch → CveMatch → ℤ)) :
    List (CveNode × Tree) → List CveMatch → Run
  | [], calls => ⟨0, calls, []⟩
  | (cve, tree) :: rest, calls =>
    match tree.truth data query, onMatch with
    | true, some notify =>
      let m := cveMatch data cve
      let strings := tree.strings data query ++ [cve.id, cve.description]
      if notify calls m ≤ 0 then ⟨bailStatus (notify calls m), calls ++ [m], strings⟩
      else
        let run := runCves data query onMatch rest (calls ++ [m])
        { run with strings := strings ++ run.strings }
    | _, _ =>
      let run := runCves data query onMatch rest calls
      { run with strings := tree.strings data query ++ run.strings }

theorem runCves_skip {onMatch : Option (List CveMatch → CveMatch → ℤ)}
    (h : tree.truth data query = false ∨ onMatch = none) (cve : CveNode)
    (rest : List (CveNode × Tree)) (calls : List CveMatch) :
    runCves data query onMatch ((cve, tree) :: rest) calls =
      { runCves data query onMatch rest calls with
        strings := tree.strings data query ++ (runCves data query onMatch rest calls).strings } := by
  rw [runCves]
  intro notify htruth hnotify
  simp [htruth, hnotify] at h

theorem runCves_match (h : tree.truth data query = true)
    (notify : List CveMatch → CveMatch → ℤ) (cve : CveNode) (rest : List (CveNode × Tree))
    (calls : List CveMatch) :
    let m := cveMatch data cve
    let strings := tree.strings data query ++ [cve.id, cve.description]
    let run := runCves data query (some notify) rest (calls ++ [m])
    runCves data query (some notify) ((cve, tree) :: rest) calls =
      if notify calls m ≤ 0 then ⟨bailStatus (notify calls m), calls ++ [m], strings⟩
      else { run with strings := strings ++ run.strings } := by
  simp [runCves, h]

/-- With enough fuel the evaluation of the nodes ends as `run` does. -/
def EvaluatesCves (data : Bytes) (eval : ℕ → Option Evaluated) (run : Run) : Prop :=
  ∃ reads, Covers data reads run.strings ∧
    ∃ enough, ∀ fuel, enough ≤ fuel → eval fuel = some ⟨run.status, run.calls, reads⟩

theorem EvaluatesCves.step {eval eval' : ℕ → Option Evaluated} {run : Run} {reads : List Access}
    {strings : List Cvalue} (h : EvaluatesCves data eval run)
    (hreads : Covers data reads strings) (enough : ℕ)
    (hstep : ∀ fuel, enough ≤ fuel → eval' (fuel + 1) = (eval fuel).map (Evaluated.after reads)) :
    EvaluatesCves data eval' { run with strings := strings ++ run.strings } := by
  obtain ⟨reads', hreads', enough', henough'⟩ := h
  refine ⟨reads ++ reads', hreads.append hreads', max enough enough' + 1, ?_⟩
  intro fuel hfuel
  obtain ⟨fuel, rfl⟩ : ∃ k, fuel = k + 1 := ⟨fuel - 1, by omega⟩
  rw [hstep fuel (by omega), henough' fuel (by omega)]
  rfl

variable {params : Params}

theorem enodes_skip {ret : Bool}
    {calls : List CveMatch} (hquery : params.query = some query) (hpos : 0 < offset)
    (htype : typeAt data offset = some .cve)
    (hexpr : evulnexpr data query fuel (cveAt data offset).vulnexpr = some (.ok ret, reads))
    (hskip : ret = false ∨ params.cveOnMatch = none) :
    enodes data params (fuel + 1) offset calls =
      (enodes data params fuel (cveAt data offset).next calls).map
        (Evaluated.after (.node offset cveSize :: reads)) := by
  have hnode : (cveAt data offset).type = some .cve := htype
  rw [enodes, if_pos hpos]
  simp only [hnode, hquery, hexpr, ne_eq, not_true_eq_false, if_false]
  obtain rfl | hnone := hskip
  · rfl
  · rw [hnone]
    cases ret <;> rfl

theorem enodes_match {notify : List CveMatch → CveMatch → ℤ} {calls : List CveMatch}
    (hquery : params.query = some query) (hpos : 0 < offset)
    (htype : typeAt data offset = some .cve)
    (hexpr : evulnexpr data query fuel (cveAt data offset).vulnexpr = some (.ok true, reads))
    (hnotify : params.cveOnMatch = some notify) :
    let m := cveMatch data (cveAt data offset)
    let reads := .node offset cveSize :: reads ++
      [.string (cveAt data offset).id.offset, .string (cveAt data offset).description.offset]
    enodes data params (fuel + 1) offset calls =
      if notify calls m ≤ 0 then some ⟨bailStatus (notify calls m), calls ++ [m], reads⟩
      else (enodes data params fuel (cveAt data offset).next (calls ++ [m])).map
        (Evaluated.after reads) := by
  have hnode : (cveAt data offset).type = some .cve := htype
  dsimp only
  rw [enodes, if_pos hpos]
  simp only [hnode, hquery, hexpr, hnotify, ne_eq, not_true_eq_false, if_false]
  rfl

theorem DecodesCves.evaluates (hquery : params.query = some query) (h : DecodesCves data offset cves) :
    ∀ calls, EvaluatesCves data (fun fuel => enodes data params fuel offset calls)
      (runCves data query params.cveOnMatch cves calls) := by
  induction h with
  | nil =>
    intro calls
    refine ⟨[], covers_strings data [], 1, ?_⟩
    intro fuel hfuel
    obtain ⟨fuel, rfl⟩ : ∃ k, fuel = k + 1 := ⟨fuel - 1, by omega⟩
    rfl
  | @cons offset tree rest hlow hhigh htype hid hdescription hdecodes hrest ih =>
    intro calls
    have hpos : 0 < offset := lt_of_lt_of_le (by decide) hlow
    obtain ⟨reads, hreads, enough, henough⟩ := hdecodes.evaluates query false
    have hnode : Covers data (.node offset cveSize :: reads) (tree.strings data query) :=
      hreads.node_cons hhigh
    have hstrings := hnode.append
      (covers_strings data [(cveAt data offset).id, (cveAt data offset).description])
    by_cases hskip : tree.truth data query = false ∨ params.cveOnMatch = none
    · rw [runCves_skip hskip]
      exact (ih calls).step hnode enough fun fuel hfuel =>
        enodes_skip hquery hpos htype (henough fuel hfuel) hskip
    · obtain ⟨htruth, notify, hnotify⟩ :
          tree.truth data query = true ∧ ∃ notify, params.cveOnMatch = some notify := by
        rw [not_or, Bool.not_eq_false] at hskip
        exact ⟨hskip.1, Option.ne_none_iff_exists'.mp hskip.2⟩
      rw [htruth] at henough
      rw [hnotify] at ih ⊢
      rw [runCves_match htruth]
      by_cases hstop : notify calls (cveMatch data (cveAt data offset)) ≤ 0
      · rw [if_pos hstop]
        refine ⟨_, hstrings, enough + 1, ?_⟩
        intro fuel hfuel
        obtain ⟨fuel, rfl⟩ : ∃ k, fuel = k + 1 := ⟨fuel - 1, by omega⟩
        have hrun := henough fuel (by omega)
        exact (enodes_match hquery hpos htype hrun hnotify).trans (if_pos hstop)
      · rw [if_neg hstop]
        refine (ih _).step hstrings enough fun fuel hfuel => ?_
        have hrun := henough fuel hfuel
        exact (enodes_match hquery hpos htype hrun hnotify).trans (if_neg hstop)

theorem vulnspecEval_eq_enodes {interp : Interp}
    (h : DecodesCves interp.data headerSize cves) (fuel : ℕ) :
    vulnspecEval interp fuel = enodes interp.data interp.params fuel headerSize [] :=
  if_neg (not_le.mpr h.length_gt)

theorem vulnspecEval_spec {interp : Interp} (hquery : interp.params.query = some query)
    {cves : List (CveNode × Tree)} (h : DecodesCves interp.data headerSize cves) :
    EvaluatesCves interp.data (vulnspecEval interp)
      (runCves interp.data query interp.params.cveOnMatch cves []) := by
  rw [funext fun fuel => vulnspecEval_eq_enodes h fuel]
  exact h.evaluates hquery []

theorem vulnspecEval_of_no_query {interp : Interp} (hquery : interp.params.query = none) (h : DecodesCves interp.data headerSize cves) (fuel : ℕ) :
    vulnspecEval interp (fuel + 1) = some ⟨0, [], [.node headerSize cveSize]⟩ := by
  rw [vulnspecEval_eq_enodes h]
  cases h with
  | cons _ _ htype =>
    have hnode : (cveAt interp.data headerSize).type = some .cve := htype
    rw [enodes, if_pos (by decide)]
    simp [hnode, hquery]

end Yans.Vulnspec
