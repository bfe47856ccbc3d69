import Yans.Vulnspec.Program

/-! What validation guarantees to evaluation. Every node that is reached lies
inside of the program, and so does every string whose last byte was checked.
For a string of length zero the checked byte is the one before the string, and
for one that ends past the first 4 GiB it is a byte somewhere in front of it. -/
namespace Yans.Vulnspec

open Library.Memory Util.Vaguever

/-- A string for which `vstr` checks a byte that is not part of it. -/
def Cvalue.Unchecked (cval : Cvalue) : Prop :=
  cval.length = 0 ∨ 2 ^ 32 < cval.offset + cval.length

instance (cval : Cvalue) : Decidable cval.Unchecked := inferInstanceAs (Decidable (_ ∨ _))

variable {data : Bytes}

theorem StringOk.terminated {cval : Cvalue} (h : StringOk data cval)
    (hchecked : ¬ cval.Unchecked) : Terminated data cval.offset := by
  obtain ⟨hlow, hhigh, hzero⟩ := h
  have hlength : 0 < cval.length ∧ cval.offset + cval.length ≤ 2 ^ 32 := by
    unfold Cvalue.Unchecked at hchecked
    omega
  have hlast : lastByte cval = cval.offset + cval.length - 1 := by
    unfold lastByte
    omega
  have hlt : cval.offset + cval.length - 1 < data.length := by omega
  refine ⟨cval.offset + cval.length - 1, by omega, ?_⟩
  rw [hlast, byteAt, List.getElem?_eq_getElem hlt, Option.getD_some] at hzero
  rw [List.getElem?_eq_getElem hlt, hzero]

variable {query : Query}

theorem ecomparNode_strings_ok {offset : ℕ} (h : ComparOk data offset) :
    ∀ cval ∈ (ecomparNode data query (comparAt data offset)).2, StringOk data cval := by
  obtain ⟨-, -, hvendprod, hversion⟩ := h
  unfold ecomparNode
  split
  · simpa using hvendprod
  · split
    · simpa using hvendprod
    · rename_i hvtype
      have hcval := hversion (by rw [hvtype]; decide)
      simpa using ⟨hvendprod, hcval⟩
    · simpa using hvendprod

theorem Decodes.strings_ok {place : Place} {tree : Tree}
    (h : Decodes data place tree) : ∀ cval ∈ tree.strings data query, StringOk data cval := by
  induction h with
  | compar _ _ hok => exact ecomparNode_strings_ok hok
  | enter _ _ _ ih => exact ih
  | last _ _ _ _ _ _ ih => exact ih
  | chain _ _ _ _ _ _ _ ihvalue ihnext =>
    intro cval hcval
    rw [Tree.strings] at hcval
    split at hcval
    · exact ihvalue cval hcval
    · obtain hcval | hcval := List.mem_append.mp hcval
      · exact ihvalue cval hcval
      · exact ihnext cval hcval

/-- The strings that are looked at when no callback ends the evaluation. -/
def visited (data : Bytes) (query : Query) : List (CveNode × Tree) → List Cvalue
  | [] => []
  | (cve, tree) :: rest =>
    tree.strings data query ++ (if tree.truth data query then [cve.id, cve.description] else []) ++
      visited data query rest

variable {cves : List (CveNode × Tree)}

theorem DecodesCves.visited_ok {offset : ℕ}
    (h : DecodesCves data offset cves) : ∀ cval ∈ visited data query cves, StringOk data cval := by
  induction h with
  | nil => simp [visited]
  | cons _ _ _ hid hdescription hdecodes _ ih =>
    intro cval hcval
    simp only [visited, List.mem_append] at hcval
    obtain (hcval | hcval) | hcval := hcval
    · exact hdecodes.strings_ok cval hcval
    · split at hcval
      · obtain rfl | rfl : cval = _ ∨ cval = _ := by simpa using hcval
        · exact hid
        · exact hdescription
      · cases hcval
    · exact ih cval hcval

theorem runCves_strings_subset
    {onMatch : Option (List CveMatch → CveMatch → ℤ)} (cves : List (CveNode × Tree)) :
    ∀ calls, (runCves data query onMatch cves calls).strings ⊆ visited data query cves := by
  induction cves with
  | nil => simp [runCves, visited]
  | cons node rest ih =>
    obtain ⟨cve, tree⟩ := node
    intro calls
    rw [visited]
    by_cases hskip : tree.truth data query = false ∨ onMatch = none
    · rw [runCves_skip hskip, List.append_assoc]
      have hright := List.subset_append_of_subset_right
        (if tree.truth data query then [cve.id, cve.description] else []) (ih calls)
      exact List.append_subset.mpr ⟨List.subset_append_left _ _,
        List.subset_append_of_subset_right _ hright⟩
    · rw [not_or, Bool.not_eq_false] at hskip
      obtain ⟨htruth, hsome⟩ := hskip
      obtain ⟨notify, rfl⟩ := Option.ne_none_iff_exists'.mp hsome
      rw [runCves_match htruth, htruth, if_pos rfl]
      split
      · exact List.subset_append_left _ _
      · exact List.append_subset.mpr ⟨List.subset_append_left _ _,
          List.subset_append_of_subset_right _ (ih _)⟩

def alwaysOne : List CveMatch → CveMatch → ℤ := fun _ _ => 1

theorem runCves_alwaysOne_strings (cves : List (CveNode × Tree)) :
    ∀ calls, (runCves data query (some alwaysOne) cves calls).strings =
      visited data query cves := by
  induction cves with
  | nil => exact fun _ => rfl
  | cons node rest ih =>
    obtain ⟨cve, tree⟩ := node
    intro calls
    cases htruth : tree.truth data query with
    | true => simp [runCves, visited, htruth, alwaysOne, ih]
    | false => simp [runCves, visited, htruth, ih]

def EvaluatesInBounds (interp : Interp) : Prop :=
  ∃ result, (∃ enough, ∀ fuel, enough ≤ fuel → vulnspecEval interp fuel = some result) ∧
    ∀ access ∈ result.reads, access.InBounds interp.data

variable {interp : Interp}

theorem evaluatesInBounds_iff (hquery : interp.params.query = some query)
    (h : DecodesCves interp.data headerSize cves) :
    EvaluatesInBounds interp ↔
      ∀ cval ∈ (runCves interp.data query interp.params.cveOnMatch cves []).strings,
        Terminated interp.data cval.offset := by
  obtain ⟨reads, hcovers, enough, henough⟩ := vulnspecEval_spec hquery h
  constructor
  · rintro ⟨result, ⟨enough', henough'⟩, hreads⟩
    have hsame := henough (max enough enough') (Nat.le_max_left _ _)
    rw [henough' _ (Nat.le_max_right _ _), Option.some_inj] at hsame
    rw [hsame] at hreads
    exact hcovers.mp hreads
  · intro hstrings
    exact ⟨_, ⟨enough, henough⟩, hcovers.mpr hstrings⟩

theorem evaluatesInBounds_of_no_query (hquery : interp.params.query = none)
    (h : DecodesCves interp.data headerSize cves) :
    EvaluatesInBounds interp := by
  refine ⟨⟨0, [], [.node headerSize cveSize]⟩, ⟨1, ?_⟩, ?_⟩
  · intro fuel hfuel
    obtain ⟨fuel, rfl⟩ : ∃ k, fuel = k + 1 := ⟨fuel - 1, by omega⟩
    exact vulnspecEval_of_no_query hquery h fuel
  · cases h with
    | cons _ hhigh => simpa [Access.InBounds] using hhigh

theorem terminated_of_evaluatesInBounds (hquery : interp.params.query = some query)
    (h : DecodesCves interp.data headerSize cves)
    (hbounds : EvaluatesInBounds (setCveOnMatch interp (some alwaysOne))) :
    ∀ cval ∈ visited interp.data query cves, Terminated interp.data cval.offset := by
  have hquery' : (setCveOnMatch interp (some alwaysOne)).params.query = some query := hquery
  have hstrings := (evaluatesInBounds_iff hquery' h).mp hbounds
  rw [← runCves_alwaysOne_strings cves []]
  exact hstrings

/-- The bytes that the evaluation of a loaded program reads are inside of it
for every callback, exactly when every unchecked string that is looked at has
a zero byte after it in the program. -/
theorem evaluation_in_bounds_iff {interp loaded : Interp} {data : Bytes}
    (hload : ∃ fuel, vulnspecLoad interp data fuel = some (.ok loaded)) :
    (∀ onMatch, EvaluatesInBounds (setCveOnMatch loaded onMatch)) ↔
      ∀ query cves, interp.params.query = some query → DecodesCves data headerSize cves →
        ∀ cval ∈ visited data query cves, cval.Unchecked → Terminated data cval.offset := by
  obtain ⟨hloaded, -, cves, hcves⟩ := (vulnspecLoad_ok_iff interp loaded data).mp hload
  subst hloaded
  constructor
  · intro hbounds query cves hquery hcves cval hcval _
    have hloaded : ({ interp with data := data } : Interp).params.query = some query := hquery
    exact terminated_of_evaluatesInBounds hloaded hcves (hbounds _) cval hcval
  · intro hunchecked onMatch
    have hparams : (setCveOnMatch { interp with data := data } onMatch).params.query =
        interp.params.query := rfl
    cases hquery : interp.params.query with
    | none => exact evaluatesInBounds_of_no_query (hparams.trans hquery) hcves
    | some query =>
      refine (evaluatesInBounds_iff (hparams.trans hquery) hcves).mpr ?_
      intro cval hcval
      have hvisited := runCves_strings_subset cves [] hcval
      by_cases hcheck : cval.Unchecked
      · exact hunchecked query cves hquery hcves cval hvisited hcheck
      · exact (hcves.visited_ok cval hvisited).terminated hcheck

/-- A program of one cve node with one comparison, whose vendprod has length
zero and is at the given offset. -/
def emptyVendprod (offset : ℕ) : Bytes :=
  header ++ ([1, 0, 0, 0, 1, 16, 1, 16, 44] ++
    [7, 0, offset, 0, 1, 0, 0, 0, 0]).flatMap (littleEndian 4)

def emptyVendprodCves (offset : ℕ) : List (CveNode × Tree) :=
  [(cveAt (emptyVendprod offset) 8, .compar (comparAt (emptyVendprod offset) 44))]

/-- The parameters `a` and `1`. -/
def sampleVendprod : CString := ⟨[97], by simp⟩

def sampleVersion : CString := ⟨[49], by simp⟩

def sampleInterp : Interp :=
  setCveVersion (setCveVendprod vulnspecInit (some sampleVendprod)) sampleVersion

def sampleQuery : Query := ⟨[97], [49], vagueverInit [49]⟩

theorem sampleInterp_query : sampleInterp.params.query = some sampleQuery := rfl

/-- The vendprod is empty and in front of a zero byte. -/
theorem evaluation_in_bounds_iff_run :
    (∃ fuel, vulnspecLoad sampleInterp (emptyVendprod 17) fuel =
        some (.ok ⟨sampleInterp.params, emptyVendprod 17⟩)) ∧
      ∀ onMatch,
        EvaluatesInBounds (setCveOnMatch ⟨sampleInterp.params, emptyVendprod 17⟩ onMatch) := by
  have hcves : DecodesCves (emptyVendprod 17) headerSize (emptyVendprodCves 17) := by
    refine .cons (by decide) (by decide) (by decide) (by decide) (by decide) ?_ .nil
    exact @Decodes.compar _ _ .eq (by decide) rfl (by decide)
  have hload := (vulnspecLoad_ok_iff sampleInterp _ (emptyVendprod 17)).mpr
    ⟨rfl, by decide, _, hcves⟩
  refine ⟨hload, (evaluation_in_bounds_iff hload).mpr ?_⟩
  intro query cves hquery hcves' cval hcval _
  obtain rfl := Option.some.inj (sampleInterp_query.symm.trans hquery)
  obtain rfl := hcves.unique hcves'
  have hvisited : visited (emptyVendprod 17) sampleQuery (emptyVendprodCves 17) = [⟨0, 17⟩] := rfl
  rw [hvisited, List.mem_singleton] at hcval
  rw [hcval]
  exact ⟨17, le_rfl, by decide⟩

/-- A vendprod at the very end of the program: the byte before it is zero, and
the string itself is outside. -/
theorem evaluation_reads_past_end :
    ¬ ∀ interp loaded data, (∃ fuel, vulnspecLoad interp data fuel = some (.ok loaded)) →
      ∀ onMatch, EvaluatesInBounds (setCveOnMatch loaded onMatch) := by
  intro hbounds
  have hcves : DecodesCves (emptyVendprod 80) headerSize (emptyVendprodCves 80) := by
    refine .cons (by decide) (by decide) (by decide) (by decide) (by decide) ?_ .nil
    exact @Decodes.compar _ _ .eq (by decide) rfl (by decide)
  have hload := (vulnspecLoad_ok_iff sampleInterp _ (emptyVendprod 80)).mpr
    ⟨rfl, by decide, _, hcves⟩
  have hquery : (⟨sampleInterp.params, emptyVendprod 80⟩ : Interp).params.query =
    some sampleQuery := rfl
  obtain ⟨i, hi, hzero⟩ := terminated_of_evaluatesInBounds hquery hcves
    (hbounds _ _ _ hload (some alwaysOne)) ⟨0, 80⟩ (by decide)
  have hlength : (emptyVendprod 80).length = 80 := by decide
  rw [List.getElem?_eq_none (by rw [hlength]; exact hi)] at hzero
  cases hzero

end Yans.Vulnspec
