import Yans.Vulnspec.Program

/-! When evaluation ends. The callback gets the matches in the order of the
program, and its first result that is not positive is the last one; evaluation
returns that result by a long jump, which cannot carry a zero. -/
namespace Yans.Vulnspec

open Library.Memory

/-- The nodes with a true expression, in the order of the program. -/
def found (data : Bytes) (query : Query) (cves : List (CveNode × Tree)) : List CveMatch :=
  (cves.filter fun cve => cve.2.truth data query).map fun cve => cveMatch data cve.1

/-- The matches of a program. Without a vendprod and a version nothing matches. -/
def matching (data : Bytes) (params : Params) (cves : List (CveNode × Tree)) : List CveMatch :=
  match params.query with
  | none => []
  | some query => found data query cves

/-- What a caller is to get after some calls: the result that ends the
evaluation, or zero, and the calls that are made. -/
def report (notify : List CveMatch → CveMatch → ℤ) : List CveMatch → List CveMatch →
    ℤ × List CveMatch
  | calls, [] => (0, calls)
  | calls, m :: rest =>
    if notify calls m ≤ 0 then (notify calls m, calls ++ [m]) else report notify (calls ++ [m]) rest

def StopsAtZero (notify : List CveMatch → CveMatch → ℤ) (calls matched : List CveMatch) : Prop :=
  ∃ i m, matched[i]? = some m ∧ notify (calls ++ matched.take i) m = 0 ∧
    ∀ j other, j < i → matched[j]? = some other → 0 < notify (calls ++ matched.take j) other

section Reports

variable {notify : List CveMatch → CveMatch → ℤ} {calls rest : List CveMatch} {m : CveMatch}

theorem stopsAtZero_nil : ¬ StopsAtZero notify calls [] := by
  rintro ⟨i, m, hm, -⟩
  simp at hm

theorem stopsAtZero_of_zero (h : notify calls m = 0) : StopsAtZero notify calls (m :: rest) := by
  refine ⟨0, m, rfl, by simpa using h, ?_⟩
  intro j other hj
  exact absurd hj (Nat.not_lt_zero j)

theorem not_stopsAtZero_of_neg (h : notify calls m < 0) :
    ¬ StopsAtZero notify calls (m :: rest) := by
  rintro ⟨i, other, hother, hzero, hbefore⟩
  cases i with
  | zero =>
    obtain rfl : m = other := by simpa using hother
    rw [List.take_zero, List.append_nil] at hzero
    omega
  | succ i =>
    have hpos := hbefore 0 m (Nat.succ_pos i) rfl
    rw [List.take_zero, List.append_nil] at hpos
    omega

theorem stopsAtZero_cons (h : 0 < notify calls m) :
    StopsAtZero notify calls (m :: rest) ↔ StopsAtZero notify (calls ++ [m]) rest := by
  have hshift : ∀ i, calls ++ (m :: rest).take (i + 1) = calls ++ [m] ++ rest.take i := by
    intro i
    simp
  constructor
  · rintro ⟨i, other, hother, hzero, hbefore⟩
    cases i with
    | zero =>
      obtain rfl : m = other := by simpa using hother
      rw [List.take_zero, List.append_nil] at hzero
      omega
    | succ i =>
      refine ⟨i, other, hother, hshift i ▸ hzero, ?_⟩
      intro j next hj hnext
      rw [← hshift]
      exact hbefore (j + 1) next (Nat.succ_lt_succ hj) hnext
  · rintro ⟨i, other, hother, hzero, hbefore⟩
    refine ⟨i + 1, other, hother, (hshift i).symm ▸ hzero, ?_⟩
    intro j next hj hnext
    cases j with
    | zero =>
      obtain rfl : m = next := by simpa using hnext
      rwa [List.take_zero, List.append_nil]
    | succ j =>
      rw [hshift]
      exact hbefore j next (Nat.lt_of_succ_lt_succ hj) hnext

end Reports

section Evaluation

variable {data : Bytes} {query : Query} {notify : List CveMatch → CveMatch → ℤ}

theorem found_match {tree : Tree} (h : tree.truth data query = true) (cve : CveNode)
    (rest : List (CveNode × Tree)) :
    found data query ((cve, tree) :: rest) = cveMatch data cve :: found data query rest := by
  simp [found, h]

theorem found_skip {tree : Tree} (h : tree.truth data query = false) (cve : CveNode)
    (rest : List (CveNode × Tree)) :
    found data query ((cve, tree) :: rest) = found data query rest := by
  simp [found, h]

theorem runCves_report (cves : List (CveNode × Tree)) : ∀ calls,
    (runCves data query (some notify) cves calls).calls =
        (report notify calls (found data query cves)).2 ∧
      ((runCves data query (some notify) cves calls).status =
          (report notify calls (found data query cves)).1 ↔
        ¬ StopsAtZero notify calls (found data query cves)) := by
  induction cves with
  | nil => exact fun calls => ⟨rfl, iff_of_true rfl stopsAtZero_nil⟩
  | cons head cves ih =>
    obtain ⟨cve, tree⟩ := head
    intro calls
    by_cases htruth : tree.truth data query = true
    · rw [runCves_match htruth, found_match htruth, report]
      obtain hneg | hzero | hpos := lt_trichotomy (notify calls (cveMatch data cve)) 0
      · rw [if_pos hneg.le, if_pos hneg.le]
        refine ⟨rfl, iff_of_true ?_ (not_stopsAtZero_of_neg hneg)⟩
        exact if_neg hneg.ne
      · rw [if_pos hzero.le, if_pos hzero.le]
        refine ⟨rfl, iff_of_false ?_ (not_not.mpr (stopsAtZero_of_zero hzero))⟩
        simp [bailStatus, hzero]
      · rw [if_neg (not_le.mpr hpos), if_neg (not_le.mpr hpos), stopsAtZero_cons hpos]
        exact ih _
    · rw [Bool.not_eq_true] at htruth
      rw [runCves_skip (.inl htruth), found_skip htruth]
      exact ih calls

theorem vulnspecEval_matching {interp : Interp} (hnotify : interp.params.cveOnMatch = some notify)
    {cves : List (CveNode × Tree)} (hcves : DecodesCves interp.data headerSize cves) :
    ∃ status reads enough, (∀ fuel ≥ enough, vulnspecEval interp fuel =
        some ⟨status, (report notify [] (matching interp.data interp.params cves)).2, reads⟩) ∧
      (status = (report notify [] (matching interp.data interp.params cves)).1 ↔
        ¬ StopsAtZero notify [] (matching interp.data interp.params cves)) := by
  unfold matching
  cases hquery : interp.params.query with
  | none =>
    refine ⟨0, [.node headerSize cveSize], 1, ?_, iff_of_true rfl stopsAtZero_nil⟩
    intro fuel hfuel
    obtain ⟨fuel, rfl⟩ : ∃ k, fuel = k + 1 := ⟨fuel - 1, by omega⟩
    exact vulnspecEval_of_no_query hquery hcves fuel
  | some query =>
    obtain ⟨reads, -, enough, henough⟩ := vulnspecEval_spec hquery hcves
    obtain ⟨hcalls, hstatus⟩ := @runCves_report interp.data query notify cves []
    rw [hnotify] at henough
    refine ⟨_, reads, enough, ?_, hstatus⟩
    intro fuel hfuel
    rw [henough fuel hfuel, hcalls]

/-- On a loaded program evaluation calls back for the matches up to the first
result that is not positive and returns that result, except for a zero. -/
theorem vulnspecEval_reports_iff {interp loaded : Interp} {data : Bytes} {fuel : ℕ}
    (hload : vulnspecLoad interp data fuel = some (.ok loaded)) (params : Params)
    (notify : List CveMatch → CveMatch → ℤ) :
    ∃ cves, DecodesCves data headerSize cves ∧
      ((∃ reads enough, ∀ fuel ≥ enough,
          vulnspecEval (setCveOnMatch { loaded with params := params } (some notify)) fuel =
            some ⟨(report notify [] (matching data params cves)).1,
              (report notify [] (matching data params cves)).2, reads⟩) ↔
        ¬ StopsAtZero notify [] (matching data params cves)) := by
  obtain ⟨rfl, -, cves, hcves⟩ := (vulnspecLoad_ok_iff _ _ _).mp ⟨fuel, hload⟩
  obtain ⟨status, reads, enough, heval, hstatus⟩ := @vulnspecEval_matching notify
    (setCveOnMatch ⟨params, data⟩ (some notify)) rfl cves hcves
  refine ⟨cves, hcves, ?_⟩
  constructor
  · rintro ⟨reads', enough', heval'⟩
    have hsame := (heval (max enough enough') (le_max_left _ _)).symm.trans
      (heval' (max enough enough') (le_max_right _ _))
    exact hstatus.mp (congrArg Evaluated.status (Option.some.inj hsame))
  · intro hstop
    exact ⟨reads, enough, (hstatus.mpr hstop) ▸ heval⟩

end Evaluation

/-- One cve node with an `=` comparison of `p` and version 1. -/
def matchingProgram : Bytes :=
  header ++ ([1, 0, 750, 750, 1, 81, 1, 81, 44] ++ [7, 2, 80, 0, 1, 1, 0, 0, 0]).flatMap
    (littleEndian 4) ++ [112, 0]

theorem no_zero_of_p : ∀ byte ∈ ([112] : Bytes), byte ≠ 0 := by simp

theorem no_zero_of_one : ∀ byte ∈ ([49] : Bytes), byte ≠ 0 := by simp

def matchingParams : Params :=
  (setCveVersion (setCveVendprod vulnspecInit (some ⟨[112], no_zero_of_p⟩))
    ⟨[49], no_zero_of_one⟩).params

theorem validate_matchingProgram : validate matchingProgram 2 = some (.ok ()) := by decide

theorem vulnspecLoad_matchingProgram : vulnspecLoad vulnspecInit matchingProgram 2 =
    some (.ok { vulnspecInit with data := matchingProgram }) := by
  unfold vulnspecLoad
  rw [validate_matchingProgram]
  rfl

theorem vulnspecEval_reports_iff_sample : ∃ cves,
    DecodesCves matchingProgram headerSize cves ∧ ∃ reads enough, ∀ fuel ≥ enough,
      vulnspecEval (setCveOnMatch ⟨matchingParams, matchingProgram⟩ (some fun _ _ => -2)) fuel =
        some ⟨(report (fun _ _ => -2) [] (matching matchingProgram matchingParams cves)).1,
          (report (fun _ _ => -2) [] (matching matchingProgram matchingParams cves)).2, reads⟩ := by
  obtain ⟨cves, hcves, hreports⟩ :=
    vulnspecEval_reports_iff vulnspecLoad_matchingProgram matchingParams fun _ _ => -2
  refine ⟨cves, hcves, hreports.mpr ?_⟩
  rintro ⟨i, m, -, hzero, -⟩
  have htwo : (-2 : ℤ) = 0 := hzero
  contradiction

theorem decodes_matchingProgram : DecodesCves matchingProgram headerSize
    [(cveAt matchingProgram 8, .compar (comparAt matchingProgram 44))] := by
  have htype : typeAt matchingProgram 44 = some .eq := by decide
  have hexpr : Decodes matchingProgram (.vulnexpr (cveAt matchingProgram 8).vulnexpr)
      (.compar (comparAt matchingProgram 44)) :=
    .compar htype rfl (by decide)
  exact .cons (by decide) (by decide) (by decide) (by decide) (by decide)
    hexpr .nil

theorem zero_returned_as_one : ¬ ∀ (interp loaded : Interp) (data : Bytes) (fuel : ℕ)
    (params : Params) (notify : List CveMatch → CveMatch → ℤ),
    vulnspecLoad interp data fuel = some (.ok loaded) → ∃ cves, DecodesCves data headerSize cves ∧
      ∃ reads enough, ∀ fuel ≥ enough,
        vulnspecEval (setCveOnMatch { loaded with params := params } (some notify)) fuel =
          some ⟨(report notify [] (matching data params cves)).1,
            (report notify [] (matching data params cves)).2, reads⟩ := by
  intro hreports
  obtain ⟨cves, hcves, reads, enough, heval⟩ := hreports vulnspecInit _ matchingProgram 2
    matchingParams (fun _ _ => 0) vulnspecLoad_matchingProgram
  obtain rfl := hcves.unique decodes_matchingProgram
  obtain ⟨status, reads', enough', heval', hstatus⟩ := @vulnspecEval_matching (fun _ _ => 0)
    (setCveOnMatch ⟨matchingParams, matchingProgram⟩ (some fun _ _ => 0)) rfl _ hcves
  have hsame := (heval' (max enough enough') (le_max_right _ _)).symm.trans
    (heval (max enough enough') (le_max_left _ _))
  refine hstatus.mp (congrArg Evaluated.status (Option.some.inj hsame)) ?_
  have hfound : matching matchingProgram matchingParams
      [(cveAt matchingProgram 8, .compar (comparAt matchingProgram 44))] =
      [⟨[], 750, 750, []⟩] := by decide
  change StopsAtZero _ [] (matching matchingProgram matchingParams _)
  rw [hfound]
  exact stopsAtZero_of_zero rfl

end Yans.Vulnspec

/-! `vulnspec_loadfile`: a program is mapped into memory, validated where it is
and kept under its address. The interpreter unmaps what it holds, not what the
call has mapped. -/
namespace Yans.Vulnspec

open Library.Memory

/-- The mappings of the process by their first address. -/
abbrev Mappings := ℕ → Option Bytes

/-- What `fstat` and `mmap` make of a file: the address of a new mapping, or
nothing, as for an empty file. -/
structure Mmap where
  place : Mappings → Bytes → Option ℕ
  unused : ∀ maps file addr, place maps file = some addr → maps addr = none

def mapfd (mmap : Mmap) (maps : Mappings) (file : Bytes) : Option ℕ × Mappings :=
  match mmap.place maps file with
  | none => (none, maps)
  | some addr => (some addr, Function.update maps addr (some file))

def munmap (maps : Mappings) (addr : ℕ) : Mappings := Function.update maps addr none

/-- `struct vulnspec_interp` with the pointer to its program. -/
structure FileInterp where
  params : Params
  data : ℕ
  len : ℕ

def vulnspecUnloadfile (maps : Mappings) (interp : FileInterp) : Mappings :=
  if interp.len > 0 then munmap maps interp.data else maps

/-- The result, the interpreter and the mappings afterwards. -/
def vulnspecLoadfile (mmap : Mmap) (maps : Mappings) (interp : FileInterp) (file : Bytes)
    (fuel : ℕ) : Option (Except Code Unit × FileInterp × Mappings) :=
  match mapfd mmap maps file with
  | (none, maps) => some (.error .eload, interp, maps)
  | (some data, maps) =>
    (validate file fuel).map fun
      | .ok () => (.ok (), { interp with data := data, len := file.length }, maps)
      | .error err => (.error err, interp, vulnspecUnloadfile maps interp)

/-- `vulnspec_eval` of what is mapped; `none` inside is an access to memory that
is not mapped any more. -/
def vulnspecEvalFile (maps : Mappings) (interp : FileInterp) (fuel : ℕ) :
    Option (Option Evaluated) :=
  if interp.len ≤ headerSize + typeSize then some (some ⟨0, [], []⟩)
  else
    match maps interp.data with
    | none => some none
    | some data => (vulnspecEval ⟨interp.params, data⟩ fuel).map some

structure Holding (maps : Mappings) (interp : FileInterp) (program : Bytes) : Prop where
  mapped : maps interp.data = some program
  len_eq : interp.len = program.length
  valid : ∃ fuel, validate program fuel = some (.ok ())

def Invalid (file : Bytes) : Prop := ∃ fuel err, validate file fuel = some (.error err)

structure Atomic (mmap : Mmap) (maps : Mappings) (interp : FileInterp) (program file : Bytes)
    (result : Except Code Unit × FileInterp × Mappings) : Prop where
  fails : ∃ err, result.1 = .error err
  mapped : result.2.2 interp.data = some program
  evals : ∀ fuel, vulnspecEvalFile result.2.2 result.2.1 fuel = vulnspecEvalFile maps interp fuel
  released : ∀ data, (mapfd mmap maps file).1 = some data → result.2.2 data = none

section Loading

variable {mmap : Mmap} {maps : Mappings} {interp : FileInterp} {program file : Bytes}

theorem length_of_valid (h : ∃ fuel, validate program fuel = some (.ok ())) :
    0 < program.length := by
  obtain ⟨-, cves, hcves⟩ := (validate_ok_iff program).mp h
  exact lt_of_le_of_lt (Nat.zero_le _) hcves.length_gt

theorem Holding.unload (h : Holding maps interp program) (others : Mappings) :
    vulnspecUnloadfile others interp interp.data = none := by
  have hlen : interp.len > 0 := h.len_eq ▸ length_of_valid h.valid
  unfold vulnspecUnloadfile munmap
  rw [if_pos hlen, Function.update_self]

theorem Holding.lost (h : Holding maps interp program) {data : ℕ}
    (hplace : mmap.place maps file = some data) {fuel : ℕ}
    {result : Except Code Unit × FileInterp × Mappings}
    (hload : vulnspecLoadfile mmap maps interp file fuel = some result)
    (hfails : ∃ err, result.1 = .error err) : result.2.2 interp.data = none := by
  obtain ⟨err, herr⟩ := hfails
  unfold vulnspecLoadfile mapfd at hload
  rw [hplace] at hload
  obtain ⟨outcome, -, rfl⟩ := Option.map_eq_some_iff.mp hload
  cases outcome with
  | ok u => simp at herr
  | error err' => exact h.unload _

/-- A call fails and leaves the interpreter its program exactly when the file
could not even be mapped. -/
theorem vulnspecLoadfile_atomic_iff (h : Holding maps interp program) :
    (∃ fuel result, vulnspecLoadfile mmap maps interp file fuel = some result ∧
      Atomic mmap maps interp program file result) ↔ mmap.place maps file = none := by
  constructor
  · rintro ⟨fuel, result, hload, hatomic⟩
    by_contra hplace
    obtain ⟨data, hplace⟩ := Option.ne_none_iff_exists'.mp hplace
    have hlost := h.lost hplace hload hatomic.fails
    rw [hatomic.mapped] at hlost
    contradiction
  · intro hplace
    have hmap : mapfd mmap maps file = (none, maps) := by
      unfold mapfd
      rw [hplace]
    refine ⟨0, (.error .eload, interp, maps), ?_, ⟨.eload, rfl⟩, h.mapped, fun _ => rfl, ?_⟩
    · unfold vulnspecLoadfile
      rw [hmap]
    · intro data hdata
      rw [hmap] at hdata
      contradiction

end Loading

def twoPages : Mmap where
  place maps file :=
    if file = [] then none
    else if maps 4096 = none then some 4096
    else if maps 8192 = none then some 8192
    else none
  unused := by
    intro maps file addr h
    split at h
    · contradiction
    · split at h
      · cases h
        assumption
      · split at h
        · cases h
          assumption
        · contradiction

def firstMappings : Mappings := Function.update (fun _ => none) 4096 (some matchingProgram)

def firstInterp : FileInterp := ⟨matchingParams, 4096, matchingProgram.length⟩

theorem holding_first : Holding firstMappings firstInterp matchingProgram :=
  ⟨Function.update_self _ _ _, rfl, 2, validate_matchingProgram⟩

theorem invalid_of_short (file : Bytes) (h : ¬ hasHeader file) : Invalid file :=
  ⟨0, .eheader, if_neg h⟩

theorem vulnspecLoadfile_atomic_iff_empty : ∃ fuel result,
    vulnspecLoadfile twoPages firstMappings firstInterp [] fuel = some result ∧
      Atomic twoPages firstMappings firstInterp matchingProgram [] result :=
  (vulnspecLoadfile_atomic_iff holding_first).mpr rfl

theorem rejected_file_unmaps_program : ¬ ∀ (mmap : Mmap) (maps : Mappings) (interp : FileInterp)
    (program file : Bytes), Holding maps interp program → Invalid file →
    ∃ fuel result, vulnspecLoadfile mmap maps interp file fuel = some result ∧
      Atomic mmap maps interp program file result := by
  intro hatomic
  obtain ⟨fuel, result, hload, hatomic⟩ := hatomic twoPages firstMappings firstInterp
    matchingProgram [0] holding_first (invalid_of_short [0] (by decide))
  have hplace : twoPages.place firstMappings [0] = some 8192 := rfl
  have hlost := holding_first.lost hplace hload hatomic.fails
  rw [hatomic.mapped] at hlost
  contradiction

end Yans.Vulnspec
