import Yans.Library.Records

/-! `lib/util/sindex.c`: an index is a file of entries that is only appended to
and is read in pages from its end. Writing, `fstat` and seeking succeed. -/
namespace Yans.Util.Sindex

open Library.Memory Library.Records

/-- `sizeof(struct sindex_entry)`, with the padding at its end. -/
def sizeofEntry : ℕ := 80

/-- The memory of a `struct sindex_entry`. -/
abbrev SindexEntry : Type := Record sizeofEntry

/-- `SINDEX_MAGIC`, which lies at offset 72 of an entry. -/
def sindexMagic : Bytes := [0x9a, 0x02]

def setMagic (e : SindexEntry) : SindexEntry :=
  ⟨e.val.take 72 ++ (sindexMagic ++ e.val.drop 74), by
    have hsize : e.val.length = 80 := e.property
    simp [sindexMagic, sizeofEntry, hsize]⟩

inductive SindexError where
  | badindex
deriving DecidableEq

def sindexPut (file : Bytes) (e : SindexEntry) : Bytes := file ++ (setMagic e).val

def getNelems (file : Bytes) : Except SindexError ℕ :=
  if file.length % sizeofEntry ≠ 0 then .error .badindex else .ok (file.length / sizeofEntry)

/-- The entries that were read, and what `last` holds then. -/
def sindexGet (file : Bytes) (nelems before last : ℕ) :
    Except SindexError (List SindexEntry × ℕ) := do
  let nelemsIndex ← getNelems file
  let before := if before = 0 then nelemsIndex else min before nelemsIndex
  let nelems := min nelems before
  if nelems = 0 then .ok ([], last)
  else
    let off := before - nelems
    let elems := readRecords nelems (file.drop (off * sizeofEntry))
    .ok (elems, before - elems.length)

/-- A reader of the whole index, page by page: it starts at the end and goes on
before the last page while there is something. The file it reads from the `i`th
time is `files i`. -/
def fetchPages (files : ℕ → Bytes) (nelems : ℕ) : ℕ → ℕ → ℕ → Option (List (List SindexEntry))
  | 0, _, _ => none
  | rounds + 1, i, before =>
    match sindexGet (files i) nelems before 0 with
    | .error _ => none
    | .ok (elems, last) =>
      if 0 < last then (fetchPages files nelems rounds (i + 1) last).map (elems :: ·)
      else some [elems]

theorem getNelems_join (entries : List SindexEntry) :
    getNelems (join entries) = .ok entries.length := by
  have hpos : 0 < sizeofEntry := by decide
  unfold getNelems
  rw [length_join, Nat.mul_mod_left, Nat.mul_div_cancel _ hpos]
  rfl

variable {entries : List SindexEntry}

theorem sindexGet_join {nelems before stop : ℕ}
    (hstop : (if before = 0 then entries.length else min before entries.length) = stop)
    (hpos : 0 < min nelems stop) (last : ℕ) :
    sindexGet (join entries) nelems before last =
      .ok ((entries.take stop).drop (stop - min nelems stop), stop - min nelems stop) := by
  have hle : stop ≤ entries.length := by
    rw [← hstop]
    split
    · exact le_rfl
    · exact min_le_right _ _
  have hread : (readRecords (min nelems stop)
      ((join entries).drop ((stop - min nelems stop) * sizeofEntry)) : List SindexEntry) =
        (entries.take stop).drop (stop - min nelems stop) := by
    rw [drop_join, readRecords_join _ _ (by rw [List.length_drop]; omega), List.drop_take]
    congr 1
    omega
  unfold sindexGet
  rw [getNelems_join]
  simp only [bind, Except.bind, hstop]
  rw [if_neg hpos.ne', hread, List.length_drop, List.length_take, min_eq_left hle]
  congr 2
  omega

/-- The pages of the entries before `stop`, of which later files have more. The
induction is on their number. -/
theorem fetchPages_spec {nelems : ℕ} (hnelems : 0 < nelems)
    {files : ℕ → Bytes} {all : ℕ → List SindexEntry} (hfiles : ∀ i, files i = join (all i))
    (hgrowing : ∀ i, entries <+: all i) (stop : ℕ) :
    ∀ i before : ℕ, 0 < stop → stop ≤ entries.length →
      (if before = 0 then (all i).length else min before (all i).length) = stop →
        ∃ pages, (∀ rounds, stop ≤ rounds → fetchPages files nelems rounds i before = some pages) ∧
          pages.reverse.flatten = entries.take stop ∧
          (∀ page ∈ pages.dropLast, page.length = nelems) ∧
          ∀ page ∈ pages, 0 < page.length ∧ page.length ≤ nelems := by
  induction stop using Nat.strong_induction_on with
  | h stop ih =>
    intro i before hpos hle hstop
    have hget := sindexGet_join hstop (lt_min hnelems hpos) 0
    rw [← hfiles] at hget
    have htake : (all i).take stop = entries.take stop := by
      obtain ⟨more, hmore⟩ := hgrowing i
      rw [← hmore, List.take_append_of_le_length hle]
    rw [htake] at hget
    have hlength : ((entries.take stop).drop (stop - min nelems stop)).length =
        min nelems stop := by
      rw [List.length_drop, List.length_take]
      omega
    by_cases hlast : 0 < stop - min nelems stop
    · have hall : entries.length ≤ (all (i + 1)).length := (hgrowing (i + 1)).length_le
      obtain ⟨pages, hpages, hflatten, hfull, hsize⟩ :=
        ih (stop - min nelems stop) (by omega) (i + 1) (stop - min nelems stop) hlast (by omega)
          (by rw [if_neg hlast.ne']; omega)
      have hne : pages ≠ [] := by
        intro hnil
        have hlengths := congrArg List.length hflatten
        rw [hnil, List.reverse_nil, List.flatten_nil, List.length_nil, List.length_take] at hlengths
        omega
      refine ⟨(entries.take stop).drop (stop - min nelems stop) :: pages, ?_, ?_, ?_, ?_⟩
      · intro rounds hrounds
        cases rounds with
        | zero => omega
        | succ rounds =>
          rw [fetchPages, hget]
          dsimp only
          rw [if_pos hlast, hpages rounds (by omega)]
          rfl
      · have hfront : entries.take (stop - min nelems stop) =
            (entries.take stop).take (stop - min nelems stop) := by
          rw [List.take_take]
          congr 1
          omega
        rw [List.reverse_cons, List.flatten_append, hflatten, List.flatten_singleton, hfront,
          List.take_append_drop]
      · rw [List.dropLast_cons_of_ne_nil hne, List.forall_mem_cons, hlength]
        exact ⟨by omega, hfull⟩
      · rw [List.forall_mem_cons, hlength]
        exact ⟨by omega, hsize⟩
    · refine ⟨[(entries.take stop).drop (stop - min nelems stop)], ?_, ?_, ?_, ?_⟩
      · intro rounds hrounds
        cases rounds with
        | zero => omega
        | succ rounds =>
          rw [fetchPages, hget]
          dsimp only
          rw [if_neg hlast]
      · have hzero : stop - min nelems stop = 0 := by omega
        rw [List.reverse_singleton, List.flatten_singleton, hzero, List.drop_zero]
      · rw [List.dropLast_singleton]
        exact List.forall_mem_nil _
      · rw [List.forall_mem_cons, hlength]
        exact ⟨by omega, List.forall_mem_nil _⟩

theorem foldl_sindexPut (puts : List SindexEntry) (entries : List SindexEntry) :
    puts.foldl sindexPut (join entries) = join (entries ++ puts.map setMagic) := by
  induction puts generalizing entries with
  | nil => rw [List.map_nil, List.append_nil, List.foldl_nil]
  | cons e puts ih =>
    have hput : sindexPut (join entries) e = join (entries ++ [setMagic e]) := by
      rw [join_append, join_cons, join_nil, List.append_nil]
      rfl
    rw [List.foldl_cons, hput, ih, List.map_cons, List.append_assoc, List.singleton_append]

/-- The pages that are read of an index, which may grow in between, have each of
the entries of the first file once: those of one page stand in the order of the
file, and the pages come from the end. All pages but the last one are full. -/
theorem pages_partition {entries : List SindexEntry} (hentries : entries ≠ []) {nelems : ℕ}
    (hnelems : 0 < nelems) {files : ℕ → Bytes} (hfirst : files 0 = join entries)
    (hgrows : ∀ i, ∃ puts : List SindexEntry, files (i + 1) = puts.foldl sindexPut (files i)) :
    ∃ pages, (∀ rounds, entries.length ≤ rounds → fetchPages files nelems rounds 0 0 = some pages) ∧
      pages.reverse.flatten = entries ∧ (∀ page ∈ pages.dropLast, page.length = nelems) ∧
      ∀ page ∈ pages, 0 < page.length ∧ page.length ≤ nelems := by
  have hall : ∀ i, ∃ all, files i = join all ∧ entries <+: all ∧ (i = 0 → all = entries) := by
    intro i
    induction i with
    | zero => exact ⟨entries, hfirst, List.prefix_rfl, fun _ => rfl⟩
    | succ i ih =>
      obtain ⟨all, hall, hgrowing, -⟩ := ih
      obtain ⟨puts, hputs⟩ := hgrows i
      refine ⟨all ++ puts.map setMagic, ?_, hgrowing.trans (List.prefix_append _ _),
        fun h => absurd h (Nat.succ_ne_zero i)⟩
      rw [hputs, hall, foldl_sindexPut]
  choose all hfiles hgrowing hzero using hall
  have hspec := fetchPages_spec hnelems hfiles hgrowing entries.length 0 0
    (List.length_pos_iff.mpr hentries) le_rfl (by rw [if_pos rfl, hzero 0 rfl])
  rwa [List.take_length] at hspec

def entryOf (byte : UInt8) : SindexEntry :=
  ⟨List.replicate sizeofEntry byte, List.length_replicate⟩

/-- Three entries, and one more that is put between the calls. -/
theorem pages_of_three :
    ∃ pages, (∀ rounds, 3 ≤ rounds → fetchPages
        (fun i => (List.replicate i (entryOf 9)).foldl sindexPut
          (join [entryOf 1, entryOf 2, entryOf 3])) 2 rounds 0 0 = some pages) ∧
      pages.reverse.flatten = [entryOf 1, entryOf 2, entryOf 3] ∧
      (∀ page ∈ pages.dropLast, page.length = 2) ∧
      ∀ page ∈ pages, 0 < page.length ∧ page.length ≤ 2 := by
  have hgrows : ∀ i, ∃ puts : List SindexEntry,
      (List.replicate (i + 1) (entryOf 9)).foldl sindexPut
          (join [entryOf 1, entryOf 2, entryOf 3]) =
        puts.foldl sindexPut ((List.replicate i (entryOf 9)).foldl sindexPut
          (join [entryOf 1, entryOf 2, entryOf 3])) := by
    intro i
    refine ⟨[entryOf 9], ?_⟩
    rw [List.replicate_succ', List.foldl_append]
  exact pages_partition (List.cons_ne_nil (entryOf 1) [entryOf 2, entryOf 3]) (by decide) rfl hgrows

end Yans.Util.Sindex
