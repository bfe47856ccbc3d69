import Yans.Util.ObjtblRefinement
import Mathlib.Data.List.Sort

/-! `objtbl_sort`: the entries of a table in the reverse of the caller's order,
with the empty ones at the end. -/
namespace Yans.Util.Objtbl

open Library.RobinHood

variable {Obj : Type}

def Qsort.mergeSort (α : Type) : Qsort α where
  sort cmp elems := (elems.attach.mergeSort fun a b => decide (cmp a b ≤ 0)).map Subtype.val
  perm cmp elems := by
    have hperm := (List.mergeSort_perm elems.attach fun a b => decide (cmp a b ≤ 0)).map Subtype.val
    rwa [List.attach_map_subtype_val] at hperm
  sorted cmp elems htotal htrans := by
    rw [List.pairwise_map]
    refine (List.pairwise_mergeSort ?_ ?_ elems.attach).imp fun h => of_decide_eq_true h
    · intro a b c hab hbc
      exact decide_eq_true (htrans a a.2 b b.2 c c.2 (of_decide_eq_true hab) (of_decide_eq_true hbc))
    · intro a b
      rw [Bool.or_eq_true, decide_eq_true_iff, decide_eq_true_iff]
      exact htotal a a.2 b b.2

structure Orders (cmpfunc : Obj → Obj → ℤ) (objects : List Obj) : Prop where
  total : ∀ a ∈ objects, ∀ b ∈ objects, 0 ≤ cmpfunc a b ∨ 0 ≤ cmpfunc b a
  trans : ∀ a ∈ objects, ∀ b ∈ objects, ∀ c ∈ objects,
    0 ≤ cmpfunc a b → 0 ≤ cmpfunc b c → 0 ≤ cmpfunc a c

theorem keycmp_le_zero_iff {opts : ObjtblOpts Obj} {ent0 ent1 : ObjtblEntry Obj} :
    keycmp opts ent0 ent1 ≤ 0 ↔
      ent1.hash = 0 ∨ ent0.hash ≠ 0 ∧ 0 ≤ opts.cmpfunc ent0.value ent1.value := by
  unfold keycmp
  by_cases h0 : ent0.hash = 0 <;> by_cases h1 : ent1.hash = 0 <;> simp [h0, h1]

variable [Inhabited Obj]

theorem mem_storedObjects {entries : List (ObjtblEntry Obj)} {entry : ObjtblEntry Obj}
    (hmem : entry ∈ entries) (hfull : entry.hash ≠ 0) : entry.value ∈ storedObjects entries := by
  apply List.mem_map_of_mem
  rw [List.mem_filter]
  exact ⟨hmem, by simp [entryLayout, hfull]⟩

theorem filter_append_filter {α : Type} {p : α → Bool} {elems : List α}
    (h : elems.Pairwise fun a b => p b = true → p a = true) :
    elems.filter p ++ elems.filter (fun a => !p a) = elems := by
  induction elems with
  | nil => rfl
  | cons a elems ih =>
    obtain ⟨hhead, htail⟩ := List.pairwise_cons.mp h
    cases ha : p a with
    | true => simp [ha, ih htail]
    | false =>
      have hnone : elems.filter p = [] := by
        rw [List.filter_eq_nil_iff]
        intro b hb hpb
        rw [hhead b hb hpb] at ha
        cases ha
      have hall : elems.filter (fun a => !p a) = elems := by
        have hsplit := ih htail
        rwa [hnone, List.nil_append] at hsplit
      simp [ha, hnone, hall]

section

variable (qsort : Qsort (ObjtblEntry Obj))

include qsort

theorem pairwise_objtblSort (tbl : ObjtblCtx Obj)
    (horders : Orders tbl.header.opts.cmpfunc (storedObjects tbl.entries)) :
    (objtblSort qsort tbl).entries.Pairwise fun a b => keycmp tbl.header.opts a b ≤ 0 := by
  apply qsort.sorted
  · intro a ha b hb
    rw [keycmp_le_zero_iff, keycmp_le_zero_iff]
    by_cases hea : a.hash = 0
    · exact Or.inr (Or.inl hea)
    · by_cases heb : b.hash = 0
      · exact Or.inl (Or.inl heb)
      · exact (horders.total _ (mem_storedObjects ha hea) _ (mem_storedObjects hb heb)).imp
          (fun h => Or.inr ⟨hea, h⟩) (fun h => Or.inr ⟨heb, h⟩)
  · intro a ha b hb c hc
    rw [keycmp_le_zero_iff, keycmp_le_zero_iff, keycmp_le_zero_iff]
    rintro hab (hec | ⟨heb, hbc⟩)
    · exact Or.inl hec
    · by_cases hec : c.hash = 0
      · exact Or.inl hec
      · obtain ⟨hea, hab⟩ := hab.resolve_left heb
        exact Or.inr ⟨hea, horders.trans _ (mem_storedObjects ha hea) _
          (mem_storedObjects hb heb) _ (mem_storedObjects hc hec) hab hbc⟩

theorem front_objtblSort (tbl : ObjtblCtx Obj)
    (horders : Orders tbl.header.opts.cmpfunc (storedObjects tbl.entries)) :
    ((objtblSort qsort tbl).entries.filter fun entry => !entryLayout.isEmpty entry) ++
      ((objtblSort qsort tbl).entries.filter fun entry => !!entryLayout.isEmpty entry) =
        (objtblSort qsort tbl).entries := by
  apply filter_append_filter
  refine (pairwise_objtblSort qsort tbl horders).imp ?_
  intro a b hle hb
  rw [keycmp_le_zero_iff] at hle
  have heb : b.hash ≠ 0 := by simpa [entryLayout] using hb
  simpa [entryLayout] using (hle.resolve_left heb).1

theorem objtblSort_spec (tbl : ObjtblCtx Obj)
    (horders : Orders tbl.header.opts.cmpfunc (storedObjects tbl.entries)) :
    (objtblSort qsort tbl).header = tbl.header ∧
    (objtblSort qsort tbl).entries.length = tbl.entries.length ∧
    (storedObjects (objtblSort qsort tbl).entries).Perm (storedObjects tbl.entries) ∧
    (storedObjects (objtblSort qsort tbl).entries).Pairwise
      (fun a b => 0 ≤ tbl.header.opts.cmpfunc a b) ∧
    ∃ empties, (objtblSort qsort tbl).entries.map ObjtblEntry.value =
      storedObjects (objtblSort qsort tbl).entries ++ empties := by
  have hperm := qsort.perm (keycmp tbl.header.opts) tbl.entries
  refine ⟨rfl, hperm.length_eq, (hperm.filter _).map _, ?_, ?_⟩
  · rw [storedObjects, List.pairwise_map]
    refine ((pairwise_objtblSort qsort tbl horders).filter _).imp_of_mem ?_
    intro a b _ hb hle
    have heb : b.hash ≠ 0 := by simpa [entryLayout] using (List.mem_filter.mp hb).2
    rw [keycmp_le_zero_iff] at hle
    exact (hle.resolve_left heb).2
  · refine ⟨((objtblSort qsort tbl).entries.filter fun entry =>
      !!entryLayout.isEmpty entry).map ObjtblEntry.value, ?_⟩
    conv => lhs; rw [← front_objtblSort qsort tbl horders]
    rw [List.map_append]
    rfl

theorem objtblVal_objtblSort (tbl : ObjtblCtx Obj)
    (horders : Orders tbl.header.opts.cmpfunc (storedObjects tbl.entries)) (i : ℕ) :
    objtblVal (objtblSort qsort tbl) i = (storedObjects (objtblSort qsort tbl).entries)[i]? := by
  set entries := (objtblSort qsort tbl).entries with hentries
  set full := entries.filter fun entry => !entryLayout.isEmpty entry with hfull
  have hfront : full ++ entries.filter (fun entry => !!entryLayout.isEmpty entry) = entries :=
    front_objtblSort qsort tbl horders
  unfold objtblVal storedObjects
  rw [← hentries, ← hfull, List.getElem?_map]
  dsimp only [Layout.entryAt]
  rw [List.getD_eq_getElem?_getD]
  by_cases hi : i < full.length
  · have hentry : entries[i]? = some full[i] := by
      rw [← hfront, List.getElem?_append_left hi, List.getElem?_eq_getElem hi]
    have hne : full[i].hash ≠ 0 := by
      have hmem := (List.mem_filter.mp (List.getElem_mem hi)).2
      simpa [entryLayout] using hmem
    rw [hentry, List.getElem?_eq_getElem hi, Option.getD_some, if_neg hne]
    rfl
  · have hempty : (entries[i]?.getD entryLayout.zero).hash = 0 := by
      cases hentry : entries[i]? with
      | none => rfl
      | some entry =>
        rw [← hfront, List.getElem?_append_right (not_lt.mp hi)] at hentry
        have hmem := (List.mem_filter.mp (List.mem_of_getElem? hentry)).2
        simpa [entryLayout] using hmem
    rw [if_pos hempty, List.getElem?_eq_none (not_lt.mp hi)]
    rfl

end

end Yans.Util.Objtbl
