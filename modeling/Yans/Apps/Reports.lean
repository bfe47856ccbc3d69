import Yans.Net.Urlquery
import Yans.Util.Nalphaver

/-! `get_reports` of `apps/a2/main.c`: the parameters of a listing. The numbers are scanned in
the name of a parameter, not in its value, so that none is ever found. -/
namespace Yans.Apps.Reports

open Library.Memory Library.Strings Library.Decimal Net.Urlquery Util.Nalphaver

/-- `sscanf(str, "%zu", &dst)`, where `dst` stays as it is if there is no number. -/
def sscanfZu (str : Bytes) (dst : ℕ) : ℕ :=
  let (n, rest) := strtoul str
  if rest = str then dst else n

/-- The loop over the parameters, with `nelems` and `before`; `calls` bounds it. -/
def reportsLoop : ℕ → Bytes → Option ℕ → ℕ → ℕ → Option (ℕ × ℕ)
  | 0, _, _, _, _ => none
  | calls + 1, mem, str, nelems, before => do
    match ← urlqueryNextPair mem str with
    | (_, _, none) => pure (nelems, before)
    | (mem, str, some pair) =>
      let key := mem.drop pair.key
      if strcmp key (ascii "nelems") = 0 then
        let nelems := sscanfZu (cstring key) nelems
        reportsLoop calls mem str (min nelems 100) before
      else if strcmp key (ascii "before") = 0 then
        let before := sscanfZu (cstring key) before
        reportsLoop calls mem str nelems before
      else reportsLoop calls mem str nelems before

/-- The `nelems` and the `before` that `sindex_get` is called with. -/
def getReports : Option Bytes → Option (ℕ × ℕ)
  | none => reportsLoop 1 [] none 25 0
  | some query => reportsLoop (query.length + 1) (query ++ [0]) (some 0) 25 0

def IsNumber (text : Bytes) : Prop := text ≠ [] ∧ ∀ ch ∈ text, IsDigit ch

instance (text : Bytes) : Decidable (IsNumber text) := inferInstanceAs (Decidable (_ ∧ _))

/-- The number in the last parameter `name` that has one. -/
def lastNumber (name : Bytes) (query : Bytes) : Option ℕ :=
  ((pairTexts query).filterMap fun (key, val) =>
    if key = name ∧ IsNumber val then some (value 0 val) else none).getLast?

def wanted (query : Bytes) : ℕ × ℕ :=
  (((lastNumber (ascii "nelems") query).map (min · 100)).getD 25,
    (lastNumber (ascii "before") query).getD 0)

theorem sscanfZu_of_unread {str : Bytes} (h : (strtoul str).2 = str) (dst : ℕ) :
    sscanfZu str dst = dst := by
  unfold sscanfZu
  dsimp only
  rw [if_pos h]

theorem sscanfZu_names (dst : ℕ) :
    sscanfZu (ascii "nelems") dst = dst ∧ sscanfZu (ascii "before") dst = dst := by
  constructor
  · exact sscanfZu_of_unread (by decide) dst
  · exact sscanfZu_of_unread (by decide) dst

theorem eq_of_strcmp {key name : Bytes} (hname : cstring name = name) (h : strcmp key name = 0) :
    cstring key = name := by
  rw [strcmp_eq_zero_iff.mp h, hname]

/-- Whatever the parameters are. The induction is on the calls. -/
theorem reportsLoop_eq (calls : ℕ) : ∀ {mem : Bytes} {str : Option ℕ} {run : Bytes × List Entry},
    allPairs calls mem str = some run → reportsLoop calls mem str 25 0 = some (25, 0) := by
  induction calls with
  | zero =>
    intro mem str run hrun
    cases hrun
  | succ calls ih =>
    intro mem str run hrun
    rw [allPairs] at hrun
    rw [reportsLoop]
    cases hcall : urlqueryNextPair mem str with
    | none =>
      rw [hcall] at hrun
      cases hrun
    | some result =>
      obtain ⟨next, more, pair⟩ := result
      rw [hcall] at hrun
      cases pair with
      | none => rfl
      | some pair =>
        simp only [Option.bind_eq_bind, Option.bind_some] at hrun
        obtain ⟨rest, hrest, -⟩ := Option.bind_eq_some_iff.mp hrun
        have hloop := ih hrest
        simp only [Option.bind_eq_bind, Option.bind_some]
        by_cases hnelems : strcmp (next.drop pair.key) (ascii "nelems") = 0
        · rw [if_pos hnelems, eq_of_strcmp (by decide) hnelems, (sscanfZu_names 25).1]
          exact hloop
        rw [if_neg hnelems]
        by_cases hbefore : strcmp (next.drop pair.key) (ascii "before") = 0
        · rw [if_pos hbefore, eq_of_strcmp (by decide) hbefore, (sscanfZu_names 0).2]
          exact hloop
        · rw [if_neg hbefore]
          exact hloop

theorem getReports_eq {query : Bytes} (hfree : 0 ∉ query) :
    getReports (some query) = some (25, 0) := by
  obtain ⟨mem, entries, hrun, -⟩ := query_pairs hfree
  exact reportsLoop_eq _ hrun

theorem getD_eq_default_iff {number : Option ℕ} {f : ℕ → ℕ} {default expected : ℕ}
    (h : ∀ n, f n = default ↔ n = expected) :
    (number.map f).getD default = default ↔ ∀ n, number = some n → n = expected := by
  cases number with
  | none => exact iff_of_true rfl nofun
  | some n =>
    rw [Option.map_some, Option.getD_some, h]
    exact ⟨fun hn k hk => (Option.some.inj hk).symm.trans hn, fun hall => hall n rfl⟩

/-- Only the defaults are ever passed on. -/
theorem parameters_honoured_iff {query : Bytes} (hfree : 0 ∉ query) :
    getReports (some query) = some (wanted query) ↔
      (∀ n, lastNumber (ascii "nelems") query = some n → n = 25) ∧
        ∀ b, lastNumber (ascii "before") query = some b → b = 0 := by
  have hnelems := @getD_eq_default_iff (lastNumber (ascii "nelems") query) (min · 100) 25 25
    (fun n => by omega)
  have hbefore := @getD_eq_default_iff (lastNumber (ascii "before") query) id 0 0
    (fun _ => Iff.rfl)
  rw [Option.map_id] at hbefore
  rw [getReports_eq hfree, Option.some.injEq, wanted, Prod.mk.injEq, ← hnelems, ← hbefore]
  constructor
  · intro h
    exact ⟨h.1.symm, h.2.symm⟩
  · intro h
    exact ⟨h.1.symm, h.2.symm⟩

/-- `x=1&before=` -/
theorem parameters_honoured_absent :
    getReports (some (ascii "x=1&before=")) = some (wanted (ascii "x=1&before=")) :=
  (parameters_honoured_iff (by decide)).mpr (by decide)

theorem nelems_ignored : ¬ ∀ query : Bytes, 0 ∉ query →
    getReports (some query) = some (wanted query) := by
  intro h
  have hten := h (ascii "nelems=10") (by decide)
  rw [getReports_eq (by decide)] at hten
  exact absurd hten (by decide)

end Yans.Apps.Reports
