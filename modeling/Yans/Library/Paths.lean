import Mathlib.Data.List.Basic
import Mathlib.Data.Nat.Notation
import Mathlib.Tactic.Common

/-! Paths as texts: names between separators, the dot and the two dots among
them. A path is resolved name by name, and what it resolves to is spelled with
one separator between two names. -/
namespace Yans.Library.Paths

variable {α : Type*} [DecidableEq α] (sep dot : α)

/-- The names of a path; neighbouring separators enclose none. -/
def components (path : List α) : List (List α) := (path.splitOn sep).filter (· ≠ [])

def IsName (name : List α) : Prop := name ≠ [] ∧ sep ∉ name

/-- Where a path leads: so many steps up, then down by these names, of which the
last one comes first. -/
structure Route (α : Type*) where
  ups : ℕ
  names : List (List α)

def Route.follow (rooted : Bool) (route : Route α) (name : List α) : Route α :=
  if name = [dot] then route
  else if name = [dot, dot] then
    match route.names with
    | _ :: below => ⟨route.ups, below⟩
    | [] => if rooted then route else ⟨route.ups + 1, []⟩
  else ⟨route.ups, name :: route.names⟩

def Route.start : Route α := ⟨0, []⟩

def resolve (rooted : Bool) (names : List (List α)) : Route α :=
  names.foldl (Route.follow dot rooted) Route.start

def Route.stack (route : Route α) : List (List α) :=
  route.names ++ List.replicate route.ups [dot, dot]

def spell : List (List α) → List α
  | [] => []
  | name :: below => if below = [] then name else spell below ++ sep :: name

def isRooted (path : List α) : Bool := decide (path.head? = some sep)

def root (rooted : Bool) : List α := if rooted then [sep] else []

def clean (path : List α) : List α :=
  root sep (isRooted sep path) ++
    spell sep ((resolve dot (isRooted sep path) (components sep path)).stack dot)

@[simp] theorem components_nil : components sep ([] : List α) = [] := rfl

theorem components_append_cons (left right : List α) :
    components sep (left ++ sep :: right) = components sep left ++ components sep right := by
  unfold components
  rw [List.splitOn_append_cons_self, List.filter_append]

@[simp] theorem components_cons_self (path : List α) :
    components sep (sep :: path) = components sep path := by
  have hsplit := components_append_cons sep [] path
  rw [components_nil, List.nil_append, List.nil_append] at hsplit
  exact hsplit

theorem components_root_append (rooted : Bool) (path : List α) :
    components sep (root sep rooted ++ path) = components sep path := by
  cases rooted with
  | false => rfl
  | true => exact components_cons_self sep path

variable {sep}

variable {name : List α}

theorem components_name (h : IsName sep name) : components sep name = [name] := by
  unfold components
  rw [List.splitOn_eq_singleton h.2]
  exact List.filter_cons_of_pos (by simpa using h.1)

theorem components_name_append {rest : List α} (h : IsName sep name)
    (hrest : rest = [] ∨ rest.head? = some sep) :
    components sep (name ++ rest) = name :: components sep rest := by
  cases hrest with
  | inl hnil => rw [hnil, List.append_nil, components_name h, components_nil]
  | inr hhead =>
    obtain ⟨rest, rfl⟩ := List.head?_eq_some_iff.mp hhead
    rw [components_append_cons, components_name h, components_cons_self]
    rfl

variable {path : List α}

theorem isName_of_mem_components (h : name ∈ components sep path) :
    IsName sep name := by
  unfold components at h
  rw [List.mem_filter, decide_eq_true_eq] at h
  refine ⟨h.2, ?_⟩
  have hmem := h.1
  clear h
  induction path generalizing name with
  | nil =>
    rw [List.splitOn_nil, List.mem_singleton] at hmem
    rw [hmem]
    exact List.not_mem_nil
  | cons a path ih =>
    rw [List.splitOn_cons_eq_if_modifyHead] at hmem
    split at hmem
    · cases List.mem_cons.mp hmem with
      | inl hnil =>
        rw [hnil]
        exact List.not_mem_nil
      | inr hrest => exact ih hrest
    · rename_i hne
      cases hsplit : path.splitOn sep with
      | nil => exact absurd hsplit (List.splitOn_ne_nil sep path)
      | cons first rest =>
        rw [hsplit] at hmem ih
        rw [List.modifyHead_cons, List.mem_cons] at hmem
        cases hmem with
        | inl hfirst =>
          rw [hfirst, List.mem_cons, not_or]
          exact ⟨fun h => hne (by simp [h]), ih List.mem_cons_self⟩
        | inr hrest => exact ih (List.mem_cons_of_mem _ hrest)

omit [DecidableEq α] in
theorem spell_cons_ne {below : List (List α)} (h : below ≠ []) :
    spell sep (name :: below) = spell sep below ++ sep :: name := if_neg h

theorem components_spell {stack : List (List α)} (h : ∀ name ∈ stack, IsName sep name) :
    components sep (spell sep stack) = stack.reverse := by
  induction stack with
  | nil => rfl
  | cons name below ih =>
    have hname := h name List.mem_cons_self
    have hbelow := ih fun other hother => h other (List.mem_cons_of_mem _ hother)
    by_cases hnil : below = []
    · rw [hnil]
      exact components_name hname
    · rw [spell_cons_ne hnil, components_append_cons, hbelow, components_name hname,
        List.reverse_cons]

theorem spell_eq_nil_iff {stack : List (List α)} (h : ∀ name ∈ stack, IsName sep name) :
    spell sep stack = [] ↔ stack = [] := by
  cases stack with
  | nil => exact iff_of_true rfl rfl
  | cons name below =>
    refine iff_of_false (fun hspell => ?_) (List.cons_ne_nil _ _)
    have hnames := components_spell h
    rw [hspell, components_nil] at hnames
    exact List.cons_ne_nil _ _ (List.reverse_eq_nil_iff.mp hnames.symm)

variable {dot}

/-- No name of a route is one that is followed rather than kept, and there is
nothing above the root. -/
structure Route.Plain (sep dot : α) (rooted : Bool) (route : Route α) : Prop where
  isName : ∀ name ∈ route.names, IsName sep name
  ne_dots : ∀ name ∈ route.names, name ≠ [dot] ∧ name ≠ [dot, dot]
  ups_eq : rooted = true → route.ups = 0

omit [DecidableEq α] in
theorem Route.Plain.start (rooted : Bool) : Route.start.Plain sep dot rooted :=
  ⟨nofun, nofun, fun _ => rfl⟩

variable {rooted : Bool} {route : Route α}

theorem Route.follow_plain (hdot : name ≠ [dot])
    (hdots : name ≠ [dot, dot]) :
    route.follow dot rooted name = ⟨route.ups, name :: route.names⟩ := by
  unfold Route.follow
  rw [if_neg hdot, if_neg hdots]

theorem Route.Plain.follow (h : route.Plain sep dot rooted) (hname : IsName sep name) :
    (route.follow dot rooted name).Plain sep dot rooted := by
  unfold Route.follow
  split
  · exact h
  · rename_i hdot
    split
    · split
      · rename_i below hnames
        refine ⟨fun other hother => h.isName other ?_, fun other hother => h.ne_dots other ?_,
          h.ups_eq⟩
        · rw [hnames]
          exact List.mem_cons_of_mem _ hother
        · rw [hnames]
          exact List.mem_cons_of_mem _ hother
      · split
        · exact h
        · rename_i hrooted
          exact ⟨nofun, nofun, fun htrue => absurd htrue hrooted⟩
    · rename_i hdots
      refine ⟨fun other hother => ?_, fun other hother => ?_, h.ups_eq⟩
      · cases List.mem_cons.mp hother with
        | inl heq => exact heq ▸ hname
        | inr hmem => exact h.isName other hmem
      · cases List.mem_cons.mp hother with
        | inl heq => exact heq ▸ ⟨hdot, hdots⟩
        | inr hmem => exact h.ne_dots other hmem

variable {names : List (List α)}

theorem Route.Plain.foldl (hnames : ∀ name ∈ names, IsName sep name) : ∀ {route : Route α},
    route.Plain sep dot rooted → (names.foldl (Route.follow dot rooted) route).Plain sep dot rooted := by
  induction names with
  | nil => exact fun h => h
  | cons name names ih =>
    intro route h
    exact ih (fun other hother => hnames other (List.mem_cons_of_mem _ hother))
      (h.follow (hnames name List.mem_cons_self))

omit [DecidableEq α] in
theorem Route.Plain.stack_names (hne : sep ≠ dot)
    (h : route.Plain sep dot rooted) : ∀ name ∈ route.stack dot, IsName sep name := by
  intro name hname
  cases List.mem_append.mp hname with
  | inl hmem => exact h.isName name hmem
  | inr hups =>
    rw [List.eq_of_mem_replicate hups]
    exact ⟨List.cons_ne_nil _ _, by simp [hne]⟩

theorem components_clean (hne : sep ≠ dot) (hrooted : isRooted sep path = true) :
    ∀ name ∈ components sep (clean sep dot path), name ≠ [dot] ∧ name ≠ [dot, dot] := by
  have hplain : (resolve dot true (components sep path)).Plain sep dot true :=
    (Route.Plain.start true).foldl fun _ => isName_of_mem_components
  intro name hname
  unfold clean at hname
  rw [components_root_append, hrooted, components_spell (hplain.stack_names hne),
    List.mem_reverse, Route.stack, hplain.ups_eq rfl, List.replicate_zero, List.append_nil] at hname
  exact hplain.ne_dots name hname

theorem isRooted_clean (path : List α) (hne : sep ≠ dot) :
    isRooted sep (clean sep dot path) = isRooted sep path := by
  cases hrooted : isRooted sep path with
  | true =>
    unfold clean
    rw [hrooted]
    exact decide_eq_true rfl
  | false =>
    have hplain : (resolve dot false (components sep path)).Plain sep dot false :=
      (Route.Plain.start false).foldl fun _ => isName_of_mem_components
    have hnames := hplain.stack_names hne
    unfold clean
    rw [hrooted]
    generalize (resolve dot false (components sep path)).stack dot = stack at hnames
    have hhead : (spell sep stack).head? ≠ some sep := by
      induction stack with
      | nil => nofun
      | cons name below ih =>
        have hname := hnames name List.mem_cons_self
        have hbelow : ∀ other ∈ below, IsName sep other := fun other hother =>
          hnames other (List.mem_cons_of_mem _ hother)
        by_cases hnil : below = []
        · rw [hnil]
          exact fun hfirst => hname.2 (List.mem_of_head? hfirst)
        · rw [spell_cons_ne hnil, List.head?_append_of_ne_nil _
            ((spell_eq_nil_iff hbelow).not.mpr hnil)]
          exact ih hbelow
    exact decide_eq_false hhead

/-! Cleaning by cancelling names -/

variable (sep dot) in
/-- One name more on a stack of names: two dots cancel the name on top, if that
is not two dots itself. -/
def cancel (rooted : Bool) (kept : List (List α)) (name : List α) : List (List α) :=
  if name = [dot] then kept
  else if name = [dot, dot] then
    match kept with
    | top :: below => if top = [dot, dot] then [dot, dot] :: kept else below
    | [] => if rooted then [] else [[dot, dot]]
  else name :: kept

variable (sep dot) in
/-- The names that are left, with one separator between two of them and the
leading one kept. -/
def normalForm (path : List α) : List α :=
  root sep (isRooted sep path) ++ [sep].intercalate
    ((components sep path).foldl (cancel dot (isRooted sep path)) []).reverse

omit [DecidableEq α] in
theorem intercalate_concat {front : List (List α)} (h : front ≠ []) (last : List α) :
    [sep].intercalate (front ++ [last]) = [sep].intercalate front ++ sep :: last := by
  induction front with
  | nil => contradiction
  | cons name front ih =>
    by_cases hnil : front = []
    · rw [hnil, List.cons_append, List.nil_append, List.intercalate_cons_cons,
        List.intercalate_singleton, List.intercalate_singleton, List.append_assoc]
      rfl
    · have hmore : front ++ [last] ≠ [] := List.append_ne_nil_of_left_ne_nil hnil _
      rw [List.cons_append, List.intercalate_cons_of_ne_nil hmore, ih hnil,
        List.intercalate_cons_of_ne_nil hnil, List.append_assoc, List.append_assoc,
        List.append_assoc]

omit [DecidableEq α] in
theorem spell_eq_intercalate (stack : List (List α)) :
    spell sep stack = [sep].intercalate stack.reverse := by
  induction stack with
  | nil => rfl
  | cons name below ih =>
    by_cases hnil : below = []
    · rw [hnil]
      simp [spell]
    · rw [spell_cons_ne hnil, ih, List.reverse_cons,
        intercalate_concat (List.reverse_eq_nil_iff.not.mpr hnil)]

theorem stack_follow (h : route.Plain sep dot rooted) :
    (route.follow dot rooted name).stack dot = cancel dot rooted (route.stack dot) name := by
  obtain ⟨ups, names⟩ := route
  unfold Route.follow cancel
  split
  · rfl
  · split
    · cases names with
      | cons top below =>
        have htop := (h.ne_dots top List.mem_cons_self).2
        simp only [Route.stack, List.cons_append, if_neg htop]
      | nil =>
        cases ups with
        | zero => cases rooted <;> rfl
        | succ ups =>
          cases rooted with
          | true => exact absurd (h.ups_eq rfl) (Nat.succ_ne_zero ups)
          | false => simp [Route.stack, List.replicate_succ]
    · rfl

theorem stack_foldl (hnames : ∀ name ∈ names, IsName sep name) : ∀ {route : Route α},
    route.Plain sep dot rooted →
      (names.foldl (Route.follow dot rooted) route).stack dot =
        names.foldl (cancel dot rooted) (route.stack dot) := by
  induction names with
  | nil => exact fun _ => rfl
  | cons name names ih =>
    intro route h
    obtain ⟨hname, hnames⟩ := List.forall_mem_cons.mp hnames
    rw [List.foldl_cons, List.foldl_cons, ih hnames (h.follow hname), stack_follow h]

theorem clean_eq_normalForm (path : List α) : clean sep dot path = normalForm sep dot path := by
  unfold clean normalForm resolve
  rw [stack_foldl (fun _ => isName_of_mem_components) (Route.Plain.start _),
    spell_eq_intercalate]
  rfl

theorem resolve_stack (h : route.Plain sep dot rooted) :
    resolve dot rooted (route.stack dot).reverse = route := by
  obtain ⟨ups, names⟩ := route
  have hups : ∀ n, (List.replicate n [dot, dot]).foldl (Route.follow dot rooted) Route.start =
      (⟨if rooted then 0 else n, []⟩ : Route α) := by
    intro n
    induction n with
    | zero => cases rooted <;> rfl
    | succ n ih =>
      rw [List.replicate_succ', List.foldl_append, ih, List.foldl_cons, List.foldl_nil]
      unfold Route.follow
      rw [if_neg (by simp), if_pos rfl]
      cases rooted <;> rfl
  have hstart : (⟨if rooted then 0 else ups, []⟩ : Route α) = ⟨ups, []⟩ := by
    cases rooted with
    | true =>
      have hzero : ups = 0 := h.ups_eq rfl
      rw [hzero]
      rfl
    | false => rfl
  have hnames := h.ne_dots
  clear h
  unfold resolve Route.stack
  rw [List.reverse_append, List.reverse_replicate, List.foldl_append, hups, hstart]
  induction names with
  | nil => rfl
  | cons name names ih =>
    obtain ⟨hname, hnames⟩ := List.forall_mem_cons.mp hnames
    rw [List.reverse_cons, List.foldl_append, ih hnames, List.foldl_cons, List.foldl_nil,
      Route.follow_plain hname.1 hname.2]

theorem clean_clean (path : List α) (hne : sep ≠ dot) :
    clean sep dot (clean sep dot path) = clean sep dot path := by
  have hplain : (resolve dot (isRooted sep path) (components sep path)).Plain sep dot
      (isRooted sep path) :=
    (Route.Plain.start _).foldl fun _ => isName_of_mem_components
  have hcomponents : components sep (clean sep dot path) =
      ((resolve dot (isRooted sep path) (components sep path)).stack dot).reverse := by
    unfold clean
    rw [components_root_append, components_spell (hplain.stack_names hne)]
  rw [clean.eq_def sep dot (clean sep dot path), isRooted_clean path hne, hcomponents,
    resolve_stack hplain]
  rfl

/-! The elements of a clean path -/

theorem mem_of_mem_components (h : name ∈ components sep path) {a : α}
    (ha : a ∈ name) : a ∈ path := by
  have hmem := (List.mem_filter.mp h).1
  clear h
  induction path generalizing name with
  | nil =>
    rw [List.splitOn_nil, List.mem_singleton] at hmem
    rwa [hmem] at ha
  | cons b path ih =>
    rw [List.splitOn_cons_eq_if_modifyHead] at hmem
    split at hmem
    · cases List.mem_cons.mp hmem with
      | inl hnil =>
        rw [hnil] at ha
        cases ha
      | inr hrest => exact List.mem_cons_of_mem b (ih ha hrest)
    · cases hsplit : path.splitOn sep with
      | nil => exact absurd hsplit (List.splitOn_ne_nil sep path)
      | cons first rest =>
        rw [hsplit] at hmem ih
        rw [List.modifyHead_cons, List.mem_cons] at hmem
        cases hmem with
        | inl hfirst =>
          rw [hfirst, List.mem_cons] at ha
          exact List.mem_cons.mpr (ha.imp_right fun hmem => ih hmem List.mem_cons_self)
        | inr hrest => exact List.mem_cons_of_mem b (ih ha (List.mem_cons_of_mem first hrest))

theorem mem_of_mem_cancel {kept : List (List α)} {other : List α}
    (h : other ∈ cancel dot rooted kept name) :
    other ∈ kept ∨ other = name ∨ other = [dot, dot] := by
  unfold cancel at h
  split at h
  · exact Or.inl h
  · split at h
    · cases kept with
      | nil =>
        cases rooted with
        | true => cases h
        | false => exact Or.inr (Or.inr (List.mem_singleton.mp h))
      | cons top below =>
        dsimp only at h
        split at h
        · exact (List.mem_cons.mp h).elim (fun heq => Or.inr (Or.inr heq)) Or.inl
        · exact Or.inl (List.mem_cons_of_mem top h)
    · exact (List.mem_cons.mp h).elim (fun heq => Or.inr (Or.inl heq)) Or.inl

theorem mem_foldl_cancel {other : List α} (names : List (List α)) :
    ∀ {kept : List (List α)}, other ∈ names.foldl (cancel dot rooted) kept →
      other ∈ kept ∨ other ∈ names ∨ other = [dot, dot] := by
  induction names with
  | nil => exact fun h => Or.inl h
  | cons name names ih =>
    intro kept h
    obtain hcancel | hnames | hdots := ih h
    · obtain hkept | rfl | hdots := mem_of_mem_cancel hcancel
      · exact Or.inl hkept
      · exact Or.inr (Or.inl List.mem_cons_self)
      · exact Or.inr (Or.inr hdots)
    · exact Or.inr (Or.inl (List.mem_cons_of_mem name hnames))
    · exact Or.inr (Or.inr hdots)

omit [DecidableEq α] in
theorem mem_intercalate {a : α} (h : a ∈ [sep].intercalate names) :
    a = sep ∨ ∃ name ∈ names, a ∈ name := by
  induction names with
  | nil => cases h
  | cons name names ih =>
    by_cases hnil : names = []
    · rw [hnil, List.intercalate_singleton] at h
      exact Or.inr ⟨name, List.mem_cons_self, h⟩
    · rw [List.intercalate_cons_of_ne_nil hnil, List.mem_append, List.mem_append,
        List.mem_singleton] at h
      obtain (hname | hsep) | hrest := h
      · exact Or.inr ⟨name, List.mem_cons_self, hname⟩
      · exact Or.inl hsep
      · obtain hsep | ⟨other, hother, ha⟩ := ih hrest
        · exact Or.inl hsep
        · exact Or.inr ⟨other, List.mem_cons_of_mem name hother, ha⟩

theorem mem_normalForm {a : α} (h : a ∈ normalForm sep dot path) :
    a ∈ path ∨ a = sep ∨ a = dot := by
  unfold normalForm at h
  rw [List.mem_append] at h
  cases h with
  | inl hroot =>
    unfold root at hroot
    split at hroot
    · exact Or.inr (Or.inl (List.mem_singleton.mp hroot))
    · cases hroot
  | inr hnames =>
    obtain hsep | ⟨name, hname, ha⟩ := mem_intercalate hnames
    · exact Or.inr (Or.inl hsep)
    · obtain hkept | hpath | rfl := mem_foldl_cancel _ (List.mem_reverse.mp hname)
      · cases hkept
      · exact Or.inl (mem_of_mem_components hpath ha)
      · right
        right
        simpa using ha

end Yans.Library.Paths
