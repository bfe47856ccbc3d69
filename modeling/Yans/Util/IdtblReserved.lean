import Yans.Library.Runs
import Yans.Util.IdtblRefinement

/-! The reserved key of an id table. `UINT32_MAX` is stored as zero, the mark of
an empty slot: only `set_table_value` looks out for it, and a lookup of it is a
search for an empty slot. -/
namespace Yans.Util.Idtbl

open Library.RobinHood Library.Refinement Library.Runs TableSize

variable {Value : Type} [Inhabited Value]

/-- From the slot where the search for the reserved key begins, an entry that
is closer to its home than to that slot comes before any empty slot, or the
whole round has no empty one. -/
def ReservedHidden (ctx : IdtblCtx Value) : Prop :=
  Shielded entryLayout ctx.entries (startPos ctx.header 0) 0

/-- An insertion does not find the table in need of more than `2 ^ 31` slots. -/
def Growable (ctx : IdtblCtx Value) : Prop :=
  ctx.header.size < ctx.header.rehashLimit ∨ ctx.header.cap.toNat < 2 ^ 31

/-- What a table that stands for `contents` answers when the reserved key is
never present. -/
structure ReservedAbsent (ctx : IdtblCtx Value) (contents : IdMap Value) : Prop where
  get : idtblGet ctx uint32Max = some (.enotfound, none)
  contains : idtblContains ctx uint32Max = some false
  insert : ∀ value, ∃ after, idtblInsert ctx uint32Max value = some (.einval, after) ∧
    (after = ctx ∨ grow ctx = some (.ok, after)) ∧ Represents after contents
  remove : idtblRemove ctx uint32Max = some (.enotfound, ctx)

theorem emptyJudge_findJudge : EmptyJudge (@entryLayout Value _) (findJudge 0) := by
  intro entry d
  have hempty : entryLayout.isEmpty entry = true ↔ entry.key = 0 := beq_iff_eq
  have hdistance : entryLayout.distance entry = entry.distance := rfl
  unfold findJudge
  rw [hdistance]
  by_cases hzero : entry.key = 0
  · rw [if_pos hzero, if_pos (hempty.mpr hzero)]
  · rw [if_neg hzero, if_neg (mt hempty.mp hzero)]
    by_cases hless : entry.distance < d
    · rw [if_pos (Or.inr hless), if_pos hless]
    · rw [if_neg (not_or.mpr ⟨hzero, hless⟩), if_neg hless]

variable {ctx : IdtblCtx Value}

theorem WellFormed.findTableEntry_reserved (wf : WellFormed ctx) :
    ReservedHidden ctx ∧ findTableEntry ctx uint32Max = some none ∨
      ¬ReservedHidden ctx ∧ ∃ index, findTableEntry ctx uint32Max = some (some index) := by
  have hstart := Nat.mod_eq_of_lt (wf.startPos_lt 0)
  have hprobe := probe_empty wf.inv.pos wf.advances emptyJudge_findJudge (startPos ctx.header 0)
    ctx.entries.length 0 ctx.header.cap.toNat (Nat.zero_add _) wf.inv.pos wf.length_eq.le
  rw [Nat.add_zero, hstart] at hprobe
  exact hprobe

namespace Represents

variable {contents : IdMap Value}

theorem idtblInsert_reserved (rep : Represents ctx contents) (value : Value) :
    Growable ctx ∧ (∃ after, idtblInsert ctx uint32Max value = some (.einval, after) ∧
      (after = ctx ∨ grow ctx = some (.ok, after)) ∧ Represents after contents) ∨
    ¬Growable ctx ∧ idtblInsert ctx uint32Max value = some (.enomem, ctx) := by
  have hcap := rep.sized.cap_le
  by_cases hgrow : ctx.header.size ≥ ctx.header.rehashLimit
  · obtain ⟨hmax, hrun⟩ | ⟨hhalf, grown, hrun, hwf, hitems, -⟩ := rep.grow_spec
    · right
      refine ⟨?_, by simp [idtblInsert, hgrow, hrun]⟩
      rintro (hless | hless)
      · exact absurd hgrow (UInt32.not_le.mpr hless)
      · omega
    · left
      refine ⟨.inr (by omega), grown, ?_, .inr hrun, hwf, ?_⟩
      · simp [idtblInsert, hgrow, hrun, setTableValue]
      · rw [hitems]
        exact rep.lookup_iff
  · left
    refine ⟨.inl (UInt32.not_le.mp hgrow), ctx, ?_, .inl rfl, rep⟩
    simp [idtblInsert, hgrow, setTableValue]

theorem reservedAbsent_iff (rep : Represents ctx contents) :
    ReservedAbsent ctx contents ↔ ReservedHidden ctx ∧ Growable ctx := by
  constructor
  · intro habsent
    constructor
    · obtain ⟨hhidden, -⟩ | ⟨-, index, hfound⟩ := rep.findTableEntry_reserved
      · exact hhidden
      · have hcontains := habsent.contains
        simp [idtblContains, hfound] at hcontains
    · obtain ⟨hgrowable, -⟩ | ⟨-, hnomem⟩ := rep.idtblInsert_reserved default
      · exact hgrowable
      · obtain ⟨after, hinsert, -⟩ := habsent.insert default
        rw [hnomem] at hinsert
        cases hinsert
  · rintro ⟨hhidden, hgrowable⟩
    have hfind : findTableEntry ctx uint32Max = some none := by
      obtain ⟨-, hfind⟩ | ⟨hnot, -⟩ := rep.findTableEntry_reserved
      · exact hfind
      · exact absurd hhidden hnot
    refine ⟨by simp [idtblGet, hfind], by simp [idtblContains, hfind], ?_,
      by simp [idtblRemove, hfind]⟩
    intro value
    obtain ⟨-, hinsert⟩ | ⟨hnot, -⟩ := rep.idtblInsert_reserved value
    · exact hinsert
    · exact absurd hgrowable hnot

end Represents

/-! Runs of calls with any keys -/

def Step (tables : Tables Value) (next : Call Value) (after : Tables Value) : Prop :=
  ∃ reply, call tables next = some (reply, after)

def Harmless (tables : Tables Value) : Call Value → Prop
  | .remove handle key => key = uint32Max → ∀ ctx, tables handle = some ctx → ReservedHidden ctx
  | _ => True

def Sound (tables : Tables Value) : Prop :=
  ∀ handle ctx, tables handle = some ctx → ∃ contents, Represents ctx contents

variable {tables : Tables Value}

theorem Sound.update (h : Sound tables) (handle : ℕ) {contents : IdMap Value} (rep : Represents ctx contents) :
    Sound (Function.update tables handle (some ctx)) := by
  intro other table htable
  by_cases hother : other = handle
  · rw [hother, Function.update_self] at htable
    cases htable
    exact ⟨contents, rep⟩
  · rw [Function.update_of_ne hother] at htable
    exact h other table htable

theorem Represents.insert_any {after : IdtblCtx Value} {contents : IdMap Value}
    {code : IdtblCode} {key : UInt32} {value : Value} (rep : Represents ctx contents)
    (h : idtblInsert ctx key value = some (code, after)) :
    ∃ contents', Represents after contents' := by
  by_cases hkey : key = uint32Max
  · rw [hkey] at h
    obtain ⟨-, grown, hrun, -, hrep⟩ | ⟨-, hrun⟩ := rep.idtblInsert_reserved value
    · rw [hrun] at h
      cases h
      exact ⟨contents, hrep⟩
    · rw [hrun] at h
      cases h
      exact ⟨contents, rep⟩
  · obtain ⟨-, hrun⟩ | ⟨-, grown, hrun, hrep⟩ := rep.idtblInsert_spec value hkey
    · rw [hrun] at h
      cases h
      exact ⟨contents, rep⟩
    · rw [hrun] at h
      cases h
      exact ⟨_, hrep⟩

theorem Represents.remove_any {after : IdtblCtx Value} {contents : IdMap Value}
    {code : IdtblCode} {key : UInt32} (rep : Represents ctx contents)
    (hhidden : key = uint32Max → ReservedHidden ctx)
    (h : idtblRemove ctx key = some (code, after)) : ∃ contents', Represents after contents' := by
  by_cases hkey : key = uint32Max
  · obtain ⟨-, hfind⟩ | ⟨hnot, -⟩ := rep.findTableEntry_reserved
    · rw [hkey] at h
      simp only [idtblRemove, hfind] at h
      cases h
      exact ⟨contents, rep⟩
    · exact absurd (hhidden hkey) hnot
  · obtain ⟨removed, hrun, hrep⟩ := rep.idtblRemove_spec hkey
    rw [hrun] at h
    cases h
    exact ⟨_, hrep⟩

theorem Sound.step {after : Tables Value} {next : Call Value} (h : Sound tables)
    (hharmless : Harmless tables next) (hstep : Step tables next after) : Sound after := by
  obtain ⟨reply, hcall⟩ := hstep
  cases next with
  | init handle nslots seed =>
    obtain ⟨-, hnone⟩ | ⟨-, ctx, hinit, hrep⟩ := @idtblInit_spec Value _ nslots seed
    · simp only [call, hnone] at hcall
      cases hcall
      exact h
    · simp only [call, hinit] at hcall
      cases hcall
      exact h.update handle hrep
  | insert handle key value =>
    cases htable : tables handle with
    | none =>
      simp only [call, htable] at hcall
      cases hcall
      exact h
    | some ctx =>
      obtain ⟨contents, rep⟩ := h handle ctx htable
      simp only [call, htable] at hcall
      obtain ⟨⟨code, inserted⟩, hrun, hafter⟩ := Option.bind_eq_some_iff.mp hcall
      cases hafter
      obtain ⟨contents', rep'⟩ := rep.insert_any hrun
      exact h.update handle rep'
  | get handle key =>
    cases htable : tables handle with
    | none =>
      simp only [call, htable] at hcall
      cases hcall
      exact h
    | some ctx =>
      simp only [call, htable] at hcall
      obtain ⟨result, -, hafter⟩ := Option.bind_eq_some_iff.mp hcall
      cases hafter
      exact h
  | contains handle key =>
    cases htable : tables handle with
    | none =>
      simp only [call, htable] at hcall
      cases hcall
      exact h
    | some ctx =>
      simp only [call, htable] at hcall
      obtain ⟨result, -, hafter⟩ := Option.bind_eq_some_iff.mp hcall
      cases hafter
      exact h
  | remove handle key =>
    cases htable : tables handle with
    | none =>
      simp only [call, htable] at hcall
      cases hcall
      exact h
    | some ctx =>
      obtain ⟨contents, rep⟩ := h handle ctx htable
      simp only [call, htable] at hcall
      obtain ⟨⟨code, removed⟩, hrun, hafter⟩ := Option.bind_eq_some_iff.mp hcall
      cases hafter
      obtain ⟨contents', rep'⟩ := rep.remove_any (fun hkey => hharmless hkey ctx htable) hrun
      exact h.update handle rep'
  | copy dst src =>
    cases htable : tables src with
    | none =>
      simp only [call, htable] at hcall
      cases hcall
      exact h
    | some ctx =>
      obtain ⟨contents, rep⟩ := h src ctx htable
      simp only [call, htable] at hcall
      cases hcall
      exact h.update dst rep.idtblCopy_spec

/-- The tables that calls lead to when the reserved key is only removed where
it is hidden. -/
def ReachableTables : Tables Value → Prop :=
  Reachable (fun tables => tables = fun _ => none) Harmless Step

theorem ReachableTables.sound (h : ReachableTables tables) :
    Sound tables := by
  refine Reachable.invariant ?_ ?_ h
  · rintro s rfl handle ctx hctx
    cases hctx
  · intro before event after hsound hharmless hstep
    exact hsound.step hharmless hstep

/-- On every table of such a run the reserved key is absent exactly if it is
hidden and an insertion comes to the check of the key. -/
theorem reserved_key_absent_iff {tables : Tables Value} (h : ReachableTables tables) {handle : ℕ}
    {ctx : IdtblCtx Value} (hctx : tables handle = some ctx) :
    ∃ contents, Represents ctx contents ∧
      (ReservedAbsent ctx contents ↔ ReservedHidden ctx ∧ Growable ctx) := by
  obtain ⟨contents, rep⟩ := h.sound handle ctx hctx
  exact ⟨contents, rep, rep.reservedAbsent_iff⟩

/-- A table of one slot, before and after an insertion. -/
def smallTable : IdtblCtx ℕ where
  header := ⟨1, 0, hashfunc 0 fnv1aOffset, 0, 1⟩
  entries := [⟨0, 0, 0⟩]

def fullTable : IdtblCtx ℕ where
  header := ⟨1, 1, hashfunc 0 fnv1aOffset, 0, 1⟩
  entries := [⟨0, 4, 30⟩]

theorem smallTable_reachable :
    ReachableTables (Function.update (fun _ => none) 0 (some smallTable)) := by
  have hempty : ReachableTables (fun _ => (none : Option (IdtblCtx ℕ))) := .initial rfl
  have hinit : idtblInit 1 0 = some smallTable := by decide
  have hstep : Step (fun _ => none) (.init 0 1 0)
      (Function.update (fun _ => none) 0 (some smallTable)) :=
    ⟨.code .ok, by simp only [call, hinit]⟩
  exact Reachable.step hempty (show Harmless _ (.init 0 1 0) from trivial) hstep

theorem fullTable_reachable :
    ReachableTables (Function.update (fun _ => none) 0 (some fullTable)) := by
  have hinsert : idtblInsert smallTable 3 30 = some (.ok, fullTable) := by decide
  have hstep : Step (Function.update (fun _ => none) 0 (some smallTable)) (.insert 0 3 30)
      (Function.update (fun _ => none) 0 (some fullTable)) := by
    refine ⟨.code .ok, ?_⟩
    simp only [call, Function.update_self, hinsert, Function.update_idem]
    rfl
  exact Reachable.step smallTable_reachable (show Harmless _ (.insert 0 3 30) from trivial) hstep

/-- The table that is full does not show the reserved key. -/
theorem reserved_key_absent_iff_full :
    ReservedHidden fullTable ∧ ∃ contents, ReservedAbsent fullTable contents := by
  have hhidden : ReservedHidden fullTable := by
    refine ⟨0, le_refl 0, by decide, ?_, .inr rfl⟩
    intro i _ hi
    rw [Nat.le_zero.mp hi]
    decide
  have htable : Function.update (fun _ => none) 0 (some fullTable) 0 = some fullTable := by
    rw [Function.update_self]
  obtain ⟨contents, -, habsent⟩ := reserved_key_absent_iff fullTable_reachable htable
  exact ⟨hhidden, contents, habsent.mpr ⟨hhidden, .inr (by decide)⟩⟩

/-- A fresh table holds the reserved key, and removing it leaves a table of
`UINT32_MAX` entries. -/
theorem reserved_key_in_empty_table :
    ReachableTables (Function.update (fun _ => none) 0 (some smallTable)) ∧
      (∀ contents, ¬ReservedAbsent smallTable contents) ∧
      idtblRemove smallTable uint32Max =
        some (.ok, ⟨{ smallTable.header with size := uint32Max }, smallTable.entries⟩) := by
  have hcontains : idtblContains smallTable uint32Max = some true := by decide
  refine ⟨smallTable_reachable, ?_, by decide⟩
  intro contents habsent
  have hnone := habsent.contains
  rw [hcontains] at hnone
  cases hnone

end Yans.Util.Idtbl
