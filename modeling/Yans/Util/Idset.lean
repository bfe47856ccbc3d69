import Mathlib.Algebra.Ring.Nat
import Mathlib.Data.List.Basic
import Mathlib.Data.List.GetD
import Yans.Library.Refinement
import Mathlib.Data.Finset.Basic

/-! `lib/util/idset.c`: ids that are handed out from a bit set in words of an
unsigned int, where a bit is one as long as its id is not in use. -/
namespace Yans.Util.Idset

def intMax : ℕ := 2 ^ 31 - 1

structure IdsetCtx where
  full : Bool
  lastId : ℕ
  elems : List (BitVec 32)
deriving DecidableEq

/-- `CEIL_INTBITS`, kept in an unsigned int. -/
def ceilIntbits (nids : ℕ) : ℕ := (nids + 31) / 32 * 32 % 2 ^ 32

def idsetNew (nids : ℕ) : Option IdsetCtx :=
  if nids = 0 ∨ nids > intMax ∨ ceilIntbits nids > intMax then none
  else some ⟨false, nids - 1, List.replicate (ceilIntbits nids / 32) (BitVec.allOnes 32)⟩

/-- `ffs`, which counts from one, less one. -/
def firstSet (elem : BitVec 32) : Option ℕ := (List.range 32).find? (elem.getLsbD ·)

/-- The loop of `idset_use_next` from the element `i` on. -/
def useNextLoop (i : ℕ) : List (BitVec 32) → Option (ℕ × List (BitVec 32))
  | [] => none
  | elem :: elems =>
    match firstSet elem with
    | some bit => some (i * 32 + bit, (elem &&& ~~~(1#32 <<< bit)) :: elems)
    | none => (useNextLoop (i + 1) elems).map fun (id, elems) => (id, elem :: elems)

/-- `none` is the return value -1. -/
def idsetUseNext (ctx : IdsetCtx) : Option ℕ × IdsetCtx :=
  if ctx.full then (none, ctx)
  else
    match useNextLoop 0 ctx.elems with
    | none => (none, ctx)
    | some (id, elems) =>
      if id > ctx.lastId then (none, { ctx with full := true, elems := elems })
      else (some id, { ctx with elems := elems })

def idsetClear (ctx : IdsetCtx) (id : ℤ) : IdsetCtx :=
  if id < 0 ∨ id > ctx.lastId then ctx
  else
    let elem := id.toNat / 32
    let bit := id.toNat % 32
    if elem < ctx.elems.length then
      { ctx with
        full := false
        elems := ctx.elems.modify elem fun word => word ||| 1#32 <<< bit }
    else ctx

def bitAt (elems : List (BitVec 32)) (j : ℕ) : Bool := (elems.getD (j / 32) 0#32).getLsbD (j % 32)

theorem bitAt_cons (elem : BitVec 32) (elems : List (BitVec 32)) (j : ℕ) :
    bitAt (elem :: elems) j = if j < 32 then elem.getLsbD j else bitAt elems (j - 32) := by
  unfold bitAt
  split
  · rename_i hj
    rw [Nat.div_eq_of_lt hj, Nat.mod_eq_of_lt hj, List.getD_cons_zero]
  · rename_i hj
    have hdiv : j / 32 = (j - 32) / 32 + 1 := by omega
    have hmod : j % 32 = (j - 32) % 32 := by omega
    rw [hdiv, hmod, List.getD_cons_succ]

variable {elems : List (BitVec 32)}

theorem bitAt_of_ge {j : ℕ} (h : 32 * elems.length ≤ j) :
    bitAt elems j = false := by
  rw [bitAt, List.getD_eq_default elems 0#32 (by omega), BitVec.getLsbD_zero]

theorem firstSet_some {elem : BitVec 32} {bit : ℕ} (h : firstSet elem = some bit) :
    bit < 32 ∧ elem.getLsbD bit = true ∧ ∀ j < bit, elem.getLsbD j = false := by
  obtain ⟨hbit, i, hi, hget, hbefore⟩ := List.find?_eq_some_iff_getElem.mp h
  rw [List.getElem_range] at hget
  subst hget
  rw [List.length_range] at hi
  refine ⟨hi, hbit, fun j hj => ?_⟩
  have hnot := hbefore j hj
  rwa [List.getElem_range, Bool.not_eq_true', ] at hnot

theorem firstSet_none {elem : BitVec 32} (h : firstSet elem = none) (j : ℕ) :
    elem.getLsbD j = false := by
  by_cases hj : j < 32
  · have hnot := List.find?_eq_none.mp h j (List.mem_range.mpr hj)
    exact Bool.eq_false_iff.mpr hnot
  · exact BitVec.getLsbD_of_ge elem j (not_lt.mp hj)

theorem useNextLoop_some : ∀ {i id : ℕ} {after : List (BitVec 32)},
    useNextLoop i elems = some (id, after) →
      ∃ bit, id = i * 32 + bit ∧ bitAt elems bit = true ∧ after.length = elems.length ∧
        (∀ j < bit, bitAt elems j = false) ∧
        ∀ j, bitAt after j = (bitAt elems j && decide (j ≠ bit)) := by
  induction elems with
  | nil => exact fun h => nomatch h
  | cons elem elems ih =>
    intro i id after h
    unfold useNextLoop at h
    cases hfirst : firstSet elem with
    | some bit =>
      rw [hfirst] at h
      cases h
      obtain ⟨hlt, hbit, hbefore⟩ := firstSet_some hfirst
      refine ⟨bit, rfl, ?_, rfl, fun j hj => ?_, fun j => ?_⟩
      · rw [bitAt_cons, if_pos hlt, hbit]
      · rw [bitAt_cons, if_pos (by omega), hbefore j hj]
      · rw [bitAt_cons, bitAt_cons]
        by_cases hj : j < 32
        · have hmask : (~~~(1#32 <<< bit)).getLsbD j = decide (j ≠ bit) := by
            rw [BitVec.getLsbD_not, BitVec.getLsbD_shiftLeft, BitVec.getLsbD_one]
            by_cases heq : j = bit
            · simp [heq, hlt]
            · have hshift : j < bit ∨ j - bit ≠ 0 := by omega
              cases hshift <;> simp_all
          rw [if_pos hj, if_pos hj, BitVec.getLsbD_and, hmask]
        · rw [if_neg hj, if_neg hj, decide_eq_true (by omega), Bool.and_true]
    | none =>
      rw [hfirst] at h
      obtain ⟨⟨id', rest⟩, hrest, heq⟩ := Option.map_eq_some_iff.mp h
      cases heq
      obtain ⟨bit, rfl, hbit, hlength, hbefore, hafter⟩ := ih hrest
      have hnone := firstSet_none hfirst
      refine ⟨bit + 32, by omega, ?_, by rw [List.length_cons, hlength, List.length_cons],
        fun j hj => ?_, fun j => ?_⟩
      · rw [bitAt_cons, if_neg (by omega), Nat.add_sub_cancel, hbit]
      · rw [bitAt_cons]
        split
        · exact hnone j
        · exact hbefore (j - 32) (by omega)
      · rw [bitAt_cons, bitAt_cons]
        by_cases hj : j < 32
        · rw [if_pos hj, if_pos hj, hnone j, Bool.false_and]
        · have hsame : (j - 32 ≠ bit) = (j ≠ bit + 32) := by rw [ne_eq, ne_eq]; congr 1; apply propext; omega
          rw [if_neg hj, if_neg hj, hafter (j - 32)]
          simp only [hsame]

theorem useNextLoop_none : ∀ {i : ℕ},
    useNextLoop i elems = none → ∀ j, bitAt elems j = false := by
  induction elems with
  | nil => exact fun _ j => bitAt_of_ge (Nat.zero_le j)
  | cons elem elems ih =>
    intro i h j
    unfold useNextLoop at h
    cases hfirst : firstSet elem with
    | some bit =>
      rw [hfirst] at h
      cases h
    | none =>
      rw [hfirst] at h
      rw [bitAt_cons]
      split
      · exact firstSet_none hfirst j
      · exact ih (Option.map_eq_none_iff.mp h) (j - 32)

theorem bitAt_modify_or {id : ℕ} (hid : id / 32 < elems.length) (j : ℕ) :
    bitAt (elems.modify (id / 32) fun word => word ||| 1#32 <<< (id % 32)) j =
      (bitAt elems j || decide (j = id)) := by
  unfold bitAt
  rw [List.getD_eq_getElem?_getD, List.getD_eq_getElem?_getD, List.getElem?_modify]
  by_cases hword : id / 32 = j / 32
  · rw [← hword, List.getElem?_eq_getElem hid, Option.map_eq_map, Option.map_some, if_pos rfl,
      Option.getD_some, Option.getD_some, BitVec.getLsbD_or, BitVec.getLsbD_shiftLeft,
      BitVec.getLsbD_one]
    congr 1
    by_cases heq : j = id
    · subst heq
      simp [Nat.mod_lt]
    · have hmod : j % 32 ≠ id % 32 := by omega
      have hlt : j % 32 < id % 32 ∨ j % 32 - id % 32 ≠ 0 := by omega
      cases hlt <;> simp_all
  · have hne : j ≠ id := fun heq => hword (heq ▸ rfl)
    cases elems[j / 32]? <;> simp [hword, hne]

def InUse (ctx : IdsetCtx) (id : ℕ) : Prop := id ≤ ctx.lastId ∧ bitAt ctx.elems id = false

instance (ctx : IdsetCtx) : DecidablePred (InUse ctx) := fun _ => inferInstanceAs (Decidable (_ ∧ _))

/-- The words hold all ids, and all of them are in use once no more are handed
out. -/
structure WellFormed (ctx : IdsetCtx) : Prop where
  lastId_lt : ctx.lastId < 32 * ctx.elems.length
  full : ctx.full = true → ∀ id ≤ ctx.lastId, InUse ctx id

variable {ctx : IdsetCtx}

theorem idsetNew_spec {nids : ℕ} (h : idsetNew nids = some ctx) :
    WellFormed ctx ∧ ctx.lastId + 1 = nids ∧ nids ≤ intMax ∧ ∀ id, ¬ InUse ctx id := by
  unfold idsetNew at h
  split at h
  · cases h
  · rename_i hvalid
    simp only [not_or, not_lt, gt_iff_lt] at hvalid
    obtain ⟨hpos, hmax, -⟩ := hvalid
    cases h
    have hceil : ceilIntbits nids / 32 = (nids + 31) / 32 := by
      have hsmall : intMax < 2 ^ 31 := by decide
      unfold ceilIntbits
      omega
    have hlast : nids - 1 < 32 * ((nids + 31) / 32) := by omega
    refine ⟨⟨?_, nofun⟩, by dsimp only; omega, hmax, ?_⟩
    · dsimp only
      rwa [List.length_replicate, hceil]
    · rintro id ⟨hid, hbit⟩
      dsimp only at hid hbit
      have hword : id / 32 < ceilIntbits nids / 32 := by omega
      rw [bitAt, List.getD_replicate _ hword, BitVec.getLsbD_allOnes] at hbit
      simp [Nat.mod_lt] at hbit

theorem idsetUseNext_spec (h : WellFormed ctx) :
    WellFormed (idsetUseNext ctx).2 ∧ (idsetUseNext ctx).2.lastId = ctx.lastId ∧
      match (idsetUseNext ctx).1 with
      | some id => id ≤ ctx.lastId ∧ ¬ InUse ctx id ∧ (∀ j < id, InUse ctx j) ∧
          ∀ j, InUse (idsetUseNext ctx).2 j ↔ InUse ctx j ∨ j = id
      | none => (∀ j ≤ ctx.lastId, InUse ctx j) ∧
          ∀ j, InUse (idsetUseNext ctx).2 j ↔ InUse ctx j := by
  unfold idsetUseNext
  split
  · rename_i hfull
    exact ⟨h, rfl, h.full hfull, fun _ => Iff.rfl⟩
  · rename_i hfree
    split
    · rename_i hnone
      have hbits := useNextLoop_none hnone
      exact ⟨h, rfl, fun j hj => ⟨hj, hbits j⟩, fun _ => Iff.rfl⟩
    · rename_i id after hsome
      obtain ⟨bit, hid, hbit, hlength, hbefore, hafter⟩ := useNextLoop_some hsome
      rw [Nat.zero_mul, Nat.zero_add] at hid
      subst hid
      split
      · rename_i hbeyond
        have hall : ∀ j ≤ ctx.lastId, InUse ctx j := fun j hj => ⟨hj, hbefore j (by omega)⟩
        have hsame : ∀ j, InUse { ctx with full := true, elems := after } j ↔ InUse ctx j := by
          intro j
          refine and_congr_right fun hj => ?_
          rw [hafter j, decide_eq_true (show j ≠ id by dsimp only at hj; omega), Bool.and_true]
        refine ⟨⟨?_, fun _ j hj => (hsame j).mpr (hall j hj)⟩, rfl, hall, hsame⟩
        rw [hlength]
        exact h.lastId_lt
      · rename_i hwithin
        refine ⟨⟨?_, fun hfull => absurd hfull hfree⟩, rfl, not_lt.mp hwithin, ?_,
          fun j hj => ⟨by omega, hbefore j hj⟩, fun j => ?_⟩
        · dsimp only
          rw [hlength]
          exact h.lastId_lt
        · rintro ⟨-, hzero⟩
          rw [hbit] at hzero
          cases hzero
        · unfold InUse
          rw [hafter j]
          by_cases hj : j = id
          · simp [hj, not_lt.mp hwithin]
          · simp [hj]

theorem idsetClear_spec (h : WellFormed ctx) {id : ℕ} (hid : id ≤ ctx.lastId) :
    WellFormed (idsetClear ctx id) ∧ (idsetClear ctx id).lastId = ctx.lastId ∧
      ∀ j, InUse (idsetClear ctx id) j ↔ InUse ctx j ∧ j ≠ id := by
  have hlt := h.lastId_lt
  have hword : id / 32 < ctx.elems.length := by omega
  have hclear : idsetClear ctx id =
      { ctx with
        full := false
        elems := ctx.elems.modify (id / 32) fun word => word ||| 1#32 <<< (id % 32) } := by
    unfold idsetClear
    rw [if_neg (by omega)]
    rw [Int.toNat_natCast, if_pos hword]
  rw [hclear]
  refine ⟨⟨?_, nofun⟩, rfl, fun j => ?_⟩
  · dsimp only
    rwa [List.length_modify]
  · unfold InUse
    rw [bitAt_modify_or hword]
    simp [and_assoc]

end Yans.Util.Idset

/-! An idset is the set of the ids in use below a bound. The surplus bits of the
last word and the full flag do not show. -/
namespace Yans.Util.Idset

open Library.Refinement

inductive Call where
  | useNext
  | clear (id : ℤ)
deriving DecidableEq

/-- What a call returns; `none` is -1. -/
inductive Reply where
  | id (id : Option ℕ)
  | done
deriving DecidableEq

def call (ctx : IdsetCtx) : Call → Option (Reply × IdsetCtx)
  | .useNext => some (.id (idsetUseNext ctx).1, (idsetUseNext ctx).2)
  | .clear id => some (.done, idsetClear ctx id)

/-- The smallest id of `0..nids-1` that is not in use. -/
def smallestFree (nids : ℕ) (used : Finset ℕ) : Option ℕ :=
  (List.range nids).find? (· ∉ used)

def setCall (nids : ℕ) (used : Finset ℕ) : Call → Reply × Finset ℕ
  | .useNext =>
    match smallestFree nids used with
    | some id => (.id (some id), insert id used)
    | none => (.id none, used)
  | .clear id => (.done, if 0 ≤ id ∧ id < nids then used.erase id.toNat else used)

variable {nids : ℕ}

theorem smallestFree_eq_some {id : ℕ} {used : Finset ℕ} (hid : id < nids) (hfree : id ∉ used)
    (hbefore : ∀ j < id, j ∈ used) : smallestFree nids used = some id := by
  refine List.find?_eq_some_iff_getElem.mpr ⟨decide_eq_true hfree, id, ?_, ?_, ?_⟩
  · rwa [List.length_range]
  · exact List.getElem_range _
  · intro j hj
    simpa using hbefore j hj

theorem smallestFree_eq_none {used : Finset ℕ} (hall : ∀ j < nids, j ∈ used) :
    smallestFree nids used = none := by
  apply List.find?_eq_none.mpr
  intro j hj
  simpa using hall j (List.mem_range.mp hj)

/-- The idset has the ids `0..nids-1`, and those of `used` are in use. -/
structure Holds (nids : ℕ) (ctx : IdsetCtx) (used : Finset ℕ) : Prop where
  wellFormed : WellFormed ctx
  lastId : ctx.lastId + 1 = nids
  inUse : ∀ id, InUse ctx id ↔ id ∈ used

theorem Holds.new {ctx : IdsetCtx} (h : idsetNew nids = some ctx) :
    Holds nids ctx ∅ := by
  obtain ⟨hwf, hlast, -, hnone⟩ := idsetNew_spec h
  exact ⟨hwf, hlast, fun id => iff_of_false (hnone id) (Finset.notMem_empty id)⟩

theorem idsetClear_invalid {ctx : IdsetCtx} {id : ℤ} (h : id < 0 ∨ id > ctx.lastId) :
    idsetClear ctx id = ctx := if_pos h

theorem call_refines (nids : ℕ) :
    Simulates call (setCall nids) (fun _ _ => True) (Holds nids) := by
  intro ctx used next h _
  have hlast := h.lastId
  cases next with
  | useNext =>
    obtain ⟨hwf, hsame, hresult⟩ := idsetUseNext_spec h.wellFormed
    refine ⟨(idsetUseNext ctx).2, ?_⟩
    cases hid : (idsetUseNext ctx).1 with
    | some id =>
      rw [hid] at hresult
      obtain ⟨hle, hfree, hbefore, hafter⟩ := hresult
      have hspec := @smallestFree_eq_some nids id used (by omega) (mt (h.inUse id).mpr hfree)
        fun j hj => (h.inUse j).mp (hbefore j hj)
      simp only [setCall, hspec, call, hid]
      refine ⟨trivial, hwf, by omega, ?_⟩
      intro j
      rw [hafter, h.inUse, Finset.mem_insert, or_comm]
    | none =>
      rw [hid] at hresult
      obtain ⟨hall, hafter⟩ := hresult
      have hspec := @smallestFree_eq_none nids used
        fun j hj => (h.inUse j).mp (hall j (by omega))
      simp only [setCall, hspec, call, hid]
      exact ⟨trivial, hwf, by omega, fun j => (hafter j).trans (h.inUse j)⟩
  | clear id =>
    refine ⟨idsetClear ctx id, rfl, ?_⟩
    by_cases hvalid : 0 ≤ id ∧ id < nids
    · obtain ⟨n, rfl⟩ := Int.eq_ofNat_of_zero_le hvalid.1
      obtain ⟨hwf, hsame, hafter⟩ := idsetClear_spec h.wellFormed (show n ≤ ctx.lastId by omega)
      simp only [setCall, if_pos hvalid]
      refine ⟨hwf, by omega, ?_⟩
      intro j
      rw [hafter, h.inUse, Finset.mem_erase, Int.toNat_natCast, and_comm]
    · rw [idsetClear_invalid (by omega)]
      simp only [setCall, if_neg hvalid]
      exact h

/-- Over any calls an idset hands out the smallest id that is not in use, and
refuses exactly when all are; a clear frees its id, or does nothing at all. -/
theorem idset_smallest_free {nids : ℕ} {ctx : IdsetCtx} (hnew : idsetNew nids = some ctx)
    (calls : List Call) :
    ∃ after, runCalls call ctx calls = some ((specCalls (setCall nids) ∅ calls).1, after) ∧
      (∀ id, InUse after id ↔ id ∈ (specCalls (setCall nids) ∅ calls).2) ∧
      ∀ id : ℤ, ¬ (0 ≤ id ∧ id < nids) → idsetClear after id = after := by
  obtain ⟨after, hrun, hholds⟩ := (call_refines nids).runCalls calls (Holds.new hnew)
    (admits_of_forall calls ∅ fun _ _ => trivial)
  have hlast := hholds.lastId
  exact ⟨after, hrun, hholds.inUse, fun id hid => idsetClear_invalid (by omega)⟩

/-- Three ids in one word: the surplus bits are used up by the refusals. -/
theorem idset_smallest_free_three :
    ∃ after, runCalls call ⟨false, 2, [BitVec.allOnes 32]⟩
        [.useNext, .useNext, .clear 0, .useNext, .useNext, .useNext, .useNext, .clear 7, .clear 1,
          .useNext, .useNext] =
      some ([.id (some 0), .id (some 1), .done, .id (some 0), .id (some 2), .id none, .id none,
        .done, .done, .id (some 1), .id none], after) := by
  have hnew : idsetNew 3 = some ⟨false, 2, [BitVec.allOnes 32]⟩ := by decide
  obtain ⟨after, hrun, -⟩ := idset_smallest_free hnew
    [.useNext, .useNext, .clear 0, .useNext, .useNext, .useNext, .useNext, .clear 7, .clear 1,
      .useNext, .useNext]
  have hreplies : (specCalls (setCall 3) ∅
      [.useNext, .useNext, .clear 0, .useNext, .useNext, .useNext, .useNext, .clear 7, .clear 1,
        .useNext, .useNext]).1 =
      [.id (some 0), .id (some 1), .done, .id (some 0), .id (some 2), .id none, .id none,
        .done, .done, .id (some 1), .id none] := by decide
  rw [hreplies] at hrun
  exact ⟨after, hrun⟩

end Yans.Util.Idset
