import Mathlib.Data.Nat.Notation
import Mathlib.Logic.Function.Basic

/-! Data refinement for call-based interfaces: a partial implementation, a
total specification, and the rule that lifts agreement on one call to
agreement on every run. -/
namespace Yans.Library.Refinement

variable {State Abstract Call Reply : Type}

/-- A sequence of calls with the replies in order; `none` is a call that does
not return. -/
def runCalls (call : State → Call → Option (Reply × State)) (state : State) :
    List Call → Option (List Reply × State)
  | [] => some ([], state)
  | next :: rest => do
    let (reply, state) ← call state next
    let (replies, state) ← runCalls call state rest
    pure (reply :: replies, state)

def specCalls (spec : Abstract → Call → Reply × Abstract) (state : Abstract) :
    List Call → List Reply × Abstract
  | [] => ([], state)
  | next :: rest =>
    let (reply, state) := spec state next
    let (replies, state) := specCalls spec state rest
    (reply :: replies, state)

def Admits (spec : Abstract → Call → Reply × Abstract) (allowed : Abstract → Call → Prop)
    (state : Abstract) : List Call → Prop
  | [] => True
  | next :: rest => allowed state next ∧ Admits spec allowed (spec state next).2 rest

instance Admits.decidable (spec : Abstract → Call → Reply × Abstract)
    (allowed : Abstract → Call → Prop) [∀ state next, Decidable (allowed state next)] :
    ∀ (state : Abstract) (calls : List Call), Decidable (Admits spec allowed state calls)
  | _, [] => .isTrue trivial
  | state, next :: rest =>
    have := Admits.decidable spec allowed (spec state next).2 rest
    inferInstanceAs (Decidable (_ ∧ _))

/-- One allowed call: the implementation returns with the reply of the
specification, and the two states stay related. -/
def Simulates (call : State → Call → Option (Reply × State))
    (spec : Abstract → Call → Reply × Abstract) (allowed : Abstract → Call → Prop)
    (R : State → Abstract → Prop) : Prop :=
  ∀ state abstract next, R state abstract → allowed abstract next →
    ∃ after, call state next = some ((spec abstract next).1, after) ∧
      R after (spec abstract next).2

variable {call : State → Call → Option (Reply × State)}
  {spec : Abstract → Call → Reply × Abstract} {allowed : Abstract → Call → Prop}

theorem admits_of_forall {valid : Call → Prop} (calls : List Call) :
    ∀ state : Abstract, (∀ next ∈ calls, valid next) →
      Admits spec (fun _ next => valid next) state calls := by
  induction calls with
  | nil => exact fun _ _ => trivial
  | cons next rest ih =>
    intro state hvalid
    exact ⟨hvalid next List.mem_cons_self,
      ih _ fun other hother => hvalid other (List.mem_cons_of_mem _ hother)⟩

/-- The simulation rule. The induction is on the calls; the relation between
the two states is the invariant. -/
theorem Simulates.runCalls {R : State → Abstract → Prop}
    (hcall : Simulates call spec allowed R) (calls : List Call) :
    ∀ {state abstract}, R state abstract → Admits spec allowed abstract calls →
      ∃ after, Refinement.runCalls call state calls = some ((specCalls spec abstract calls).1, after) ∧
        R after (specCalls spec abstract calls).2 := by
  induction calls with
  | nil =>
    intro state abstract hrel _
    exact ⟨state, rfl, hrel⟩
  | cons next rest ih =>
    intro state abstract hrel hadmits
    obtain ⟨mid, hrun, hmid⟩ := hcall _ _ next hrel hadmits.1
    obtain ⟨after, hrest, hafter⟩ := ih hmid hadmits.2
    exact ⟨after, by simp [Refinement.runCalls, specCalls, hrun, hrest], hafter⟩

theorem forall_reply_specCalls {Good : Reply → Prop}
    (hgood : ∀ state next, Good (spec state next).1) (calls : List Call) :
    ∀ state, ∀ reply ∈ (specCalls spec state calls).1, Good reply := by
  induction calls with
  | nil => simp [specCalls]
  | cons next rest ih =>
    intro state reply hreply
    simp only [specCalls, List.mem_cons] at hreply
    obtain rfl | hrest := hreply
    · exact hgood _ _
    · exact ih _ reply hrest

section Handles

variable {Ctx Contents : Type}

def Agree (Rel : Ctx → Contents → Prop) (objects : ℕ → Option Ctx)
    (values : ℕ → Option Contents) : Prop :=
  ∀ handle, objects handle = none ∧ values handle = none ∨
    ∃ ctx contents, objects handle = some ctx ∧ values handle = some contents ∧ Rel ctx contents

variable {Rel : Ctx → Contents → Prop} {objects : ℕ → Option Ctx} {values : ℕ → Option Contents}

theorem agree_none : Agree Rel (fun _ => none) (fun _ => none) :=
  fun _ => .inl ⟨rfl, rfl⟩

theorem Agree.update (h : Agree Rel objects values) (handle : ℕ) {ctx : Ctx}
    {contents : Contents} (hrel : Rel ctx contents) :
    Agree Rel (Function.update objects handle (some ctx))
      (Function.update values handle (some contents)) := by
  intro other
  by_cases hother : other = handle
  · subst hother
    right
    exact ⟨ctx, contents, by simp, by simp, hrel⟩
  · simpa [hother] using h other

end Handles

end Yans.Library.Refinement
