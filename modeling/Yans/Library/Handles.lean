import Mathlib.Logic.Function.Basic

/-! Numbers that a system hands out and takes back, such as descriptors and
process ids. Each number in use has one owner, and an owner is at one place; a
step at a place leaves what is owned elsewhere as it is. -/
namespace Yans.Library.Handles

variable {Handle Owner Place : Type*} [DecidableEq Handle]

abbrev Table (Handle Owner : Type*) := Handle → Option Owner

def give (handle : Handle) (owner : Owner) (table : Table Handle Owner) : Table Handle Owner :=
  Function.update table handle (some owner)

def take (handle : Handle) (table : Table Handle Owner) : Table Handle Owner :=
  Function.update table handle none

/-- What is owned at other places than `here` is owned after a step. -/
def Kept (place : Owner → Place) (here : Place) (before after : Table Handle Owner) : Prop :=
  ∀ handle owner, place owner ≠ here → before handle = some owner → after handle = some owner

section

variable {place : Owner → Place} {here : Place} {table before middle after : Table Handle Owner}
  {handle : Handle}

omit [DecidableEq Handle] in
theorem Kept.refl : Kept place here table table := fun _ _ _ h => h

omit [DecidableEq Handle] in
theorem Kept.trans (hfirst : Kept place here before middle) (hsecond : Kept place here middle after) :
    Kept place here before after :=
  fun handle owner hne h => hsecond handle owner hne (hfirst handle owner hne h)

omit [DecidableEq Handle] in
theorem Kept.at_place {owner : Owner} (h : Kept id owner before after) (hplace : place owner = here) :
    Kept place here before after := by
  intro handle other hne hother
  refine h handle other ?_ hother
  rintro rfl
  exact hne hplace

@[simp] theorem give_self (owner : Owner) : give handle owner table handle = some owner :=
  Function.update_self ..

theorem give_of_ne {other : Handle} (hne : other ≠ handle) (owner : Owner) :
    give handle owner table other = table other := Function.update_of_ne hne ..

theorem take_of_ne {other : Handle} (hne : other ≠ handle) : take handle table other = table other :=
  Function.update_of_ne hne ..

@[simp] theorem take_self : take handle table handle = none := Function.update_self ..

theorem Kept.give_free (h : table handle = none) (owner : Owner) :
    Kept place here table (give handle owner table) := by
  intro other owner' _ hother
  rw [give_of_ne, hother]
  rintro rfl
  rw [h] at hother
  cases hother

theorem Kept.of_owned {owner : Owner} (h : table handle = some owner) (hplace : place owner = here)
    {entry : Option Owner} : Kept place here table (Function.update table handle entry) := by
  intro other owner' hne hother
  rw [Function.update_of_ne, hother]
  rintro rfl
  rw [h] at hother
  rw [← Option.some.inj hother] at hne
  exact hne hplace

theorem Kept.give_owned {owner owner' : Owner} (h : table handle = some owner)
    (hplace : place owner = here) : Kept place here table (give handle owner' table) :=
  .of_owned h hplace

theorem Kept.take_owned {owner : Owner} (h : table handle = some owner)
    (hplace : place owner = here) : Kept place here table (take handle table) :=
  .of_owned h hplace

end

end Yans.Library.Handles
