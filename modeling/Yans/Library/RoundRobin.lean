import Yans.Library.Cycles
import Mathlib.Data.List.Basic
import Mathlib.Data.List.Forall2
import Mathlib.Data.List.GetD
import Mathlib.Data.List.Nodup
import Mathlib.Data.List.Perm.Basic
import Mathlib.Order.Nat

/-! A ring of iterators that take turns: the next one that is not used up is
asked for an item. Whatever the turns, the items of all iterators come out once
each. -/
namespace Yans.Library.RoundRobin

open Cycles

/-- The loop that looks for a slot that is not dead, from the one after `start`
on and all the way round. -/
def scan (dead : ℕ → Bool) (n start : ℕ) : ℕ → ℕ → ℕ
  | 0, curr => curr
  | fuel + 1, curr =>
    let curr := (curr + 1) % n
    if curr ≠ start ∧ dead curr = true then scan dead n start fuel curr else curr

theorem scan_from {dead : ℕ → Bool} {n start : ℕ} (hstart : start < n) (fuel : ℕ) :
    ∀ d, d + fuel = n → 0 < fuel →
    (∀ i, 0 < i → i ≤ d → dead ((start + i) % n) = true) →
    ∃ e, scan dead n start fuel ((start + d) % n) = (start + e) % n ∧
      (∀ i, 0 < i → i < e → dead ((start + i) % n) = true) ∧
      (dead ((start + e) % n) = true → e = n) := by
  induction fuel with
  | zero => exact fun d _ h => absurd h (Nat.lt_irrefl 0)
  | succ fuel ih =>
    intro d hd _ hdead
    have hnext : ((start + d) % n + 1) % n = (start + (d + 1)) % n := by
      rw [Nat.mod_add_mod, Nat.add_assoc]
    unfold scan
    rw [hnext]
    by_cases hfound : (start + (d + 1)) % n ≠ start ∧ dead ((start + (d + 1)) % n) = true
    · rw [if_pos hfound]
      have hfuel : 0 < fuel := by
        apply Nat.pos_of_ne_zero
        intro h
        apply hfound.1
        rw [show d + 1 = n by omega, Nat.add_mod_right, Nat.mod_eq_of_lt hstart]
      apply ih (d + 1) (by omega) hfuel
      intro i hi hle
      by_cases hlast : i = d + 1
      · rw [hlast]
        exact hfound.2
      · exact hdead i hi (by omega)
    · rw [if_neg hfound]
      refine ⟨d + 1, rfl, fun i hi hlt => hdead i hi (by omega), fun h => ?_⟩
      have hround : (start + (d + 1)) % n = start := by
        by_contra hne
        exact hfound ⟨hne, h⟩
      by_contra hne
      have hlt : d + 1 < n := by omega
      by_cases hwrap : start + (d + 1) < n
      · rw [Nat.mod_eq_of_lt hwrap] at hround
        omega
      · rw [Nat.mod_eq_sub_mod (by omega), Nat.mod_eq_of_lt (by omega)] at hround
        omega

theorem scan_spec {dead : ℕ → Bool} {n start : ℕ} (hstart : start < n) :
    scan dead n start n start < n ∧
      (dead (scan dead n start n start) = true →
        scan dead n start n start = start ∧ ∀ i < n, dead i = true) := by
  have hpos : 0 < n := Nat.zero_lt_of_lt hstart
  obtain ⟨e, hscan, hdead, hend⟩ := @scan_from dead n start hstart n 0 (by omega) hpos
    (fun i hi hle => by omega)
  rw [Nat.add_zero, Nat.mod_eq_of_lt hstart] at hscan
  rw [hscan]
  refine ⟨Nat.mod_lt _ hpos, fun h => ?_⟩
  have hround : (start + e) % n = start := by
    rw [hend h, Nat.add_mod_right, Nat.mod_eq_of_lt hstart]
  refine ⟨hround, fun i hi => ?_⟩
  by_cases hi' : i = start
  · rw [hi', ← hround]
    exact h
  · have heq : (start + (i + n - start) % n) % n = i := by
      rw [Nat.add_mod_mod, show start + (i + n - start) = i + n by omega, Nat.add_mod_right,
        Nat.mod_eq_of_lt hi]
    rw [← heq]
    apply hdead
    · apply Nat.pos_of_ne_zero
      intro hzero
      rw [hzero, Nat.add_zero, Nat.mod_eq_of_lt hstart] at heq
      exact hi' heq.symm
    · rw [hend h]
      exact Nat.mod_lt _ hpos

variable {map : List ℤ}

section

variable {τ β : Type*}

/-- The iterators in their order, `none` for one that is used up, and whose turn
it was. -/
structure Rota (τ : Type*) where
  slots : List (Option τ)
  index : ℕ

def Rota.slot (rota : Rota τ) (i : ℕ) : Option τ := rota.slots.getD i none

/-- `advance` gives an item, if there is one, and the iterator, if it may have
more. The fuel bounds how many slots are found used up on the way. -/
def next (advance : τ → Option (Option β × Option τ)) : ℕ → Rota τ → Option (Option β × Rota τ)
  | 0, _ => none
  | fuel + 1, rota =>
    let n := rota.slots.length
    let curr := scan (fun i => (rota.slot i).isNone) n rota.index n rota.index
    match rota.slot curr with
    | none => some (none, rota)
    | some t =>
      match advance t with
      | none => none
      | some (none, _) => next advance fuel ⟨rota.slots.set curr none, curr⟩
      | some (some b, rest) => some (some b, ⟨rota.slots.set curr rest, curr⟩)

/-- The items of an iterator from the state `t` on. -/
inductive Drains (advance : τ → Option (Option β × Option τ)) : τ → List β → Prop
  | stop {t : τ} {rest : Option τ} (h : advance t = some (none, rest)) : Drains advance t []
  | last {t : τ} {b : β} (h : advance t = some (some b, none)) : Drains advance t [b]
  | item {t t' : τ} {b : β} {bs : List β} (h : advance t = some (some b, some t'))
    (hrest : Drains advance t' bs) : Drains advance t (b :: bs)

def Pending (advance : τ → Option (Option β × Option τ)) : Option τ → List β → Prop
  | none, items => items = []
  | some t, items => Drains advance t items

variable {advance : τ → Option (Option β × Option τ)}

def live (slots : List (Option τ)) : ℕ := slots.countP Option.isSome

theorem pending_at {slots : List (Option τ)} {pending : List (List β)} {s : Option τ}
    (h : List.Forall₂ (Pending advance) slots pending) : ∀ {i : ℕ}, slots[i]? = some s →
    ∃ before after p items q, slots = before ++ s :: after ∧ before.length = i ∧
      pending = p ++ items :: q ∧ List.Forall₂ (Pending advance) before p ∧
      Pending advance s items ∧ List.Forall₂ (Pending advance) after q := by
  induction h with
  | nil => exact fun h => absurd h (by simp)
  | @cons slot items slots pending hslot hslots ih =>
    intro i hi
    cases i with
    | zero =>
      obtain rfl : slot = s := by simpa using hi
      exact ⟨[], slots, [], items, pending, rfl, rfl, rfl, List.Forall₂.nil, hslot, hslots⟩
    | succ i =>
      obtain ⟨before, after, p, items', q, rfl, rfl, rfl, hbefore, hs, hafter⟩ := ih hi
      exact ⟨slot :: before, after, items :: p, items', q, rfl, rfl, rfl,
        List.Forall₂.cons hslot hbefore, hs, hafter⟩

theorem pending_set {before after : List (Option τ)} {p q : List (List β)} {s s' : Option τ}
    {items : List β} (hbefore : List.Forall₂ (Pending advance) before p)
    (hs : Pending advance s' items) (hafter : List.Forall₂ (Pending advance) after q) :
    List.Forall₂ (Pending advance) ((before ++ s :: after).set before.length s')
      (p ++ items :: q) := by
  have hset : (before ++ s :: after).set before.length s' = before ++ s' :: after := by simp
  rw [hset]
  exact List.rel_append hbefore (List.Forall₂.cons hs hafter)

theorem live_set (before after : List (Option τ)) (t : τ) :
    live ((before ++ some t :: after).set before.length none) + 1 =
      live (before ++ some t :: after) := by
  simp [live, Nat.add_assoc]

theorem flatten_nil_of_dead {slots : List (Option τ)} {pending : List (List β)}
    (h : List.Forall₂ (Pending advance) slots pending) (hdead : ∀ s ∈ slots, s = none) :
    pending.flatten = [] := by
  induction h with
  | nil => rfl
  | cons hslot _ ih =>
    rw [hdead _ List.mem_cons_self] at hslot
    rw [List.flatten_cons, hslot, List.nil_append]
    exact ih fun s hs => hdead s (List.mem_cons_of_mem _ hs)

theorem next_spec (fuel : ℕ) : ∀ {rota : Rota τ} {pending : List (List β)},
    live rota.slots < fuel → rota.index < rota.slots.length →
    List.Forall₂ (Pending advance) rota.slots pending →
    (∃ rota', next advance fuel rota = some (none, rota') ∧ pending.flatten = [] ∧
      rota'.slots.length = rota.slots.length ∧ rota'.index < rota.slots.length) ∨
    (∃ b rota' pending', next advance fuel rota = some (some b, rota') ∧
      pending.flatten.Perm (b :: pending'.flatten) ∧
      List.Forall₂ (Pending advance) rota'.slots pending' ∧
      rota'.slots.length = rota.slots.length ∧ rota'.index < rota.slots.length) := by
  induction fuel with
  | zero => exact fun h => absurd h (Nat.not_lt_zero _)
  | succ fuel ih =>
    intro rota pending hfuel hindex hpending
    obtain ⟨hcurr, hdead⟩ := @scan_spec (fun i => (rota.slot i).isNone) _ _ hindex
    unfold next
    dsimp only at hcurr hdead ⊢
    generalize scan (fun i => (rota.slot i).isNone) rota.slots.length rota.index
      rota.slots.length rota.index = curr at hcurr hdead ⊢
    cases hslot : rota.slot curr with
    | none =>
      refine Or.inl ⟨rota, rfl, ?_, rfl, hindex⟩
      apply flatten_nil_of_dead hpending
      intro s hs
      obtain ⟨i, hi, rfl⟩ := List.mem_iff_getElem.mp hs
      have hnone := (hdead (by rw [hslot]; rfl)).2 i hi
      rw [Rota.slot, List.getD_eq_getElem _ _ hi, Option.isNone_iff_eq_none] at hnone
      exact hnone
    | some t =>
      have hget : rota.slots[curr]? = some (some t) := by
        rw [List.getElem?_eq_getElem hcurr, ← hslot, Rota.slot, List.getD_eq_getElem _ _ hcurr]
      obtain ⟨before, after, p, items, q, hslots, rfl, rfl, hbefore, hitems, hafter⟩ :=
        pending_at hpending hget
      rw [hslots] at hfuel hindex hcurr ⊢
      dsimp only
      cases hitems with
      | stop h =>
        rw [h]
        dsimp only
        have hlen : ((before ++ some t :: after).set before.length none).length =
            (before ++ some t :: after).length := List.length_set
        have hlive : live ((before ++ some t :: after).set before.length none) < fuel := by
          rw [← live_set] at hfuel
          exact Nat.lt_of_succ_lt_succ hfuel
        have hstep := @ih ⟨(before ++ some t :: after).set before.length none, before.length⟩
          (p ++ [] :: q) hlive (hcurr.trans_eq hlen.symm) (pending_set hbefore rfl hafter)
        rw [hlen] at hstep
        rw [List.flatten_append, List.flatten_cons] at hstep ⊢
        exact hstep
      | @last _ b h =>
        rw [h]
        refine Or.inr ⟨b, _, p ++ [] :: q, rfl, ?_, pending_set hbefore rfl hafter,
          List.length_set, hcurr⟩
        simp only [List.flatten_append, List.flatten_cons, List.nil_append, List.singleton_append]
        exact List.perm_middle
      | @item _ t' b bs h hrest =>
        rw [h]
        refine Or.inr ⟨b, _, p ++ bs :: q, rfl, ?_, pending_set hbefore hrest hafter,
          List.length_set, hcurr⟩
        simp only [List.flatten_append, List.flatten_cons, List.cons_append]
        exact List.perm_middle

theorem cycle_spec {n : ℕ} {rota : Rota τ} {pending : List (List β)} (hn : rota.slots.length = n)
    (hindex : rota.index < n) (hpending : List.Forall₂ (Pending advance) rota.slots pending) :
    ∃ items final, Cycle (next advance (n + 1)) rota items final ∧ items.Perm pending.flatten ∧
      final.slots.length = n ∧ final.index < n := by
  induction hsize : pending.flatten.length generalizing rota pending with
  | zero =>
    have hnil := List.eq_nil_of_length_eq_zero hsize
    have hfuel : live rota.slots < n + 1 := by
      rw [← hn]
      exact Nat.lt_succ_of_le List.countP_le_length
    obtain ⟨rota', hnext, -, hlen, hindex'⟩ | ⟨b, rota', pending', -, hperm, -⟩ :=
      next_spec (n + 1) hfuel (hindex.trans_eq hn.symm) hpending
    · exact ⟨[], rota', Cycle.finish hnext, by rw [hnil], hlen.trans hn, hindex'.trans_eq hn⟩
    · rw [hnil] at hperm
      exact absurd hperm.length_eq (by simp)
  | succ size ih =>
    have hfuel : live rota.slots < n + 1 := by
      rw [← hn]
      exact Nat.lt_succ_of_le List.countP_le_length
    obtain ⟨rota', -, hnil, -⟩ | ⟨b, rota', pending', hnext, hperm, hpending', hlen, hindex'⟩ :=
      next_spec (n + 1) hfuel (hindex.trans_eq hn.symm) hpending
    · rw [hnil] at hsize
      exact absurd hsize (Nat.zero_ne_add_one size)
    · have hsize' : pending'.flatten.length = size := by
        have hlength := hperm.length_eq
        rw [hsize, List.length_cons] at hlength
        omega
      obtain ⟨items, final, hcycle, hitems, hfinal⟩ := ih (hlen.trans hn) (hindex'.trans_eq hn)
        hpending' hsize'
      exact ⟨b :: items, final, Cycle.item hnext hcycle,
        (hitems.cons b).trans hperm.symm, hfinal⟩

/-! The slots as the code keeps them: a map of indices, negative when used up,
into the states. -/

def slotOf (cell : ℕ → τ) (m : ℤ) : Option τ := if m < 0 then none else some (cell m.toNat)

def view (map : List ℤ) (cell : ℕ → τ) : List (Option τ) := map.map (slotOf cell)

def Distinct (map : List ℤ) : Prop :=
  ∀ (i j : ℕ) (a : ℤ), map[i]? = some a → map[j]? = some a → 0 ≤ a → i = j

@[simp] theorem length_view (map : List ℤ) (cell : ℕ → τ) : (view map cell).length = map.length :=
  List.length_map _

theorem view_getElem? (map : List ℤ) (cell : ℕ → τ) (i : ℕ) :
    (view map cell)[i]? = (map[i]?).map (slotOf cell) :=
  List.getElem?_map

theorem distinct_retire (h : Distinct map) (i : ℕ) : Distinct (map.set i (-1)) := by
  intro j k a hj hk ha
  have hold : ∀ {l : ℕ}, (map.set i (-1))[l]? = some a → map[l]? = some a := by
    intro l hl
    rw [List.getElem?_set] at hl
    split at hl
    · split at hl
      · rw [Option.some.injEq] at hl
        omega
      · exact absurd hl (by simp)
    · exact hl
  exact h j k a (hold hj) (hold hk) ha

variable {cell cell' : ℕ → τ} {a : ℤ}

theorem slotOf_update {i j : ℕ} {b : ℤ} (h : Distinct map)
    (hi : map[i]? = some a) (ha : 0 ≤ a) (hcell : ∀ k, k ≠ a.toNat → cell' k = cell k)
    (hj : map[j]? = some b) (hne : i ≠ j) : slotOf cell' b = slotOf cell b := by
  unfold slotOf
  split
  · rfl
  · rename_i hb
    rw [hcell]
    intro hsame
    have hab : b = a := by omega
    rw [hab] at hj
    exact hne (h i j a hi hj ha)

theorem view_update {i : ℕ} (h : Distinct map)
    (hi : map[i]? = some a) (ha : 0 ≤ a) (hcell : ∀ k, k ≠ a.toNat → cell' k = cell k) :
    view map cell' = (view map cell).set i (some (cell' a.toNat)) := by
  apply List.ext_getElem?
  intro j
  rw [List.getElem?_set, view_getElem?, view_getElem?]
  split
  · rename_i hij
    subst hij
    have hlt : i < (view map cell).length := by
      rw [length_view]
      exact (List.getElem?_eq_some_iff.mp hi).1
    rw [if_pos hlt, hi, Option.map_some, slotOf, if_neg (by omega)]
  · rename_i hij
    cases hj : map[j]? with
    | none => rfl
    | some b => rw [Option.map_some, Option.map_some, slotOf_update h hi ha hcell hj hij]

theorem view_retire {i : ℕ} (h : Distinct map)
    (hi : map[i]? = some a) (ha : 0 ≤ a) (hcell : ∀ k, k ≠ a.toNat → cell' k = cell k) :
    view (map.set i (-1)) cell' = (view map cell).set i none := by
  apply List.ext_getElem?
  intro j
  rw [List.getElem?_set, view_getElem?, view_getElem?, List.getElem?_set]
  split
  · rename_i hij
    subst hij
    have hlt : i < map.length := (List.getElem?_eq_some_iff.mp hi).1
    rw [if_pos hlt, length_view, if_pos hlt]
    rfl
  · rename_i hij
    cases hj : map[j]? with
    | none => rfl
    | some b => rw [Option.map_some, Option.map_some, slotOf_update h hi ha hcell hj hij]

theorem scan_congr {dead dead' : ℕ → Bool} {n start : ℕ} (hn : 0 < n)
    (h : ∀ i < n, dead i = dead' i) (fuel : ℕ) : ∀ curr,
    scan dead n start fuel curr = scan dead' n start fuel curr := by
  induction fuel with
  | zero => exact fun curr => rfl
  | succ fuel ih =>
    intro curr
    unfold scan
    dsimp only
    rw [h _ (Nat.mod_lt _ hn), ih]

/-- The search for the next index that is not used up. -/
def turn (n : ℕ) (map : List ℤ) (index : ℕ) : ℕ :=
  scan (fun i => decide (map.getD i 0 < 0)) n index n index

theorem turn_spec {n : ℕ} {index : ℕ} (cell : ℕ → τ) (hn : map.length = n)
    (hindex : index < n) :
    turn n map index < n ∧
      (map.getD (turn n map index) 0 < 0 → turn n map index = index) ∧
      scan (fun i => (Rota.slot ⟨view map cell, index⟩ i).isNone) (view map cell).length index
        (view map cell).length index = turn n map index ∧
      Rota.slot ⟨view map cell, index⟩ (turn n map index) =
        slotOf cell (map.getD (turn n map index) 0) := by
  subst hn
  obtain ⟨hlt, hdead⟩ := @scan_spec (fun i => decide (map.getD i 0 < 0)) _ _ hindex
  have hslot : ∀ i < map.length, Rota.slot ⟨view map cell, index⟩ i = slotOf cell (map.getD i 0) := by
    intro i hi
    rw [Rota.slot, List.getD_eq_getElem?_getD, view_getElem?, List.getElem?_eq_getElem hi,
      List.getD_eq_getElem _ _ hi]
    rfl
  refine ⟨hlt, fun h => (hdead (decide_eq_true h)).1, ?_, hslot _ hlt⟩
  rw [length_view]
  apply scan_congr (Nat.zero_lt_of_lt hindex)
  intro i hi
  rw [hslot i hi, slotOf]
  by_cases h : map.getD i 0 < 0
  · rw [if_pos h, decide_eq_true h]
    rfl
  · rw [if_neg h, decide_eq_false h]
    rfl

theorem next_view {n fuel : ℕ} {index : ℕ} (cell : ℕ → τ) (hn : map.length = n)
    (hindex : index < n) :
    next advance (fuel + 1) ⟨view map cell, index⟩ =
      match slotOf cell (map.getD (turn n map index) 0) with
      | none => some (none, ⟨view map cell, index⟩)
      | some t =>
        match advance t with
        | none => none
        | some (none, _) =>
          next advance fuel ⟨(view map cell).set (turn n map index) none, turn n map index⟩
        | some (some b, rest) =>
          some (some b, ⟨(view map cell).set (turn n map index) rest, turn n map index⟩) := by
  obtain ⟨-, -, hscan, hslot⟩ := turn_spec cell hn hindex
  rw [next]
  rw [hscan, hslot]

section Full

variable {n : ℕ} (hperm : map.Perm ((List.range n).map Int.ofNat))

include hperm

theorem bounds_of_perm {a : ℤ} (ha : a ∈ map) : 0 ≤ a ∧ a < n := by
  obtain ⟨i, hi, rfl⟩ := List.mem_map.mp (hperm.mem_iff.mp ha)
  exact ⟨Int.natCast_nonneg i, Int.ofNat_lt.mpr (List.mem_range.mp hi)⟩

theorem distinct_of_perm : Distinct map := by
  have hnodup : map.Nodup := by
    rw [hperm.nodup_iff]
    exact List.nodup_range.map fun _ _ => Int.ofNat.inj
  intro i j a hi hj _
  obtain ⟨hi, rfl⟩ := List.getElem?_eq_some_iff.mp hi
  obtain ⟨hj, heq⟩ := List.getElem?_eq_some_iff.mp hj
  exact (hnodup.getElem_inj_iff.mp heq).symm

theorem pending_of_perm {cell : ℕ → τ} {items : ℕ → List β}
    (h : ∀ i < n, Drains advance (cell i) (items i)) :
    List.Forall₂ (Pending advance) (view map cell) (map.map fun a => items a.toNat) ∧
      (map.map fun a => items a.toNat).flatten.Perm ((List.range n).flatMap items) := by
  constructor
  · rw [view, List.forall₂_map_left_iff, List.forall₂_map_right_iff, List.forall₂_same]
    intro a ha
    obtain ⟨hnonneg, hlt⟩ := bounds_of_perm hperm ha
    rw [slotOf, if_neg (by omega)]
    exact h a.toNat (by omega)
  · have hflat := (hperm.map fun a => items a.toNat).flatten
    rw [List.map_map] at hflat
    rw [List.flatMap_def]
    exact hflat

end Full

section Arrays

variable {l : List τ} {x d : τ} {n i k : ℕ}

theorem getD_set_ne (h : k ≠ i) : (l.set i x).getD k d = l.getD k d := by
  rw [List.getD_eq_getElem?_getD, List.getD_eq_getElem?_getD, List.getElem?_set_ne h.symm]

theorem getD_set_self (h : i < l.length) : (l.set i x).getD i d = x := by
  rw [List.getD_eq_getElem?_getD, List.getElem?_set_self h]
  rfl

theorem getD_map_range (h : i < n) (f : ℕ → τ) : ((List.range n).map f).getD i d = f i := by
  rw [List.getD_eq_getElem _ _ (by simpa using h), List.getElem_map, List.getElem_range]

end Arrays

/-- What the code does for itself: where it keeps the map, the states and the turn,
how it starts again, and what it does with the state whose turn it is. -/
structure Code (σ τ β : Type*) where
  map : σ → List ℤ
  cell : σ → ℕ → τ
  index : σ → ℕ
  reset : σ → Option σ
  visit : σ → ℕ → ℕ → Option (Option β × σ)

variable {σ : Type*}

/-- The search for a turn, repeated while a visit gives nothing; the fuel bounds
how often. -/
def again (code : Code σ τ β) (n : ℕ) : ℕ → σ → Option (Option β × σ)
  | 0, _ => none
  | fuel + 1, s =>
    let curr := turn n (code.map s) (code.index s)
    if curr = code.index s ∧ (code.map s).getD curr 0 < 0 then (code.reset s).map (none, ·)
    else
      match code.visit s curr ((code.map s).getD curr 0).toNat with
      | none => none
      | some (none, s) => again code n fuel s
      | some (some b, s) => some (some b, s)

/-- What a visit leaves of the state behind `a` and of its place in the map. -/
def Leaves (code : Code σ τ β) (s : σ) (curr : ℕ) (a : ℤ) (rest : Option τ) (s' : σ) : Prop :=
  code.index s' = curr ∧ (∀ k, k ≠ a.toNat → code.cell s' k = code.cell s k) ∧
    match rest with
    | none => code.map s' = (code.map s).set curr (-1)
    | some t => code.map s' = code.map s ∧ code.cell s' a.toNat = t

/-- The code follows the rota of `n` iterators `advance`, while `inv` holds. -/
structure Follows (code : Code σ τ β) (advance : τ → Option (Option β × Option τ)) (n : ℕ)
    (inv : σ → Prop) : Prop where
  length_map : ∀ s, inv s → (code.map s).length = n
  index_lt : ∀ s, inv s → code.index s < n
  distinct : ∀ s, inv s → Distinct (code.map s)
  visit : ∀ s curr a out rest, inv s → curr < n → (code.map s)[curr]? = some a → 0 ≤ a →
    advance (code.cell s a.toNat) = some (out, rest) → (out = none → rest = none) ∧
      ∃ s', code.visit s curr a.toNat = some (out, s') ∧ inv s' ∧ Leaves code s curr a rest s'

def rota (code : Code σ τ β) (s : σ) : Rota τ := ⟨view (code.map s) (code.cell s), code.index s⟩

theorem rota_of_leaves {code : Code σ τ β} {s s' : σ} {curr : ℕ} {rest : Option τ}
    (hdistinct : Distinct (code.map s)) (hget : (code.map s)[curr]? = some a) (ha : 0 ≤ a)
    (h : Leaves code s curr a rest s') :
    rota code s' = ⟨(view (code.map s) (code.cell s)).set curr rest, curr⟩ := by
  obtain ⟨hindex, hcell, hrest⟩ := h
  unfold rota
  rw [hindex]
  cases rest with
  | none => rw [hrest, view_retire hdistinct hget ha hcell]
  | some t => rw [hrest.1, view_update hdistinct hget ha hcell, hrest.2]

section Follows

variable {code : Code σ τ β} {n : ℕ} {inv : σ → Prop} (follows : Follows code advance n inv)

include follows

/-- A call of the code does what a call on the rota does; when all iterators are
used up, the code starts again. -/
theorem again_rota (fuel : ℕ) : ∀ {s : σ}, inv s →
    match next advance fuel (rota code s) with
    | none => True
    | some (none, _) => ∃ s', inv s' ∧ again code n fuel s = (code.reset s').map (none, ·)
    | some (some b, after) => ∃ s', inv s' ∧ again code n fuel s = some (some b, s') ∧
      rota code s' = after := by
  induction fuel with
  | zero => exact fun _ => trivial
  | succ fuel ih =>
    intro s h
    have hn := follows.length_map s h
    have hindex := follows.index_lt s h
    obtain ⟨hcurr, hround, -, -⟩ := turn_spec (code.cell s) hn hindex
    have hrota : rota code s = ⟨view (code.map s) (code.cell s), code.index s⟩ := rfl
    unfold again
    rw [hrota, next_view (code.cell s) hn hindex]
    dsimp only
    generalize turn n (code.map s) (code.index s) = curr at hcurr hround ⊢
    have hlt : curr < (code.map s).length := by rw [hn]; exact hcurr
    have hget : (code.map s)[curr]? = some ((code.map s).getD curr 0) := by
      rw [List.getElem?_eq_getElem hlt, List.getD_eq_getElem _ _ hlt]
    generalize (code.map s).getD curr 0 = a at hround hget ⊢
    by_cases ha : a < 0
    · rw [slotOf, if_pos ha, if_pos ⟨hround ha, ha⟩]
      exact ⟨s, h, rfl⟩
    rw [slotOf, if_neg ha, if_neg (fun hdone => ha hdone.2)]
    dsimp only
    cases hadvance : advance (code.cell s a.toNat) with
    | none => trivial
    | some result =>
      obtain ⟨out, rest⟩ := result
      obtain ⟨hstop, s', hvisit, hinv, hleaves⟩ :=
        follows.visit s curr a out rest h hcurr hget (Int.not_lt.mp ha) hadvance
      have hafter := rota_of_leaves (follows.distinct s h) hget (Int.not_lt.mp ha) hleaves
      rw [hvisit]
      cases out with
      | none =>
        rw [hstop rfl] at hafter
        dsimp only
        rw [← hafter]
        exact ih hinv
      | some b => exact ⟨s', hinv, rfl, hafter⟩

/-- A cycle of the code from a full map gives every item of every iterator once,
and the next cycle starts from where the reset leads. -/
theorem code_cycle {s : σ} {items : ℕ → List β} {fresh : σ → Prop} {call : σ → Option (Option β × σ)}
    (hcall : ∀ s, inv s → call s = again code n (n + 1) s)
    (hreset : ∀ s, inv s → ∃ s', code.reset s = some s' ∧ fresh s') (hinv : inv s)
    (hperm : (code.map s).Perm ((List.range n).map Int.ofNat))
    (hitems : ∀ i < n, Drains advance (code.cell s i) (items i)) :
    ∃ run s', Cycle call s run s' ∧ run.Perm ((List.range n).flatMap items) ∧ fresh s' := by
  obtain ⟨hpending, hflat⟩ := pending_of_perm hperm hitems
  obtain ⟨run, final, hcycle, hrun, -, -⟩ := @cycle_spec _ _ advance _ (rota code s) _
    ((length_view _ _).trans (follows.length_map s hinv)) (follows.index_lt s hinv) hpending
  obtain ⟨s', hcode, hfresh⟩ := @cycle_of_simulation _ _ _ _ call
    (fun after s => inv s ∧ rota code s = after) fresh (by
      rintro after s b after' ⟨h, rfl⟩ hitem
      have hagain := again_rota follows (n + 1) h
      rw [hitem] at hagain
      obtain ⟨s', h', hsome, hrota⟩ := hagain
      exact ⟨s', (hcall s h).trans hsome, h', hrota⟩) (by
      rintro after s after' ⟨h, rfl⟩ hend
      have hagain := again_rota follows (n + 1) h
      rw [hend] at hagain
      obtain ⟨s', h', hnone⟩ := hagain
      obtain ⟨s'', hs'', hfresh⟩ := hreset s' h'
      rw [hs''] at hnone
      exact ⟨s'', (hcall s h).trans hnone, hfresh⟩) _ _ _ hcycle s ⟨hinv, rfl⟩
  exact ⟨run, s', hcode, hrun.trans hflat, hfresh⟩

end Follows

end

end Yans.Library.RoundRobin
