import Yans.Library.RobinHood.Insert

/-! Deletion by backward shift: the entries behind a hole move one slot towards
their homes until one is already home or the run ends. -/
namespace Yans.Library.RobinHood

variable {Entry Item Key : Type}

/-- The while loop of a deletion, with the hole at `current`. -/
def shift (L : Layout Entry Item) (advance : ℕ → ℕ) :
    ℕ → List Entry → ℕ → ℕ → Option (List Entry)
  | 0, _, _, _ => none
  | fuel + 1, table, current, next =>
    let moved := L.entryAt table next
    if L.isEmpty moved = false ∧ 0 < L.distance moved then
      shift L advance fuel
        (table.set current (L.withDistance moved (L.distance moved - 1)))
        (advance (current + 1)) (advance (next + 1))
    else some (table.set current L.zero)

variable {L : Layout Entry Item} {key : Item → Key} {home : Key → ℕ}

/-- A table with a hole at slot `q + 1`, whatever is written there. `bridge`
says that the entry behind the hole may move into it; `gap` is the distance to
a slot that ends the shift. When that slot is the hole itself, one turn ahead,
the first entry moved into it takes over its role. -/
structure Hole (L : Layout Entry Item) (key : Item → Key) (home : Key → ℕ)
    (table : List Entry) (q gap : ℕ) : Prop where
  pos : 0 < table.length
  placed : ∀ n, n % table.length ≠ (q + 1) % table.length →
    L.isEmpty (L.slot table n) = false →
    L.distance (L.slot table n) < table.length ∧
      (home (key (L.item (L.slot table n))) + L.distance (L.slot table n)) % table.length =
        n % table.length
  ordered : ∀ n, n % table.length ≠ (q + 1) % table.length →
    (n + 1) % table.length ≠ (q + 1) % table.length →
    L.isEmpty (L.slot table (n + 1)) = false → 0 < L.distance (L.slot table (n + 1)) →
      L.isEmpty (L.slot table n) = false ∧
        L.distance (L.slot table (n + 1)) ≤ L.distance (L.slot table n) + 1
  bridge : (q + 1 + 1) % table.length ≠ (q + 1) % table.length →
    L.isEmpty (L.slot table (q + 1 + 1)) = false → 1 < L.distance (L.slot table (q + 1 + 1)) →
      L.isEmpty (L.slot table q) = false ∧
        L.distance (L.slot table (q + 1 + 1)) ≤ L.distance (L.slot table q) + 2
  gap_pos : 0 < gap
  stops : L.Stops (L.slot table (q + 1 + gap))
  gap_le : gap < table.length ∨ gap = table.length ∧
    (L.isEmpty (L.slot table (q + 1 + 1)) = false → L.distance (L.slot table (q + 1 + 1)) ≤ 1)

variable {table : List Entry}

theorem Inv.hole (inv : Inv L key home table) {q : ℕ}
    (hfull : L.isEmpty (L.slot table (q + 1)) = false) :
    ∃ gap ≤ table.length, Hole L key home table q gap := by
  have hbridge : L.isEmpty (L.slot table (q + 1 + 1)) = false →
      1 < L.distance (L.slot table (q + 1 + 1)) →
      L.isEmpty (L.slot table q) = false ∧
        L.distance (L.slot table (q + 1 + 1)) ≤ L.distance (L.slot table q) + 2 := by
    intro hnext hdist
    obtain ⟨hhere, hle⟩ := inv.ordered (q + 1) hnext (by omega)
    obtain ⟨hprev, hle'⟩ := inv.ordered q hhere (by omega)
    exact ⟨hprev, by omega⟩
  obtain ⟨n, hn⟩ := inv.stops
  -- the stopping slot, counted from just behind the hole
  obtain ⟨gap, hgap, hslot⟩ : ∃ gap < table.length,
      (q + 1 + 1 + gap) % table.length = n % table.length := by
    refine ⟨(n + (q + 1 + 1) * (table.length - 1)) % table.length, Nat.mod_lt _ inv.pos, ?_⟩
    rw [Nat.add_mod_mod]
    obtain ⟨size, hsize⟩ : ∃ k, table.length = k + 1 :=
      ⟨table.length - 1, by have := inv.pos; omega⟩
    rw [show q + 1 + 1 + (n + (q + 1 + 1) * (table.length - 1)) =
        n + table.length * (q + 1 + 1) by rw [hsize, Nat.add_sub_cancel]; ring,
      Nat.add_mul_mod_self_left]
  have hstop : L.Stops (L.slot table (q + 1 + (gap + 1))) := by
    rw [show q + 1 + (gap + 1) = q + 1 + 1 + gap by omega, slot_congr table hslot]
    exact hn
  refine ⟨gap + 1, by omega, inv.pos, fun n _ => inv.placed n, fun n _ _ => inv.ordered n,
    fun _ => hbridge, by omega, hstop, ?_⟩
  by_cases hlast : gap + 1 < table.length
  · exact .inl hlast
  · right
    refine ⟨by omega, ?_⟩
    intro hnext
    by_contra hdist
    have hle := (inv.ordered (q + 1) hnext (by omega)).2
    rw [show gap + 1 = table.length by omega, slot_add_length, Layout.Stops, hfull] at hstop
    simp only [Bool.false_eq_true, false_or] at hstop
    omega

theorem Hole.close {q gap : ℕ} (hole : Hole L key home table q gap)
    (hdone : ¬(L.isEmpty (L.slot table (q + 1 + 1)) = false ∧
      0 < L.distance (L.slot table (q + 1 + 1)))) :
    Shape L key home (table.set ((q + 1) % table.length) L.zero) where
  pos := by simpa using hole.pos
  placed := by
    intro n
    rw [length_set_mod, slot_set hole.pos]
    split
    · simp
    · exact hole.placed n ‹_›
  ordered := by
    intro n
    rw [slot_set hole.pos, slot_set hole.pos]
    split
    · simp
    · rename_i hnext
      split
      · rename_i hn
        rw [slot_congr table (mod_succ_congr hn)]
        intro hfull hdist
        exact absurd ⟨hfull, hdist⟩ hdone
      · exact hole.ordered n ‹_› hnext

theorem Hole.move {q gap : ℕ} (hole : Hole L key home table q (gap + 1))
    (hfull : L.isEmpty (L.slot table (q + 1 + 1)) = false)
    (hdist : 0 < L.distance (L.slot table (q + 1 + 1))) (hgap : 0 < gap)
    (hsize : 1 < table.length) :
    Hole L key home (table.set ((q + 1) % table.length)
      (L.withDistance (L.slot table (q + 1 + 1)) (L.distance (L.slot table (q + 1 + 1)) - 1)))
      (q + 1) gap := by
  have hahead : (q + 1 + 1) % table.length ≠ (q + 1) % table.length :=
    mod_add_ne (by omega) hsize
  obtain ⟨hlt, hplaced⟩ := hole.placed (q + 1 + 1) hahead hfull
  have hmoved : (home (key (L.item (L.slot table (q + 1 + 1)))) +
      (L.distance (L.slot table (q + 1 + 1)) - 1)) % table.length = (q + 1) % table.length := by
    apply mod_eq_of_succ
    rw [add_assoc, Nat.sub_add_cancel hdist]
    exact hplaced
  refine ⟨by simpa using hole.pos, ?_, ?_, ?_, hgap, ?_, ?_⟩
  · intro n
    rw [length_set_mod, slot_set hole.pos]
    split
    · rename_i hn
      intro _ _
      rw [L.distance_withDistance, L.item_withDistance]
      exact ⟨by omega, by rw [hmoved, hn]⟩
    · intro _
      exact hole.placed n ‹_›
  · intro n
    rw [length_set_mod, slot_set hole.pos, slot_set hole.pos]
    intro hn hnext
    split
    · -- the moved entry against the one before the old hole
      rename_i hhere
      have hq := mod_eq_of_succ hhere
      rw [if_neg (by
        intro hself
        exact mod_add_ne (n := q) (k := 1) (by omega) hsize (hself.symm.trans hq)),
        slot_congr table hq]
      rw [L.isEmpty_withDistance, L.distance_withDistance]
      intro _ hpositive
      obtain ⟨hprev, hle⟩ := hole.bridge hahead hfull (by omega)
      exact ⟨hprev, by omega⟩
    · rename_i hhere
      rw [if_neg (by
        intro hself
        exact hnext (mod_succ_congr hself))]
      intro hslot hpositive
      refine hole.ordered n ?_ hhere hslot hpositive
      intro hself
      exact hnext (mod_succ_congr hself)
  · rw [length_set_mod, slot_set hole.pos, slot_set_self hole.pos, L.isEmpty_withDistance,
      L.distance_withDistance]
    intro hnext
    split
    · intro _ _
      refine ⟨hfull, ?_⟩
      rw [L.distance_withDistance]
      omega
    · rename_i hother
      intro hslot hpositive
      have hle := (hole.ordered (q + 1 + 1) hahead hother hslot (by omega)).2
      exact ⟨hfull, by omega⟩
  · rw [show q + 1 + 1 + gap = q + 1 + (gap + 1) by omega, slot_set hole.pos]
    split
    · rename_i hself
      right
      rw [L.distance_withDistance]
      obtain hshort | ⟨hturn, hone⟩ := hole.gap_le
      · exact absurd hself (mod_add_ne (by omega) hshort)
      · have := hone hfull
        omega
    · exact hole.stops
  · left
    rw [length_set_mod]
    obtain hshort | ⟨hturn, _⟩ := hole.gap_le <;> omega

theorem items_move {a b : ℕ} (ha : a < table.length)
    (hb : b < table.length) (hne : a ≠ b) {moved : Entry}
    (hmoved : L.payload moved = L.payload (L.entryAt table b)) :
    L.items ((table.set a moved).set b L.zero) = L.items (table.set a L.zero) := by
  have hzero : L.payload L.zero = 0 := by simp [Layout.payload]
  have hb' : b < (table.set a L.zero).length := by simpa using hb
  have ha' : a < ((table.set a L.zero).set b L.zero).length := by simpa using ha
  have hout := items_set_add (L := L) hb' L.zero
  have hin := items_set_add (L := L) ha' moved
  rw [entryAt_set ha, if_neg hne.symm, hzero, add_zero] at hout
  rw [entryAt_set hb', if_neg hne, entryAt_set ha, if_pos rfl, hzero, add_zero,
    hmoved, hout] at hin
  rw [← hin, List.set_comm _ _ hne.symm, List.set_set, List.set_comm _ _ hne]

structure Shifted (L : Layout Entry Item) (key : Item → Key) (home : Key → ℕ)
    (before : List Entry) (hole : ℕ) (after : List Entry) : Prop where
  length_eq : after.length = before.length
  shape : Shape L key home after
  items_eq : L.items after = L.items (before.set (hole % before.length) L.zero)
  empty : ∃ n, L.isEmpty (L.slot after n) = true

variable {advance : ℕ → ℕ} {fuel : ℕ}

theorem shift_done {n : ℕ}
    (hdone : ¬(L.isEmpty (L.slot table (n + 1)) = false ∧ 0 < L.distance (L.slot table (n + 1)))) :
    shift L advance (fuel + 1) table (n % table.length) ((n + 1) % table.length) =
      some (table.set (n % table.length) L.zero) := by
  unfold Layout.slot at hdone
  simp only [shift, if_neg hdone]

theorem shift_move {n : ℕ}
    (hpos : 0 < table.length) (hadvance : Advances advance table.length)
    (hmove : L.isEmpty (L.slot table (n + 1)) = false ∧ 0 < L.distance (L.slot table (n + 1))) :
    shift L advance (fuel + 1) table (n % table.length) ((n + 1) % table.length) =
      shift L advance fuel (table.set (n % table.length)
        (L.withDistance (L.slot table (n + 1)) (L.distance (L.slot table (n + 1)) - 1)))
        ((n + 1) % table.length) ((n + 1 + 1) % table.length) := by
  have hstep := hadvance.step hpos n
  have hstep' := hadvance.step hpos (n + 1)
  unfold Layout.slot at hmove ⊢
  simp only [shift, if_pos hmove, hstep, hstep']

theorem shift_hole :
    ∀ (gap fuel : ℕ) {table : List Entry} {q : ℕ}, Hole L key home table q gap →
      Advances advance table.length → gap ≤ fuel →
      ∃ after, shift L advance fuel table ((q + 1) % table.length)
          ((q + 1 + 1) % table.length) = some after ∧
        Shifted L key home table (q + 1) after := by
  intro gap
  induction gap with
  | zero =>
    intro fuel table q hole
    exact absurd hole.gap_pos (lt_irrefl 0)
  | succ gap ih =>
    intro fuel table q hole hadvance hfuel
    obtain ⟨fuel, rfl⟩ : ∃ k, fuel = k + 1 := ⟨fuel - 1, by omega⟩
    by_cases hmove : L.isEmpty (L.slot table (q + 1 + 1)) = false ∧
        0 < L.distance (L.slot table (q + 1 + 1))
    · obtain ⟨hfull, hdist⟩ := hmove
      have hgap : 0 < gap := by
        by_contra hzero
        have hstop := hole.stops
        rw [show gap + 1 = 1 by omega, Layout.Stops, hfull] at hstop
        simp only [Bool.false_eq_true, false_or] at hstop
        omega
      have hsize : 1 < table.length := by
        obtain hshort | ⟨hturn, _⟩ := hole.gap_le <;> omega
      obtain ⟨after, hrun, hafter⟩ := ih fuel (hole.move hfull hdist hgap hsize)
        (by simpa using hadvance) (by omega)
      rw [length_set_mod] at hrun
      refine ⟨after, by rw [shift_move hole.pos hadvance ⟨hfull, hdist⟩, hrun], ?_⟩
      refine ⟨by simpa using hafter.length_eq, hafter.shape, ?_, hafter.empty⟩
      -- the moved entry leaves its old slot as it enters the hole
      have hne : (q + 1) % table.length ≠ (q + 1 + 1) % table.length :=
        (mod_add_ne (n := q + 1) (k := 1) (by omega) hsize).symm
      rw [hafter.items_eq, length_set_mod]
      exact items_move (Nat.mod_lt _ hole.pos) (Nat.mod_lt _ hole.pos) hne (by
        simp [Layout.payload, Layout.slot])
    · refine ⟨_, shift_done hmove, length_set_mod _ _ _, hole.close hmove, rfl, q + 1, ?_⟩
      rw [slot_set_self hole.pos, L.isEmpty_zero]

theorem shift_spec (inv : Inv L key home table) (hadvance : Advances advance table.length)
    {position : ℕ} (hposition : position < table.length)
    (hfull : L.isEmpty (L.slot table position) = false) (hfuel : table.length ≤ fuel) :
    ∃ after, shift L advance fuel table position (advance (position + 1)) = some after ∧
      after.length = table.length ∧ Inv L key home after ∧
      L.items table = L.item (L.slot table position) ::ₘ L.items after := by
  have hp : position + (table.length - 1) + 1 = position + table.length := by omega
  have hslot : L.slot table (position + (table.length - 1) + 1) = L.slot table position := by
    rw [hp, slot_add_length]
  obtain ⟨gap, hgap, hole⟩ := inv.hole (q := position + (table.length - 1))
    (by rw [hslot]; exact hfull)
  obtain ⟨after, hrun, hafter⟩ := shift_hole gap fuel hole hadvance (by omega)
  have hitems := items_eq_payload_add (L := L) inv.pos position
  have hremoved := hafter.items_eq
  rw [hp, Nat.add_mod_right] at hremoved
  rw [← hremoved, Layout.payload, hfull] at hitems
  simp only [Bool.false_eq_true, if_false, add_comm _ {_}, Multiset.singleton_add] at hitems
  refine ⟨after, ?_, hafter.length_eq, ⟨hafter.shape, ?_, ?_⟩, hitems⟩
  · rw [hp, Nat.add_mod_right, add_right_comm, Nat.add_mod_right, Nat.mod_eq_of_lt hposition]
      at hrun
    rw [hadvance _ (by omega)]
    exact hrun
  · have hnodup := inv.distinct
    rw [hitems, Multiset.map_cons, Multiset.nodup_cons] at hnodup
    exact hnodup.2
  · obtain ⟨n, hn⟩ := hafter.empty
    exact ⟨n, .inl hn⟩

end Yans.Library.RobinHood

/-! Reinsertion of a whole table into another one, for tables that grow. The
target is any state with a partial `put`; only its effect on the stored items
matters. -/
namespace Yans.Library.RobinHood

variable {Entry Item Key State : Type}

/-- What reinsertion needs of the target: an empty entry is ignored, and a valid
item with a new key is added as long as there is room. -/
structure Accepts (L : Layout Entry Item) (key : Item → Key) (Valid : Item → Prop)
    (put : State → Entry → Option State) (Good : State → Prop)
    (itemsOf : State → Multiset Item) (room : State → ℕ) : Prop where
  ignore : ∀ state entry, L.isEmpty entry = true → put state entry = some state
  add : ∀ state entry, Good state → L.isEmpty entry = false → Valid (L.item entry) →
    key (L.item entry) ∉ (itemsOf state).map key → (itemsOf state).card < room state →
    ∃ after, put state entry = some after ∧ Good after ∧
      itemsOf after = L.item entry ::ₘ itemsOf state ∧ room after = room state

/-- The induction is on the entries still to come; all keys together are
distinct, so every step adds a new one. -/
theorem Accepts.foldlM {L : Layout Entry Item} {key : Item → Key} {Valid : Item → Prop}
    {put : State → Entry → Option State} {Good : State → Prop}
    {itemsOf : State → Multiset Item} {room : State → ℕ}
    (accepts : Accepts L key Valid put Good itemsOf room) (entries : List Entry) :
    ∀ {state : State}, Good state → (∀ x ∈ L.items entries, Valid x) →
      ((itemsOf state + L.items entries).map key).Nodup →
      (itemsOf state).card + (L.items entries).card ≤ room state →
      ∃ after, entries.foldlM put state = some after ∧ Good after ∧
        itemsOf after = itemsOf state + L.items entries ∧ room after = room state := by
  induction entries with
  | nil =>
    intro state good _ _ _
    exact ⟨state, rfl, good, by simp [Layout.items], rfl⟩
  | cons entry rest ih =>
    intro state good hvalid hnodup hroom
    have hcons : L.items (entry :: rest) = L.payload entry + L.items rest := by
      simp [Layout.items]
    cases hempty : L.isEmpty entry with
    | true =>
      have hpayload : L.payload entry = 0 := by simp [Layout.payload, hempty]
      rw [hcons, hpayload, zero_add] at hvalid hnodup hroom ⊢
      rw [List.foldlM_cons, accepts.ignore state entry hempty]
      exact ih good hvalid hnodup hroom
    | false =>
      have hpayload : L.payload entry = {L.item entry} := by simp [Layout.payload, hempty]
      rw [hcons, hpayload] at hvalid hnodup hroom ⊢
      rw [Multiset.card_add, Multiset.card_singleton] at hroom
      have hmove : itemsOf state + ({L.item entry} + L.items rest) =
          (L.item entry ::ₘ itemsOf state) + L.items rest := by
        rw [← add_assoc, add_comm (itemsOf state), Multiset.singleton_add]
      rw [hmove] at hnodup ⊢
      have hfresh : key (L.item entry) ∉ (itemsOf state).map key := by
        rw [Multiset.map_add, Multiset.map_cons] at hnodup
        have hhead := Multiset.nodup_of_le (Multiset.le_add_right _ _) hnodup
        exact (Multiset.nodup_cons.mp hhead).1
      obtain ⟨next, hput, hgood, hitems, hsame⟩ :=
        accepts.add state entry good hempty
          (hvalid _ (Multiset.mem_add.mpr (.inl (Multiset.mem_singleton_self _)))) hfresh (by omega)
      obtain ⟨after, hrun, hafter⟩ := ih hgood
        (fun x hx => hvalid x (Multiset.mem_add.mpr (.inr hx))) (by rwa [hitems])
        (by rw [hitems, Multiset.card_cons, hsame]; omega)
      rw [hitems, hsame] at hafter
      rw [List.foldlM_cons, hput]
      exact ⟨after, hrun, hafter⟩

end Yans.Library.RobinHood
