import Yans.Library.RobinHood.Search
import Mathlib.Tactic.Ring

/-! Insertion with displacement. The loop carries an entry along its probe
sequence and leaves it at the first slot whose occupant is closer to home,
carrying on with that occupant. -/
namespace Yans.Library.RobinHood

variable {Entry Item Key : Type}

/-- How an insertion loop ends, with the table as the loop leaves it. -/
inductive Placement (Entry : Type) where
  | filled (table : List Entry)
  | hit (table : List Entry) (position : ℕ) (carried : Entry)
  | noSlot (table : List Entry)

/-- The do-while loop of an insertion. `same` compares with the key given by
the caller, also while a displaced entry is in hand. -/
def place (L : Layout Entry Item) (advance : ℕ → ℕ) (same : Entry → Bool) (start : ℕ) :
    ℕ → List Entry → Entry → ℕ → Option (Placement Entry)
  | 0, _, _, _ => none
  | fuel + 1, table, carried, position =>
    let current := L.entryAt table position
    if L.isEmpty current then some (.filled (table.set position carried))
    else if same current then some (.hit table position carried)
    else
      let swap := decide (L.distance current < L.distance carried)
      let table := if swap then table.set position carried else table
      let carried := if swap then current else carried
      let carried := L.withDistance carried (L.distance carried + 1)
      if advance (position + 1) = start then some (.noSlot table)
      else place L advance same start fuel table carried (advance (position + 1))

variable {L : Layout Entry Item} {key : Item → Key} {home : Key → ℕ}

def Placement.table : Placement Entry → List Entry
  | .filled table => table
  | .hit table _ _ => table
  | .noSlot table => table

structure Within (L : Layout Entry Item) (size : ℕ) (table : List Entry) : Prop where
  length_eq : table.length = size
  distance_lt : ∀ entry ∈ table, L.distance entry < size

variable {table : List Entry}

theorem Within.set {size : ℕ} (h : Within L size table) (position : ℕ)
    {entry : Entry} (hentry : L.distance entry < size) :
    Within L size (table.set position entry) := by
  refine ⟨(List.length_set ..).trans h.length_eq, ?_⟩
  intro other hother
  obtain hother | rfl := List.mem_or_eq_of_mem_set hother
  · exact h.distance_lt other hother
  · exact hentry

variable {advance : ℕ → ℕ}

/-- On any table at all an insertion ends within one turn, and no entry that it
writes is farther from its home than the loop has come. -/
theorem place_returns {size : ℕ} (hadvance : Advances advance size)
    (same : Entry → Bool) {start : ℕ} (hstart : start < size) (fuel : ℕ) :
    ∀ {k : ℕ} {table : List Entry} {carried : Entry}, fuel + k = size → k < size →
      Within L size table → L.distance carried ≤ k →
      ∃ result, place L advance same start fuel table carried ((start + k) % size) = some result ∧
        Within L size result.table := by
  have hpos : 0 < size := Nat.zero_lt_of_lt hstart
  induction fuel with
  | zero =>
    intro k table carried hfuel hk
    omega
  | succ fuel ih =>
    intro k table carried hfuel hk hwithin hcarried
    have hnext : advance ((start + k) % size + 1) = (start + (k + 1)) % size :=
      hadvance.step hpos _
    rw [place]
    dsimp only
    rw [hnext]
    generalize L.entryAt table ((start + k) % size) = current
    by_cases hempty : L.isEmpty current = true
    · rw [if_pos hempty]
      exact ⟨_, rfl, hwithin.set _ (by omega)⟩
    rw [if_neg hempty]
    by_cases hsame : same current = true
    · rw [if_pos hsame]
      exact ⟨_, rfl, hwithin⟩
    rw [if_neg hsame]
    have htable : Within L size (if decide (L.distance current < L.distance carried) = true then
        table.set ((start + k) % size) carried else table) := by
      split
      · exact hwithin.set _ (by omega)
      · exact hwithin
    have hcarried' : L.distance (L.withDistance
        (if decide (L.distance current < L.distance carried) = true then current else carried)
        (L.distance (if decide (L.distance current < L.distance carried) = true then current
          else carried) + 1)) ≤ k + 1 := by
      rw [L.distance_withDistance]
      split
      · rename_i hswap
        have hlt := of_decide_eq_true hswap
        omega
      · omega
    by_cases hround : (start + (k + 1)) % size = start
    · rw [if_pos hround]
      exact ⟨_, rfl, htable⟩
    · rw [if_neg hround]
      have hmore : k + 1 < size := by
        by_contra hfull
        rw [show start + (k + 1) = start + size by omega, Nat.add_mod_right,
          Nat.mod_eq_of_lt hstart] at hround
        exact hround rfl
      exact ih (by omega) hmore htable hcarried'

/-- The carried entry would be in order at slot `p + 1`, and is no farther from
its home than the loop is from its start. -/
structure Carry (L : Layout Entry Item) (key : Item → Key) (home : Key → ℕ)
    (table : List Entry) (carried : Entry) (p j : ℕ) : Prop where
  full : L.isEmpty carried = false
  placed : (home (key (L.item carried)) + L.distance carried) % table.length =
    (p + 1) % table.length
  near : L.distance carried ≤ j
  ordered : 0 < L.distance carried →
    L.isEmpty (L.slot table p) = false ∧ L.distance carried ≤ L.distance (L.slot table p) + 1

theorem mod_eq_of_succ {a b size : ℕ} (h : (a + 1) % size = (b + 1) % size) :
    a % size = b % size :=
  Nat.ModEq.add_right_cancel' 1 h

theorem mod_succ_congr {a b size : ℕ} (h : a % size = b % size) :
    (a + 1) % size = (b + 1) % size :=
  Nat.ModEq.add_right 1 h

variable {carried : Entry}

theorem Shape.set (shape : Shape L key home table) {p : ℕ} (hfull : L.isEmpty carried = false)
    (hlt : L.distance carried < table.length)
    (hplaced : (home (key (L.item carried)) + L.distance carried) % table.length =
      (p + 1) % table.length)
    (hprev : 0 < L.distance carried →
      L.isEmpty (L.slot table p) = false ∧ L.distance carried ≤ L.distance (L.slot table p) + 1)
    (hnext : L.isEmpty (L.slot table (p + 1 + 1)) = false →
      0 < L.distance (L.slot table (p + 1 + 1)) →
      L.distance (L.slot table (p + 1 + 1)) ≤ L.distance carried + 1) :
    Shape L key home (table.set ((p + 1) % table.length) carried) where
  pos := by simpa using shape.pos
  placed := by
    intro n
    rw [length_set_mod, slot_set shape.pos]
    split
    · rename_i hn
      intro _
      exact ⟨hlt, by rw [hplaced, hn]⟩
    · exact shape.placed n
  ordered := by
    intro n
    rw [slot_set shape.pos, slot_set shape.pos]
    split
    · rename_i hn
      have hnp := mod_eq_of_succ hn
      intro _ hdist
      split
      · exact ⟨hfull, Nat.le_succ _⟩
      · rw [slot_congr table hnp]
        exact hprev hdist
    · split
      · rename_i hne hn
        rw [slot_congr table (mod_succ_congr hn)]
        intro hslot hdist
        exact ⟨hfull, hnext hslot hdist⟩
      · exact shape.ordered n

theorem Carry.advance_keep {p j : ℕ}
    (carry : Carry L key home table carried p j)
    (hcurrent : L.isEmpty (L.slot table (p + 1)) = false)
    (hkeep : ¬ L.distance (L.slot table (p + 1)) < L.distance carried) :
    Carry L key home table (L.withDistance carried (L.distance carried + 1)) (p + 1) (j + 1) where
  full := by simpa using carry.full
  placed := by
    rw [L.item_withDistance, L.distance_withDistance, ← add_assoc]
    exact mod_succ_congr carry.placed
  near := by
    have := carry.near
    simpa using this
  ordered := by
    intro _
    rw [L.distance_withDistance]
    exact ⟨hcurrent, by omega⟩

theorem Carry.advance_swap (shape : Shape L key home table) {p j : ℕ} (carry : Carry L key home table carried p j)
    (hcurrent : L.isEmpty (L.slot table (p + 1)) = false)
    (hswap : L.distance (L.slot table (p + 1)) < L.distance carried) :
    Carry L key home (table.set ((p + 1) % table.length) carried)
      (L.withDistance (L.slot table (p + 1)) (L.distance (L.slot table (p + 1)) + 1))
      (p + 1) (j + 1) where
  full := by simpa using hcurrent
  placed := by
    rw [L.item_withDistance, L.distance_withDistance, ← add_assoc, length_set_mod]
    exact mod_succ_congr (shape.placed (p + 1) hcurrent).2
  near := by
    have := carry.near
    rw [L.distance_withDistance]
    omega
  ordered := by
    intro _
    rw [L.distance_withDistance, slot_set_self shape.pos]
    exact ⟨carry.full, by omega⟩

section Steps

variable {same : Entry → Bool} {start n fuel : ℕ}
 

theorem place_filled (hempty : L.isEmpty (L.slot table n) = true) :
    place L advance same start (fuel + 1) table carried (n % table.length) =
      some (.filled (table.set (n % table.length) carried)) := by
  unfold Layout.slot at hempty
  simp [place, hempty]

theorem place_same (hfull : L.isEmpty (L.slot table n) = false)
    (hsame : same (L.slot table n) = true) :
    place L advance same start (fuel + 1) table carried (n % table.length) =
      some (.hit table (n % table.length) carried) := by
  unfold Layout.slot at hfull hsame
  simp [place, hfull, hsame]

variable (hpos : 0 < table.length) (hadvance : Advances advance table.length)
  (hfull : L.isEmpty (L.slot table n) = false) (hother : same (L.slot table n) = false)
  (hwrap : (n + 1) % table.length ≠ start)
include hpos hadvance hfull hother hwrap

theorem place_swap (hswap : L.distance (L.slot table n) < L.distance carried) :
    place L advance same start (fuel + 1) table carried (n % table.length) =
      place L advance same start fuel (table.set (n % table.length) carried)
        (L.withDistance (L.slot table n) (L.distance (L.slot table n) + 1))
        ((n + 1) % table.length) := by
  have hstep := hadvance.step hpos n
  unfold Layout.slot at hfull hother hswap ⊢
  simp [place, hfull, hother, hswap, hstep, hwrap]

theorem place_keep (hkeep : ¬ L.distance (L.slot table n) < L.distance carried) :
    place L advance same start (fuel + 1) table carried (n % table.length) =
      place L advance same start fuel table
        (L.withDistance carried (L.distance carried + 1)) ((n + 1) % table.length) := by
  have hstep := hadvance.step hpos n
  unfold Layout.slot at hfull hother hkeep
  simp [place, hfull, hother, hkeep, hstep, hwrap]

end Steps

/-- What an insertion of a new key leaves behind, with `last` a slot that keeps
later shifts finite. -/
structure Filled (L : Layout Entry Item) (key : Item → Key) (home : Key → ℕ)
    (before : List Entry) (x : Item) (last : ℕ) (after : List Entry) : Prop where
  length_eq : after.length = before.length
  shape : Shape L key home after
  items_eq : L.items after = x ::ₘ L.items before
  stops : L.Stops (L.slot after last)

/-- The loop with the first empty slot `m` steps ahead. The induction is on
`m`; `Carry` and `Shape` hold again after each step, whether it swaps or not. -/
theorem place_fresh {same : Entry → Bool} {start : ℕ} :
    ∀ (m fuel : ℕ) {table : List Entry} {carried : Entry} {p j : ℕ},
      Shape L key home table → Carry L key home table carried p j →
      Advances advance table.length → (start + j) % table.length = (p + 1) % table.length →
      start < table.length → j + m < table.length → m < fuel →
      L.isEmpty (L.slot table (p + 1 + m)) = true →
      (∀ i < m, L.isEmpty (L.slot table (p + 1 + i)) = false ∧
        same (L.slot table (p + 1 + i)) = false) →
      L.Stops (L.slot table (p + 1 + m + 1)) →
      ∃ after, place L advance same start fuel table carried ((p + 1) % table.length) =
          some (.filled after) ∧
        Filled L key home table (L.item carried) (p + 1 + m + 1) after := by
  intro m
  induction m with
  | zero =>
    intro fuel table carried p j shape carry hadvance hstart hlt hroom hfuel hempty _ hstops
    obtain ⟨fuel, rfl⟩ : ∃ k, fuel = k + 1 := ⟨fuel - 1, by omega⟩
    rw [add_zero] at hempty
    refine ⟨table.set ((p + 1) % table.length) carried, place_filled hempty, ?_⟩
    have hnear := carry.near
    have hshape : Shape L key home (table.set ((p + 1) % table.length) carried) := by
      apply shape.set carry.full (by omega) carry.placed carry.ordered
      intro hnext hdist
      have hhere := (shape.ordered (p + 1) hnext hdist).1
      rw [hempty] at hhere
      contradiction
    refine ⟨length_set_mod _ _ _, hshape, ?_, ?_⟩
    · have hitems := items_set_slot (L := L) shape.pos (p + 1) carried
      rw [← Multiset.singleton_add, add_comm {_}]
      simpa [Layout.payload, hempty, carry.full] using hitems
    · rw [add_zero, slot_set shape.pos]
      split
      · rename_i hwrap
        right
        by_contra hne
        exact mod_add_ne (n := p + 1) (k := 1) (by omega) (by omega) hwrap
      · simpa using hstops
  | succ m ih =>
    intro fuel table carried p j shape carry hadvance hstart hlt hroom hfuel hempty hbusy hstops
    obtain ⟨fuel, rfl⟩ : ∃ k, fuel = k + 1 := ⟨fuel - 1, by omega⟩
    obtain ⟨hcurrent, hother⟩ := hbusy 0 (by omega)
    rw [add_zero] at hcurrent hother
    have hwrap : (p + 1 + 1) % table.length ≠ start := by
      rw [← mod_succ_congr hstart, add_assoc]
      have hne := mod_add_ne (m := table.length) (n := start) (k := j + 1)
        (by omega) (by omega)
      rwa [Nat.mod_eq_of_lt hlt] at hne
    have hbefore : j + 1 + m < table.length := by omega
    have hcount : (start + (j + 1)) % table.length = (p + 1 + 1) % table.length := by
      rw [← add_assoc]
      exact mod_succ_congr hstart
    have hshift : ∀ i, p + 1 + (i + 1) = p + 1 + 1 + i := by intro i; omega
    by_cases hswap : L.distance (L.slot table (p + 1)) < L.distance carried
    · -- the occupant is closer to home: it is carried on, and only this slot changes
      have hnear := carry.near
      have hrest : ∀ i, i < table.length - 1 →
          L.slot (table.set ((p + 1) % table.length) carried) (p + 1 + 1 + i) =
            L.slot table (p + 1 + 1 + i) := by
        intro i hi
        apply slot_set_ne shape.pos
        rw [show p + 1 + 1 + i = p + 1 + (i + 1) by omega]
        exact mod_add_ne (by omega) (by omega)
      have hshape : Shape L key home (table.set ((p + 1) % table.length) carried) := by
        apply shape.set carry.full (by omega) carry.placed carry.ordered
        intro hnext hdist
        have := (shape.ordered (p + 1) hnext hdist).2
        omega
      obtain ⟨after, hrun, hafter⟩ := ih fuel hshape
        (carry.advance_swap shape hcurrent hswap) (by simpa using hadvance)
        (by simpa using hcount) (by simpa using hlt) (by simpa using hbefore) (by omega)
        (by rw [hrest m (by omega), ← hshift]; exact hempty)
        (by
          intro i hi
          rw [hrest i (by omega), ← hshift]
          exact hbusy (i + 1) (by omega))
        (by
          rw [add_assoc, hrest (m + 1) (by omega), ← add_assoc, ← hshift]
          exact hstops)
      refine ⟨after, ?_, ?_⟩
      · rw [length_set_mod] at hrun
        rw [place_swap shape.pos hadvance hcurrent hother hwrap hswap, hrun]
      · refine ⟨by simpa using hafter.length_eq, hafter.shape, ?_, ?_⟩
        · have hitems := items_set_slot (L := L) shape.pos (p + 1) carried
          simp only [Layout.payload, hcurrent, carry.full, Bool.false_eq_true,
            if_false] at hitems
          rw [hafter.items_eq, L.item_withDistance, ← Multiset.singleton_add, add_comm, hitems,
            add_comm, Multiset.singleton_add]
        · rw [hshift]
          exact hafter.stops
    · obtain ⟨after, hrun, hafter⟩ := ih fuel shape
        (carry.advance_keep hcurrent hswap) hadvance hcount hlt hbefore (by omega)
        (by rw [← hshift]; exact hempty)
        (by
          intro i hi
          rw [← hshift]
          exact hbusy (i + 1) (by omega))
        (by rw [← hshift]; exact hstops)
      refine ⟨after, ?_, ?_⟩
      · rw [place_keep shape.pos hadvance hcurrent hother hwrap hswap, hrun]
      · rw [hshift]
        rw [L.item_withDistance] at hafter
        exact hafter

/-- The loop on a key that is present: no slot before it is displaced, so the
table is unchanged when the key is met and the carried entry is still the
caller's, at the distance of the entry it meets. -/
theorem place_present (inv : Inv L key home table) (hadvance : Advances advance table.length)
    {same : Entry → Bool} {target : Key}
    (hsame : ∀ n, L.isEmpty (L.slot table n) = false →
      (same (L.slot table n) = true ↔ key (L.item (L.slot table n)) = target))
    {d : ℕ} (hd : d < table.length)
    (hfull : L.isEmpty (L.slot table (home target + d)) = false)
    (hkey : key (L.item (L.slot table (home target + d))) = target)
    (hdist : L.distance (L.slot table (home target + d)) = d) :
    ∀ gap (carried : Entry) (fuel : ℕ), L.distance carried + gap = d → gap < fuel →
      ∃ last, place L advance same (home target % table.length) fuel table carried
          ((home target + L.distance carried) % table.length) =
            some (.hit table ((home target + d) % table.length) last) ∧
        L.distance last = d ∧ L.item last = L.item carried ∧
        L.isEmpty last = L.isEmpty carried := by
  intro gap
  induction gap with
  | zero =>
    intro carried fuel hj hfuel
    obtain ⟨fuel, rfl⟩ : ∃ k, fuel = k + 1 := ⟨fuel - 1, by omega⟩
    have hcarried : L.distance carried = d := by omega
    rw [hcarried]
    exact ⟨carried, place_same hfull ((hsame _ hfull).mpr hkey), hcarried, rfl, rfl⟩
  | succ gap ih =>
    intro carried fuel hj hfuel
    obtain ⟨fuel, rfl⟩ : ∃ k, fuel = k + 1 := ⟨fuel - 1, by omega⟩
    obtain ⟨hslot, hle⟩ := inv.chain hfull hdist (L.distance carried) (by omega)
    have hother : same (L.slot table (home target + L.distance carried)) = false := by
      rw [Bool.eq_false_iff]
      intro hhit
      have hmod := inv.slot_unique hfull hslot (hkey.trans ((hsame _ hslot).mp hhit).symm)
      have hgap := mod_add_ne (m := table.length)
        (n := home target + L.distance carried) (k := d - L.distance carried) (by omega) (by omega)
      rw [show home target + L.distance carried + (d - L.distance carried) =
        home target + d by omega] at hgap
      exact hgap hmod
    have hwrap : (home target + L.distance carried + 1) % table.length ≠
        home target % table.length := by
      rw [add_assoc]
      exact mod_add_ne (by omega) (by omega)
    obtain ⟨last, hrun, hlast⟩ := ih (L.withDistance carried (L.distance carried + 1)) fuel
      (by rw [L.distance_withDistance]; omega) (by omega)
    rw [L.distance_withDistance, ← add_assoc] at hrun
    rw [L.item_withDistance, L.isEmpty_withDistance] at hlast
    refine ⟨last, ?_, hlast⟩
    rw [place_keep inv.pos hadvance hslot hother hwrap (by omega), hrun]

theorem exists_first_empty (hpos : 0 < table.length) {n : ℕ}
    (hempty : L.isEmpty (L.slot table n) = true) (p : ℕ) :
    ∃ m < table.length, L.isEmpty (L.slot table (p + m)) = true ∧
      ∀ i < m, L.isEmpty (L.slot table (p + i)) = false := by
  have hexists : ∃ m, L.isEmpty (L.slot table (p + m)) = true := by
    refine ⟨n + p * (table.length - 1), ?_⟩
    rw [← hempty]
    congr 1
    apply slot_congr
    have hturn : p + (n + p * (table.length - 1)) = n + table.length * p := by
      obtain ⟨size, hsize⟩ : ∃ k, table.length = k + 1 := ⟨table.length - 1, by omega⟩
      rw [hsize, Nat.add_sub_cancel]
      ring
    rw [hturn, Nat.add_mul_mod_self_left]
  classical
  refine ⟨Nat.find hexists, ?_, Nat.find_spec hexists, ?_⟩
  · by_contra hge
    have hback := Nat.find_min hexists (m := Nat.find hexists - table.length) (by omega)
    apply hback
    rw [← slot_add_length, show p + (Nat.find hexists - table.length) + table.length =
      p + Nat.find hexists by omega]
    exact Nat.find_spec hexists
  · intro i hi
    simpa using Nat.find_min hexists hi

theorem Inv.replace (inv : Inv L key home table) {n : ℕ} {last : Entry}
    {x : Item} (hfull : L.isEmpty (L.slot table n) = false)
    (hkey : key (L.item (L.slot table n)) = key (L.item last))
    (hlast : L.isEmpty last = false)
    (hdist : L.distance last = L.distance (L.slot table n)) (hitem : L.item last = x) :
    Inv L key home (table.set (n % table.length) last) ∧
      ∃ old rest, L.items table = old ::ₘ rest ∧ key old = key x ∧
        L.items (table.set (n % table.length) last) = x ::ₘ rest := by
  have hpos := inv.pos
  have hp : n + (table.length - 1) + 1 = n + table.length := by omega
  obtain ⟨hlt, hplaced⟩ := inv.placed n hfull
  have hshape : Shape L key home (table.set (n % table.length) last) := by
    have := inv.toShape.set (p := n + (table.length - 1)) hlast (hdist ▸ hlt)
      (by rw [hdist, ← hkey, hp, Nat.add_mod_right]; exact hplaced)
      (by
        intro hd
        have hpair := inv.ordered (n + (table.length - 1))
        rw [hp, slot_add_length, ← hdist] at hpair
        exact hpair hfull hd)
      (by
        rw [hp, add_right_comm, slot_add_length, hdist]
        intro hnext hd
        exact (inv.ordered n hnext hd).2)
    rwa [hp, Nat.add_mod_right] at this
  have hitems := items_eq_payload_add (L := L) hpos n
  have hpos' : 0 < (table.set (n % table.length) last).length := by simpa using hpos
  have hafter := items_eq_payload_add (L := L) hpos' n
  rw [slot_set_self hpos, length_set_mod, List.set_set] at hafter
  simp only [Layout.payload, hfull, hlast, Bool.false_eq_true, if_false, hitem,
    add_comm _ {_}, Multiset.singleton_add] at hitems hafter
  have hold : key (L.item (L.slot table n)) = key x := by rw [hkey, hitem]
  refine ⟨⟨hshape, ?_, ?_⟩, _, _, hitems, hold, hafter⟩
  · rw [hafter, Multiset.map_cons, ← hold, ← Multiset.map_cons, ← hitems]
    exact inv.distinct
  · obtain ⟨k, hk⟩ := inv.stops
    refine ⟨k, ?_⟩
    rw [slot_set hpos]
    split
    · rename_i hsame
      rw [slot_congr table hsame] at hk
      rw [Layout.Stops, hfull] at hk
      right
      rw [hdist]
      simpa using hk
    · exact hk

/-- Insertion into a table with room: a new key is added, a known key is met
with the table still as it was. -/
theorem place_spec (inv : Inv L key home table) (hadvance : Advances advance table.length)
    (same : Entry → Bool)
    (hsame : ∀ n, L.isEmpty (L.slot table n) = false →
      (same (L.slot table n) = true ↔ key (L.item (L.slot table n)) = key (L.item carried)))
    (hcarried : L.isEmpty carried = false) (hzero : L.distance carried = 0)
    (hhome : home (key (L.item carried)) < table.length)
    {room : ℕ} (hroom : L.isEmpty (L.slot table room) = true)
    {fuel : ℕ} (hfuel : table.length ≤ fuel) :
    (key (L.item carried) ∉ (L.items table).map key ∧
      ∃ after, place L advance same (home (key (L.item carried))) fuel table carried
          (home (key (L.item carried))) = some (.filled after) ∧
        after.length = table.length ∧ Inv L key home after ∧
        L.items after = L.item carried ::ₘ L.items table) ∨
    ∃ position last, position < table.length ∧
      place L advance same (home (key (L.item carried))) fuel table carried
          (home (key (L.item carried))) = some (.hit table position last) ∧
      Inv L key home (table.set position last) ∧
      ∃ old rest, L.items table = old ::ₘ rest ∧ key old = key (L.item carried) ∧
        L.items (table.set position last) = L.item carried ::ₘ rest := by
  set target := key (L.item carried) with htarget
  have hstart : home target % table.length = home target := Nat.mod_eq_of_lt hhome
  by_cases hmem : target ∈ (L.items table).map key
  · right
    obtain ⟨x, hx, hxkey⟩ := Multiset.mem_map.mp hmem
    obtain ⟨d, hd, hfull, hitem, hdist⟩ := inv.exists_probe hx
    rw [hxkey] at hfull hitem hdist
    obtain ⟨last, hrun, hlast, hlastItem, hlastFull⟩ := place_present inv hadvance hsame hd hfull
      (by rw [hitem, hxkey]) hdist d carried fuel (by omega) (by omega)
    rw [hzero, add_zero, hstart] at hrun
    refine ⟨_, last, Nat.mod_lt _ inv.pos, hrun, ?_⟩
    exact inv.replace hfull (by rw [hitem, hxkey, hlastItem]) (by rw [hlastFull, hcarried])
      (by rw [hlast, hdist]) hlastItem
  · left
    refine ⟨hmem, ?_⟩
    have hp : home target + (table.length - 1) + 1 = home target + table.length := by
      have := inv.pos
      omega
    obtain ⟨m, hm, hempty, hbusy⟩ := exists_first_empty inv.pos hroom (home target + table.length)
    have hstops : L.Stops (L.slot table (home target + table.length + m + 1)) := by
      by_contra hnot
      rw [Layout.Stops, not_or, Bool.not_eq_true] at hnot
      have hhere := (inv.ordered _ hnot.1 (Nat.pos_of_ne_zero hnot.2)).1
      rw [hempty] at hhere
      contradiction
    have hcarry : Carry L key home table carried (home target + (table.length - 1)) 0 :=
      ⟨hcarried, by rw [hzero, hp, Nat.add_mod_right, add_zero], hzero.le, by omega⟩
    obtain ⟨after, hrun, hafter⟩ := place_fresh m fuel
      inv.toShape hcarry hadvance (by rw [hp, add_zero, Nat.add_mod_right]) hhome
      (by omega) (by omega) (by rw [hp]; exact hempty)
      (by
        intro i hi
        rw [hp]
        refine ⟨hbusy i hi, ?_⟩
        rw [Bool.eq_false_iff]
        intro hhit
        apply hmem
        rw [← (hsame _ (hbusy i hi)).mp hhit]
        exact Multiset.mem_map_of_mem key (mem_items_slot inv.pos (hbusy i hi)))
      (by rw [hp]; exact hstops)
    rw [hp, Nat.add_mod_right, hstart] at hrun
    refine ⟨after, hrun, hafter.length_eq, ⟨hafter.shape, ?_, _, hafter.stops⟩, hafter.items_eq⟩
    rw [hafter.items_eq, Multiset.map_cons, Multiset.nodup_cons]
    exact ⟨hmem, inv.distinct⟩

end Yans.Library.RobinHood
