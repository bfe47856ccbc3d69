import Mathlib.Algebra.BigOperators.Group.Multiset.Basic
import Mathlib.Data.Nat.ModEq

/-! Robin Hood hash tables over an arbitrary entry representation. A table is
a list of entries read as a circular array. The invariants are stated on the
periodic view `slot`, so that neither probing nor shifting needs a case for
the wrap-around. -/
namespace Yans.Library.RobinHood

/-- How a table stores its entries: which bit patterns count as empty, where
the probe distance lives, and which part of an entry is its payload. -/
structure Layout (Entry Item : Type) where
  isEmpty : Entry → Bool
  distance : Entry → ℕ
  item : Entry → Item
  withDistance : Entry → ℕ → Entry
  zero : Entry
  isEmpty_zero : isEmpty zero = true
  isEmpty_withDistance : ∀ entry d, isEmpty (withDistance entry d) = isEmpty entry
  distance_withDistance : ∀ entry d, distance (withDistance entry d) = d
  item_withDistance : ∀ entry d, item (withDistance entry d) = item entry

attribute [simp] Layout.isEmpty_zero Layout.isEmpty_withDistance
  Layout.distance_withDistance Layout.item_withDistance

variable {Entry Item Key : Type} (L : Layout Entry Item)

def Layout.entryAt (table : List Entry) (index : ℕ) : Entry :=
  table.getD index L.zero

/-- The periodic view: every natural number names a slot. -/
def Layout.slot (table : List Entry) (n : ℕ) : Entry :=
  L.entryAt table (n % table.length)

def Layout.payload (entry : Entry) : Multiset Item :=
  if L.isEmpty entry then 0 else {L.item entry}

def Layout.items (table : List Entry) : Multiset Item :=
  (table.map L.payload).sum

def Layout.Stops (entry : Entry) : Prop :=
  L.isEmpty entry = true ∨ L.distance entry = 0

variable {L}

theorem slot_congr (table : List Entry) {a b : ℕ}
    (h : a % table.length = b % table.length) : L.slot table a = L.slot table b := by
  unfold Layout.slot
  rw [h]

theorem slot_mod (table : List Entry) (n : ℕ) :
    L.slot table (n % table.length) = L.slot table n :=
  slot_congr table (Nat.mod_mod _ _)

variable {table : List Entry} {n : ℕ}

theorem slot_of_lt (h : n < table.length) :
    L.slot table n = L.entryAt table n := by
  unfold Layout.slot
  rw [Nat.mod_eq_of_lt h]

@[simp] theorem slot_add_length (table : List Entry) (n : ℕ) :
    L.slot table (n + table.length) = L.slot table n :=
  slot_congr table (Nat.add_mod_right _ _)

variable {index : ℕ}

theorem entryAt_of_lt (h : index < table.length) :
    L.entryAt table index = table[index] := by
  simp [Layout.entryAt, h]

theorem entryAt_set (hindex : index < table.length)
    (entry : Entry) (other : ℕ) :
    L.entryAt (table.set index entry) other =
      if other = index then entry else L.entryAt table other := by
  unfold Layout.entryAt
  rw [List.getD_eq_getElem?_getD, List.getD_eq_getElem?_getD, List.getElem?_set]
  by_cases h : other = index
  · simp [h, hindex]
  · simp [h, Ne.symm h]

theorem slot_set (hpos : 0 < table.length) (n : ℕ)
    (entry : Entry) (other : ℕ) :
    L.slot (table.set (n % table.length) entry) other =
      if other % table.length = n % table.length then entry else L.slot table other := by
  unfold Layout.slot
  rw [List.length_set, entryAt_set (Nat.mod_lt _ hpos)]

theorem slot_set_self (hpos : 0 < table.length) (n : ℕ)
    (entry : Entry) : L.slot (table.set (n % table.length) entry) n = entry := by
  rw [slot_set hpos, if_pos rfl]

theorem slot_set_ne (hpos : 0 < table.length) {other : ℕ}
    (entry : Entry) (h : other % table.length ≠ n % table.length) :
    L.slot (table.set (n % table.length) entry) other = L.slot table other := by
  rw [slot_set hpos, if_neg h]

theorem mod_add_ne {m k : ℕ} (hk : 0 < k) (hlt : k < m) :
    (n + k) % m ≠ n % m := by
  intro h
  have hzero : k % m = 0 := by
    have := Nat.ModEq.add_left_cancel' n (show n + k ≡ n + 0 [MOD m] from h)
    simpa [Nat.ModEq] using this
  rw [Nat.mod_eq_of_lt hlt] at hzero
  omega

theorem items_set_add (hindex : index < table.length)
    (entry : Entry) :
    L.items (table.set index entry) + L.payload (L.entryAt table index) =
      L.items table + L.payload entry := by
  induction table generalizing index with
  | nil => simp at hindex
  | cons head tail ih =>
    cases index with
    | zero =>
      simp only [List.set_cons_zero, Layout.items, List.map_cons, List.sum_cons,
        Layout.entryAt, List.getD_cons_zero]
      rw [add_right_comm, add_comm (L.payload entry), add_right_comm]
    | succ index =>
      have htail := ih (by simpa using hindex)
      simp only [Layout.items, Layout.entryAt, List.set_cons_succ, List.map_cons,
        List.sum_cons, List.getD_cons_succ] at htail ⊢
      rw [add_assoc, htail, add_assoc]

@[simp] theorem length_set_mod (table : List Entry) (n : ℕ) (entry : Entry) :
    (table.set (n % table.length) entry).length = table.length :=
  List.length_set

theorem items_set_slot (hpos : 0 < table.length) (n : ℕ)
    (entry : Entry) :
    L.items (table.set (n % table.length) entry) + L.payload (L.slot table n) =
      L.items table + L.payload entry :=
  items_set_add (Nat.mod_lt _ hpos) entry

theorem mem_payload {entry : Entry} {x : Item} :
    x ∈ L.payload entry ↔ L.isEmpty entry = false ∧ L.item entry = x := by
  unfold Layout.payload
  cases hempty : L.isEmpty entry
  · simp only [Bool.false_eq_true, if_false, Multiset.mem_singleton, true_and]
    exact eq_comm
  · simp

theorem mem_items {x : Item} :
    x ∈ L.items table ↔
      ∃ n < table.length, L.isEmpty (L.slot table n) = false ∧ L.item (L.slot table n) = x := by
  have hsum : x ∈ L.items table ↔ ∃ entry ∈ table, x ∈ L.payload entry := by
    unfold Layout.items
    induction table with
    | nil => simp
    | cons head tail ih => simp [ih]
  rw [hsum]
  constructor
  · rintro ⟨entry, hmem, hx⟩
    obtain ⟨n, hn, hentry⟩ := List.getElem_of_mem hmem
    refine ⟨n, hn, ?_⟩
    rw [slot_of_lt hn, entryAt_of_lt hn, hentry]
    exact mem_payload.mp hx
  · rintro ⟨n, hn, hx⟩
    rw [slot_of_lt hn, entryAt_of_lt hn] at hx
    exact ⟨table[n], List.getElem_mem hn, mem_payload.mpr hx⟩

theorem items_eq_payload_add (hpos : 0 < table.length) (n : ℕ) :
    L.items table =
      L.items (table.set (n % table.length) L.zero) + L.payload (L.slot table n) := by
  have hzero : L.payload L.zero = 0 := by simp [Layout.payload]
  rw [items_set_slot hpos, hzero, add_zero]

theorem mem_items_slot (hpos : 0 < table.length)
    (h : L.isEmpty (L.slot table n) = false) : L.item (L.slot table n) ∈ L.items table := by
  refine mem_items.mpr ⟨n % table.length, Nat.mod_lt _ hpos, ?_⟩
  rw [slot_mod]
  exact ⟨h, rfl⟩

variable (L)

/-- The two order conditions of a Robin Hood table: each entry sits at its
recorded distance from home, and along the probe sequence distances grow by at
most one per slot, starting from zero behind an empty slot. -/
structure Shape (key : Item → Key) (home : Key → ℕ) (table : List Entry) : Prop where
  pos : 0 < table.length
  placed : ∀ n, L.isEmpty (L.slot table n) = false →
    L.distance (L.slot table n) < table.length ∧
      (home (key (L.item (L.slot table n))) + L.distance (L.slot table n)) % table.length =
        n % table.length
  ordered : ∀ n, L.isEmpty (L.slot table (n + 1)) = false →
    0 < L.distance (L.slot table (n + 1)) →
      L.isEmpty (L.slot table n) = false ∧
        L.distance (L.slot table (n + 1)) ≤ L.distance (L.slot table n) + 1

/-- The invariant of a whole table. The last field keeps backward shifts
finite when no slot is empty. -/
structure Inv (key : Item → Key) (home : Key → ℕ) (table : List Entry) : Prop
    extends Shape L key home table where
  distinct : ((L.items table).map key).Nodup
  stops : ∃ n, L.Stops (L.slot table n)

variable {L} {key : Item → Key} {home : Key → ℕ}

theorem Inv.slot_unique (inv : Inv L key home table) {a b : ℕ}
    (ha : L.isEmpty (L.slot table a) = false) (hb : L.isEmpty (L.slot table b) = false)
    (hkey : key (L.item (L.slot table a)) = key (L.item (L.slot table b))) :
    a % table.length = b % table.length := by
  by_contra hne
  have hitems := items_eq_payload_add (L := L) inv.pos a
  have hpayload : L.payload (L.slot table a) = {L.item (L.slot table a)} := by
    simp [Layout.payload, ha]
  have hmem : L.item (L.slot table b) ∈ L.items (table.set (a % table.length) L.zero) := by
    have hslot := slot_set_ne (L := L) inv.pos L.zero (Ne.symm hne)
    rw [← hslot] at hb ⊢
    exact mem_items_slot (by simpa using inv.pos) hb
  have hnodup := inv.distinct
  rw [hitems, hpayload, Multiset.map_add, Multiset.map_singleton, add_comm,
    Multiset.singleton_add, Multiset.nodup_cons] at hnodup
  exact hnodup.1 (hkey ▸ Multiset.mem_map_of_mem key hmem)

/-- Between a key's home and its slot no slot is empty, and every entry there
is at least as far from its own home as the probe is from the key's. This is
what makes an early stop of the search sound. -/
theorem Shape.chain (shape : Shape L key home table) {start d : ℕ}
    (hfull : L.isEmpty (L.slot table (start + d)) = false)
    (hdist : L.distance (L.slot table (start + d)) = d) :
    ∀ j ≤ d, L.isEmpty (L.slot table (start + j)) = false ∧
      j ≤ L.distance (L.slot table (start + j)) := by
  intro j hj
  obtain ⟨gap, hgap⟩ := Nat.exists_eq_add_of_le hj
  clear hj
  -- downward along the probe sequence, from the key's slot towards its home
  induction gap generalizing j with
  | zero =>
    have hj : j = d := by omega
    subst hj
    exact ⟨hfull, hdist.ge⟩
  | succ gap ih =>
    obtain ⟨hnext, hle⟩ := ih (j + 1) (by omega)
    rw [← add_assoc] at hnext hle
    obtain ⟨hprev, hstep⟩ := shape.ordered (start + j) hnext (by omega)
    exact ⟨hprev, by omega⟩

theorem Shape.exists_probe (shape : Shape L key home table) {x : Item}
    (hx : x ∈ L.items table) :
    ∃ d < table.length, L.isEmpty (L.slot table (home (key x) + d)) = false ∧
      L.item (L.slot table (home (key x) + d)) = x ∧
      L.distance (L.slot table (home (key x) + d)) = d := by
  obtain ⟨n, hn, hfull, hitem⟩ := mem_items.mp hx
  obtain ⟨hlt, hplace⟩ := shape.placed n hfull
  rw [hitem] at hplace
  have hslot := slot_congr (L := L) table hplace
  refine ⟨L.distance (L.slot table n), hlt, ?_⟩
  rw [hslot]
  exact ⟨hfull, hitem, rfl⟩

theorem slot_replicate_zero (size n : ℕ) : L.slot (List.replicate size L.zero) n = L.zero := by
  unfold Layout.slot Layout.entryAt
  rw [List.getD_eq_getElem?_getD, List.getElem?_replicate]
  split <;> rfl

@[simp] theorem items_replicate_zero (size : ℕ) : L.items (List.replicate size L.zero) = 0 := by
  simp [Layout.items, Layout.payload]

theorem inv_replicate_zero {size : ℕ} (hsize : 0 < size) :
    Inv L key home (List.replicate size L.zero) where
  pos := by simpa using hsize
  placed := by
    intro n h
    rw [slot_replicate_zero, L.isEmpty_zero] at h
    contradiction
  ordered := by
    intro n h
    rw [slot_replicate_zero, L.isEmpty_zero] at h
    contradiction
  distinct := by simp
  stops := ⟨0, .inl (by rw [slot_replicate_zero, L.isEmpty_zero])⟩

theorem card_items_le (table : List Entry) : (L.items table).card ≤ table.length := by
  unfold Layout.items
  induction table with
  | nil => simp
  | cons head tail ih =>
    have hhead : (L.payload head).card ≤ 1 := by
      unfold Layout.payload
      split <;> simp
    simp only [List.map_cons, List.sum_cons, Multiset.card_add, List.length_cons]
    omega

theorem exists_empty (h : (L.items table).card < table.length) :
    ∃ n, L.isEmpty (L.slot table n) = true := by
  have hlist : ∃ entry ∈ table, L.isEmpty entry = true := by
    unfold Layout.items at h
    induction table with
    | nil => simp at h
    | cons head tail ih =>
      cases hhead : L.isEmpty head with
      | true => exact ⟨head, List.mem_cons_self, hhead⟩
      | false =>
        have hone : (L.payload head).card = 1 := by simp [Layout.payload, hhead]
        simp only [List.map_cons, List.sum_cons, Multiset.card_add, hone, List.length_cons] at h
        obtain ⟨entry, hmem, hentry⟩ := ih (by omega)
        exact ⟨entry, List.mem_cons_of_mem _ hmem, hentry⟩
  obtain ⟨entry, hmem, hentry⟩ := hlist
  obtain ⟨n, hn, rfl⟩ := List.getElem_of_mem hmem
  exact ⟨n, by rwa [slot_of_lt hn, entryAt_of_lt hn]⟩

end Yans.Library.RobinHood
