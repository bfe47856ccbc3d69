import Yans.Library.RobinHood.Table

/-! Linear probing with an early stop. The loop is parameterised by the test
made at each slot, because tables order their tests differently; `Judges` is
what the correctness proof needs of such a test. -/
namespace Yans.Library.RobinHood

inductive Verdict where
  | found
  | stop
  | next
deriving DecidableEq

variable {Entry Item Key : Type}

/-- The do-while loop of a search. `advance` reduces an index into the table;
`none` stands for a loop that is still running when the fuel is spent. -/
def probe (L : Layout Entry Item) (advance : ℕ → ℕ) (judge : Entry → ℕ → Verdict)
    (table : List Entry) (start : ℕ) : ℕ → ℕ → ℕ → Option (Option ℕ)
  | 0, _, _ => none
  | fuel + 1, position, distance =>
    match judge (L.entryAt table position) distance with
    | .found => some (some position)
    | .stop => some none
    | .next =>
      if advance (position + 1) = start then some none
      else probe L advance judge table start fuel (advance (position + 1)) (distance + 1)

/-- `advance` is reduction modulo the table size on the indices a loop forms. -/
def Advances (advance : ℕ → ℕ) (size : ℕ) : Prop :=
  ∀ n ≤ size, advance n = n % size

/-- A test that recognises `target` among the entries of a table and never
stops before the place where the key would have to be. -/
structure Judges (L : Layout Entry Item) (key : Item → Key) (table : List Entry) (target : Key)
    (judge : Entry → ℕ → Verdict) : Prop where
  found : ∀ n d, judge (L.slot table n) d = .found →
    L.isEmpty (L.slot table n) = false ∧ key (L.item (L.slot table n)) = target
  hit : ∀ n d, L.isEmpty (L.slot table n) = false → key (L.item (L.slot table n)) = target →
    d ≤ L.distance (L.slot table n) → judge (L.slot table n) d = .found
  pass : ∀ n d, L.isEmpty (L.slot table n) = false → key (L.item (L.slot table n)) ≠ target →
    d ≤ L.distance (L.slot table n) → judge (L.slot table n) d = .next

variable {L : Layout Entry Item} {key : Item → Key} {home : Key → ℕ}

variable {advance : ℕ → ℕ}

theorem Advances.step {size : ℕ} (hadvance : Advances advance size)
    (hpos : 0 < size) (n : ℕ) : advance (n % size + 1) = (n + 1) % size := by
  have hle : n % size + 1 ≤ size := Nat.mod_lt n hpos
  rw [hadvance _ hle, Nat.mod_add_mod]

variable {table : List Entry} {target : Key} {judge : Entry → ℕ → Verdict}

theorem probe_present (inv : Inv L key home table) (hadvance : Advances advance table.length)
    (hjudge : Judges L key table target judge)
    {d : ℕ} (hd : d < table.length)
    (hfull : L.isEmpty (L.slot table (home target + d)) = false)
    (hkey : key (L.item (L.slot table (home target + d))) = target)
    (hdist : L.distance (L.slot table (home target + d)) = d) :
    ∀ gap j fuel, j + gap = d → gap < fuel →
      probe L advance judge table (home target % table.length) fuel
        ((home target + j) % table.length) j =
          some (some ((home target + d) % table.length)) := by
  intro gap
  induction gap with
  | zero =>
    intro j fuel hj hfuel
    obtain ⟨fuel, rfl⟩ : ∃ k, fuel = k + 1 := ⟨fuel - 1, by omega⟩
    have hjd : j = d := by omega
    subst hjd
    have hfound := hjudge.hit _ j hfull hkey hdist.ge
    unfold Layout.slot at hfound
    simp only [probe, hfound]
  | succ gap ih =>
    intro j fuel hj hfuel
    obtain ⟨fuel, rfl⟩ : ∃ k, fuel = k + 1 := ⟨fuel - 1, by omega⟩
    obtain ⟨hslot, hle⟩ := inv.chain hfull hdist j (by omega)
    have hother : key (L.item (L.slot table (home target + j))) ≠ target := by
      intro hsame
      have hmod := inv.slot_unique hfull hslot (hkey.trans hsame.symm)
      have hgap := mod_add_ne (m := table.length) (n := home target + j) (k := d - j)
        (by omega) (by omega)
      rw [show home target + j + (d - j) = home target + d by omega] at hgap
      exact hgap hmod
    have hnext := hjudge.pass _ j hslot hother hle
    unfold Layout.slot at hnext
    have hwrap : (home target + j + 1) % table.length ≠ home target % table.length := by
      rw [add_assoc]
      exact mod_add_ne (by omega) (by omega)
    simp only [probe, hnext, hadvance.step inv.pos, if_neg hwrap]
    rw [add_assoc]
    exact ih (j + 1) fuel (by omega) (by omega)

theorem probe_miss (hpos : 0 < table.length) (hadvance : Advances advance table.length)
    (hmiss : ∀ n d, judge (L.slot table n) d ≠ .found) (start : ℕ) :
    ∀ left j fuel, j + left = table.length → 0 < left → left ≤ fuel →
      probe L advance judge table (start % table.length) fuel
        ((start + j) % table.length) j = some none := by
  intro left
  induction left with
  | zero => intro j fuel _ hleft; omega
  | succ left ih =>
    intro j fuel hj _ hfuel
    obtain ⟨fuel, rfl⟩ : ∃ k, fuel = k + 1 := ⟨fuel - 1, by omega⟩
    have hnot := hmiss (start + j) j
    unfold Layout.slot at hnot
    unfold probe
    cases hcase : judge (L.entryAt table ((start + j) % table.length)) j with
    | found => exact absurd hcase hnot
    | stop => rfl
    | next =>
      simp only [hadvance.step hpos]
      split
      · rfl
      · rename_i hwrap
        have hleft : 0 < left := by
          by_contra hzero
          apply hwrap
          rw [add_assoc, show j + 1 = table.length by omega, Nat.add_mod_right]
        rw [add_assoc]
        exact ih (j + 1) fuel (by omega) hleft (by omega)

theorem probe_absent (hpos : 0 < table.length) (hadvance : Advances advance table.length)
    (hjudge : Judges L key table target judge)
    (habsent : target ∉ (L.items table).map key) (start : ℕ) :
    ∀ left j fuel, j + left = table.length → 0 < left → left ≤ fuel →
      probe L advance judge table (start % table.length) fuel
        ((start + j) % table.length) j = some none := by
  apply probe_miss hpos hadvance
  intro n d hfound
  obtain ⟨hfull, hkey⟩ := hjudge.found _ _ hfound
  exact habsent (hkey ▸ Multiset.mem_map_of_mem key (mem_items_slot hpos hfull))

theorem probe_congr {judge' : Entry → ℕ → Verdict}
    (h : ∀ n d, judge (L.entryAt table n) d = judge' (L.entryAt table n) d) (start : ℕ) :
    ∀ fuel position distance, probe L advance judge table start fuel position distance =
      probe L advance judge' table start fuel position distance := by
  intro fuel
  induction fuel with
  | zero => exact fun _ _ => rfl
  | succ fuel ih =>
    intro position distance
    unfold probe
    rw [h, ih]

theorem probe_spec (inv : Inv L key home table) (hadvance : Advances advance table.length)
    (hjudge : Judges L key table target judge)
    (hhome : home target < table.length) {fuel : ℕ} (hfuel : table.length ≤ fuel) :
    (target ∉ (L.items table).map key ∧
      probe L advance judge table (home target) fuel (home target) 0 = some none) ∨
    ∃ position < table.length,
      probe L advance judge table (home target) fuel (home target) 0 = some (some position) ∧
      L.isEmpty (L.slot table position) = false ∧
      key (L.item (L.slot table position)) = target := by
  have hstart : home target % table.length = home target := Nat.mod_eq_of_lt hhome
  by_cases hmem : target ∈ (L.items table).map key
  · right
    obtain ⟨x, hx, rfl⟩ := Multiset.mem_map.mp hmem
    obtain ⟨d, hd, hfull, hitem, hdist⟩ := inv.exists_probe hx
    have hrun := probe_present inv hadvance hjudge hd hfull (by rw [hitem]) hdist d 0 fuel
      (by omega) (by omega)
    rw [add_zero, hstart] at hrun
    refine ⟨_, Nat.mod_lt _ inv.pos, hrun, ?_⟩
    rw [slot_mod, hitem]
    exact ⟨hfull, rfl⟩
  · left
    have hrun := probe_absent inv.pos hadvance hjudge hmem (home target) table.length 0 fuel
      (by omega) inv.pos hfuel
    rw [add_zero, hstart] at hrun
    exact ⟨hmem, hrun⟩

/-! Searching for the mark of an empty slot -/

variable (L)

/-- From offset `j` of the round that begins at `start` no empty slot comes
before the end of the round or an entry that is closer to its home than to
`start`. -/
def Shielded (table : List Entry) (start j : ℕ) : Prop :=
  ∃ d, j ≤ d ∧ d < table.length ∧
    (∀ i, j ≤ i → i ≤ d → L.isEmpty (L.slot table (start + i)) = false) ∧
    (L.distance (L.slot table (start + d)) < d ∨ d + 1 = table.length)

def EmptyJudge (judge : Entry → ℕ → Verdict) : Prop :=
  ∀ entry d, judge entry d =
    if L.isEmpty entry = true then .found else if L.distance entry < d then .stop else .next

variable {L}

theorem Shielded.full {start j : ℕ} (h : Shielded L table start j) :
    L.isEmpty (L.slot table (start + j)) = false := by
  obtain ⟨d, hle, -, hfull, -⟩ := h
  exact hfull j (le_refl j) hle

theorem Shielded.step_iff {start j : ℕ}
    (hfull : L.isEmpty (L.slot table (start + j)) = false)
    (hfar : ¬L.distance (L.slot table (start + j)) < j) (hmore : j + 1 ≠ table.length) :
    Shielded L table start j ↔ Shielded L table start (j + 1) := by
  constructor
  · rintro ⟨d, hle, hd, hall, hend⟩
    have hne : d ≠ j := by
      rintro rfl
      exact hend.elim hfar hmore
    exact ⟨d, by omega, hd, fun i hi => hall i (by omega), hend⟩
  · rintro ⟨d, hle, hd, hall, hend⟩
    refine ⟨d, by omega, hd, ?_, hend⟩
    intro i hi hid
    by_cases hij : i = j
    · rw [hij]
      exact hfull
    · exact hall i (by omega) hid

theorem probe_empty (hpos : 0 < table.length) (hadvance : Advances advance table.length)
    (hjudge : EmptyJudge L judge) (start : ℕ) :
    ∀ left j fuel, j + left = table.length → 0 < left → left ≤ fuel →
      Shielded L table start j ∧ probe L advance judge table (start % table.length) fuel
        ((start + j) % table.length) j = some none ∨
      ¬Shielded L table start j ∧ ∃ position, probe L advance judge table (start % table.length)
        fuel ((start + j) % table.length) j = some (some position) := by
  intro left
  induction left with
  | zero => intro j fuel _ hleft; omega
  | succ left ih =>
    intro j fuel hj _ hfuel
    obtain ⟨fuel, rfl⟩ : ∃ k, fuel = k + 1 := ⟨fuel - 1, by omega⟩
    have hcase := hjudge (L.slot table (start + j)) j
    unfold Layout.slot at hcase
    unfold probe
    cases hempty : L.isEmpty (L.slot table (start + j)) with
    | true =>
      right
      unfold Layout.slot at hempty
      rw [if_pos hempty] at hcase
      simp only [hcase]
      refine ⟨fun h => ?_, _, rfl⟩
      have hfull := h.full
      unfold Layout.slot at hfull
      exact absurd (hempty.symm.trans hfull) Bool.true_eq_false.mp
    | false =>
      have hfull := hempty
      unfold Layout.slot at hempty
      rw [if_neg (by rw [hempty]; exact Bool.false_ne_true)] at hcase
      by_cases hless : L.distance (L.entryAt table ((start + j) % table.length)) < j
      · left
        rw [if_pos hless] at hcase
        simp only [hcase]
        refine ⟨⟨j, le_refl j, by omega, ?_, .inl hless⟩, trivial⟩
        intro i hi hij
        rw [Nat.le_antisymm hij hi]
        exact hfull
      · rw [if_neg hless] at hcase
        simp only [hcase, hadvance.step hpos]
        by_cases hround : j + 1 = table.length
        · left
          rw [add_assoc, hround, Nat.add_mod_right, if_pos rfl]
          refine ⟨⟨j, le_refl j, by omega, ?_, .inr hround⟩, rfl⟩
          intro i hi hij
          rw [Nat.le_antisymm hij hi]
          exact hfull
        · have hwrap : (start + j + 1) % table.length ≠ start % table.length := by
            rw [add_assoc]
            exact mod_add_ne (by omega) (by omega)
          rw [if_neg hwrap, add_assoc, Shielded.step_iff hfull hless hround]
          exact ih (j + 1) fuel (by omega) (by omega) (by omega)

end Yans.Library.RobinHood
