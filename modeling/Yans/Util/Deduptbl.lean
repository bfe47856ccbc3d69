import Yans.Library.Memory
import Yans.Library.Refinement
import Yans.Library.RobinHood.Remove
import Yans.Util.TableSize
import Mathlib.Data.Finset.Card

/-! `lib/util/deduptbl.c`: a fixed-size Robin Hood table of 20-byte identifiers
in mapped memory, and its refinement of a finite set. A fresh mapping, of a new
file or anonymous, is zeroed, and the all-zero identifier marks an empty entry.
Mapping is taken to succeed. -/
namespace Yans.Util.Deduptbl

open Library.RobinHood Library.Refinement TableSize

inductive DeduptblCode where
  | ok
  | etoobig
  | efull
  | eexist
  | enoslot
deriving DecidableEq

structure DeduptblId where
  u8 : Vector UInt8 20
deriving DecidableEq

/-- `DEDUPTBL_ID_EMPTY` -/
def idEmpty : DeduptblId := ⟨Vector.replicate 20 0⟩

theorem idSize_pos : 0 < 20 := by decide

/-- The first word of the union, `val.u32[0]`. -/
def DeduptblId.word (id : DeduptblId) : UInt32 :=
  id.u8[0].toUInt32 ||| id.u8[1].toUInt32 <<< 8 ||| id.u8[2].toUInt32 <<< 16 |||
    id.u8[3].toUInt32 <<< 24

/-- The identifier of data with the given SHA-1 digest. For the digest that marks
an empty entry, `val.u32[0]` is incremented. -/
def deduptblId (digest : Vector UInt8 20) : DeduptblId :=
  if DeduptblId.mk digest = idEmpty then ⟨digest.set 0 1⟩ else ⟨digest⟩

structure DeduptblEntry where
  distance : ℕ
  id : DeduptblId
deriving DecidableEq

structure DeduptblTable where
  nmax : UInt32
  nused : UInt32
  capLog2 : UInt32
  entries : List DeduptblEntry
deriving DecidableEq

def entryLayout : Layout DeduptblEntry DeduptblId where
  isEmpty entry := entry.id == idEmpty
  distance := DeduptblEntry.distance
  item := DeduptblEntry.id
  withDistance entry d := { entry with distance := d }
  zero := ⟨0, idEmpty⟩
  isEmpty_zero := rfl
  isEmpty_withDistance _ _ := rfl
  distance_withDistance _ _ := rfl
  item_withDistance _ _ := rfl

/-- `(1 << cap_log2) - 1`; at `cap_log2 = 31` the shift is taken modulo
`2 ^ 32`. -/
def tableMask (table : DeduptblTable) : UInt32 :=
  (1 <<< table.capLog2) - 1

def tableIndex (table : DeduptblTable) (val : UInt32) : UInt32 :=
  val &&& tableMask table

def nextIndex (table : DeduptblTable) (position : ℕ) : ℕ :=
  (tableIndex table (UInt32.ofNat position)).toNat

def startPos (table : DeduptblTable) (id : DeduptblId) : ℕ :=
  (tableIndex table id.word).toNat

/-- The slots a probe can visit before it is back at its start. -/
def DeduptblTable.cap (table : DeduptblTable) : ℕ :=
  (1 <<< table.capLog2 : UInt32).toNat

/-- The loop `while (cap >>= 1) cap_log2++`. -/
def capLog2 (cap : ℕ) : ℕ :=
  if cap / 2 = 0 then 0 else capLog2 (cap / 2) + 1
termination_by cap

/-- `DEDUPTBL_MAX_ENTRIES` -/
def maxEntries : UInt32 := 0x3fffffff

def deduptblCreate (max : UInt32) : Except DeduptblCode DeduptblTable :=
  if max > maxEntries then .error .etoobig
  else
    let cap := roundUpPow2 (if max + max / 6 > 32 then max + max / 6 else 32)
    .ok
      { nmax := max
        nused := 0
        capLog2 := UInt32.ofNat (capLog2 cap.toNat)
        entries := List.replicate cap.toNat entryLayout.zero }

/-- The test of `deduptbl_contains` at one slot. -/
def containsJudge (id : DeduptblId) (ent : DeduptblEntry) (distance : ℕ) : Verdict :=
  if ent.id = id then .found
  else if ent.distance < distance ∨ ent.id = idEmpty then .stop
  else .next

def deduptblContains (table : DeduptblTable) (id : DeduptblId) : Option Bool := do
  let start := startPos table id
  match ← probe entryLayout (nextIndex table) (containsJudge id) table.entries start
      table.cap start 0 with
  | none => pure false
  | some _ => pure true

def deduptblUpdate (table : DeduptblTable) (id : DeduptblId) :
    Option (DeduptblCode × DeduptblTable) :=
  if table.nused ≥ table.nmax then some (.efull, table)
  else do
    let start := startPos table id
    match ← place entryLayout (nextIndex table) (fun curr => curr.id == id) start
        table.cap table.entries ⟨0, id⟩ start with
    | .filled entries => pure (.ok, { table with nused := table.nused + 1, entries := entries })
    -- the swaps made before an equal identifier is met stay in the mapping
    | .hit entries _ _ => pure (.eexist, { table with entries := entries })
    | .noSlot entries => pure (.enoslot, { table with entries := entries })

theorem deduptblId_ne_empty (digest : Vector UInt8 20) : deduptblId digest ≠ idEmpty := by
  unfold deduptblId
  split
  · rename_i hzero
    obtain rfl : digest = Vector.replicate 20 0 := DeduptblId.mk.inj hzero
    decide
  · assumption

theorem deduptblId_eq_iff {left right : Vector UInt8 20} :
    deduptblId left = deduptblId right ↔ left = right ∨
      (left = idEmpty.u8 ∧ right = idEmpty.u8.set 0 1) ∨
      (right = idEmpty.u8 ∧ left = idEmpty.u8.set 0 1) := by
  have hmk : ∀ digest : Vector UInt8 20, DeduptblId.mk digest = idEmpty ↔ digest = idEmpty.u8 :=
    fun digest => ⟨congrArg DeduptblId.u8, congrArg DeduptblId.mk⟩
  unfold deduptblId
  by_cases hleft : left = idEmpty.u8
  · rw [if_pos ((hmk left).mpr hleft)]
    by_cases hright : right = idEmpty.u8
    · simp [hleft, hright]
    · rw [if_neg fun h => hright ((hmk right).mp h), DeduptblId.mk.injEq]
      simp [hleft, hright, Ne.symm hright, eq_comm]
  · rw [if_neg fun h => hleft ((hmk left).mp h)]
    by_cases hright : right = idEmpty.u8
    · rw [if_pos ((hmk right).mpr hright), DeduptblId.mk.injEq]
      simp [hleft, hright]
    · rw [if_neg fun h => hright ((hmk right).mp h), DeduptblId.mk.injEq]
      simp [hleft, hright]

theorem containsJudge_judges {id : DeduptblId} (hid : id ≠ idEmpty)
    (table : List DeduptblEntry) :
    Judges entryLayout (fun item => item) table id (containsJudge id) where
  found := by
    intro n d h
    set entry := entryLayout.slot table n
    have hsame : entry.id = id := by
      unfold containsJudge at h
      by_contra hne
      rw [if_neg hne] at h
      split at h <;> contradiction
    exact ⟨by simp [entryLayout, hsame, hid], hsame⟩
  hit := by
    intro n d _ hsame _
    exact if_pos hsame
  pass := by
    intro n d hfull hne hle
    set entry := entryLayout.slot table n
    have hused : entry.id ≠ idEmpty := by simpa [entryLayout] using hfull
    have hstop : ¬(entry.distance < d ∨ entry.id = idEmpty) := by
      rintro (hlt | hzero)
      · exact absurd hle (not_le.mpr hlt)
      · exact hused hzero
    exact (if_neg hne).trans (if_neg hstop)

theorem capLog2_two_pow (k : ℕ) : capLog2 (2 ^ k) = k := by
  induction k with
  | zero =>
    unfold capLog2
    simp
  | succ k ih =>
    have hhalf : 2 ^ (k + 1) / 2 = 2 ^ k := by
      rw [pow_succ, Nat.mul_div_cancel _ (by decide)]
    unfold capLog2
    rw [hhalf, if_neg (Nat.two_pow_pos k).ne', ih]

/-- The number of stored identifiers stays at most `nmax`, and there are at
least that many slots. -/
structure WellFormed (table : DeduptblTable) : Prop where
  sized : Sized (1 <<< table.capLog2) (tableMask table) (rehashLimit (1 <<< table.capLog2))
  length_eq : table.entries.length = table.cap
  inv : Inv entryLayout (fun item => item) (startPos table) table.entries
  nused_eq : table.nused.toNat = (entryLayout.items table.entries).card
  nmax_le : table.nmax.toNat ≤ table.cap

variable {table : DeduptblTable}

namespace WellFormed

theorem advances (wf : WellFormed table) : Advances (nextIndex table) table.entries.length := by
  rw [wf.length_eq]
  exact wf.sized.advances

theorem startPos_lt (wf : WellFormed table) (id : DeduptblId) :
    startPos table id < table.entries.length := by
  rw [wf.length_eq]
  exact wf.sized.index_lt _

theorem deduptblContains_spec (wf : WellFormed table) {id : DeduptblId} (hid : id ≠ idEmpty) :
    deduptblContains table id = some (decide (id ∈ entryLayout.items table.entries)) := by
  have hprobe := probe_spec wf.inv wf.advances (containsJudge_judges hid _) (wf.startPos_lt id)
    wf.length_eq.le
  rw [Multiset.map_id'] at hprobe
  obtain ⟨habsent, hrun⟩ | ⟨index, -, hrun, hfull, hstored⟩ := hprobe
  · simp [deduptblContains, hrun, habsent]
  · have hmem : id ∈ entryLayout.items table.entries := by
      rw [← hstored]
      exact mem_items_slot wf.inv.pos hfull
    simp [deduptblContains, hrun, hmem]

theorem deduptblUpdate_spec (wf : WellFormed table) {id : DeduptblId} (hid : id ≠ idEmpty)
    (hroom : table.nused.toNat < table.nmax.toNat) :
    (id ∈ entryLayout.items table.entries ∧ deduptblUpdate table id = some (.eexist, table)) ∨
    (id ∉ entryLayout.items table.entries ∧
      ∃ after, deduptblUpdate table id = some (.ok, after) ∧ WellFormed after ∧
        after.nmax = table.nmax ∧
        entryLayout.items after.entries = id ::ₘ entryLayout.items table.entries) := by
  have hbelow : ¬ table.nused ≥ table.nmax := by
    rw [ge_iff_le, UInt32.le_iff_toNat_le]
    omega
  have hused : entryLayout.isEmpty ⟨0, id⟩ = false := by simpa [entryLayout] using hid
  -- the load stays below the number of slots, so the insertion finds a place
  have hload : (entryLayout.items table.entries).card < table.entries.length := by
    rw [wf.length_eq, ← wf.nused_eq]
    exact hroom.trans_le wf.nmax_le
  obtain ⟨room, hempty⟩ := exists_empty hload
  have hplace := place_spec wf.inv wf.advances (fun curr => curr.id == id)
    (fun _ _ => beq_iff_eq) hused rfl (wf.startPos_lt id) hempty wf.length_eq.le
  have hitem : entryLayout.item ⟨0, id⟩ = id := rfl
  simp only [hitem, Multiset.map_id'] at hplace
  obtain ⟨hfresh, entries, hrun, hlength, hinv, hitems⟩ |
      ⟨position, last, -, hrun, -, old, rest, hitems, hold, -⟩ := hplace
  · right
    refine ⟨hfresh, { table with nused := table.nused + 1, entries := entries },
      by simp [deduptblUpdate, hbelow, hrun],
      ⟨wf.sized, hlength.trans wf.length_eq, hinv, ?_, wf.nmax_le⟩, rfl, hitems⟩
    have hlt := table.nmax.toNat_lt
    rw [hitems, Multiset.card_cons, ← wf.nused_eq, UInt32.toNat_add]
    exact Nat.mod_eq_of_lt (by change _ + 1 < 2 ^ 32; omega)
  · left
    refine ⟨?_, by simp [deduptblUpdate, hbelow, hrun]⟩
    rw [hitems, ← hold]
    exact Multiset.mem_cons_self _ _

end WellFormed

variable {max : UInt32}

theorem toNat_wanted (hmax : ¬ max > maxEntries) :
    (if max + max / 6 > 32 then max + max / 6 else 32 : UInt32).toNat =
        Nat.max (max.toNat + max.toNat / 6) 32 ∧
      max.toNat ≤ 0x3fffffff := by
  have hle : max.toNat ≤ 0x3fffffff := by
    rw [gt_iff_lt, UInt32.lt_iff_toNat_lt] at hmax
    exact not_lt.mp hmax
  have hsum : (max + max / 6).toNat = max.toNat + max.toNat / 6 := by
    have hdiv : (max / 6).toNat = max.toNat / 6 := UInt32.toNat_div max 6
    rw [UInt32.toNat_add, hdiv]
    exact Nat.mod_eq_of_lt (by omega)
  have h32 : (32 : UInt32).toNat = 32 := rfl
  refine ⟨?_, hle⟩
  split
  · rename_i hgt
    rw [gt_iff_lt, UInt32.lt_iff_toNat_lt, hsum, h32] at hgt
    rw [hsum]
    exact (Nat.max_eq_left hgt.le).symm
  · rename_i hgt
    rw [gt_iff_lt, UInt32.lt_iff_toNat_lt, hsum, h32, not_lt] at hgt
    rw [h32]
    exact (Nat.max_eq_right hgt).symm

/-- The logarithm of the number of slots that a table for `max` entries gets. -/
def slotsLog2 (max : UInt32) : ℕ := Nat.size (Nat.max (max.toNat + max.toNat / 6) 32 - 1)

theorem slotsLog2_le_iff (k : ℕ) :
    slotsLog2 max ≤ k ↔ Nat.max (max.toNat + max.toNat / 6) 32 ≤ 2 ^ k := by
  have hpos : 32 ≤ Nat.max (max.toNat + max.toNat / 6) 32 := Nat.le_max_right _ _
  rw [slotsLog2, Nat.size_le]
  omega

theorem toNat_shift_slotsLog2 (hmax : max.toNat ≤ 0x3fffffff) :
    (1 <<< UInt32.ofNat (slotsLog2 max) : UInt32).toNat = 2 ^ slotsLog2 max := by
  have hlog : slotsLog2 max ≤ 31 := by
    rw [slotsLog2_le_iff]
    exact Nat.max_le.mpr ⟨by omega, by decide⟩
  exact Library.Memory.toNat_one_shiftLeft (by omega)

theorem deduptblCreate_eq (hcreate : deduptblCreate max = .ok table) : max.toNat ≤ 0x3fffffff ∧
      table = ⟨max, 0, UInt32.ofNat (slotsLog2 max),
        List.replicate (2 ^ slotsLog2 max) entryLayout.zero⟩ := by
  unfold deduptblCreate at hcreate
  split at hcreate
  · contradiction
  · rename_i hmax
    obtain ⟨hwanted, hle⟩ := toNat_wanted hmax
    have hlow : 32 ≤ Nat.max (max.toNat + max.toNat / 6) 32 := Nat.le_max_right _ _
    have hhigh : Nat.max (max.toNat + max.toNat / 6) 32 ≤ 2 ^ 31 :=
      Nat.max_le.mpr ⟨by omega, by decide⟩
    have hcap := toNat_roundUpPow2 (by rw [hwanted]; omega) (by rw [hwanted]; exact hhigh)
    rw [hwanted] at hcap
    dsimp only at hcreate
    rw [hcap, capLog2_two_pow, Except.ok.injEq] at hcreate
    exact ⟨hle, hcreate.symm⟩

theorem deduptblCreate_spec (hcreate : deduptblCreate max = .ok table) :
    WellFormed table ∧ table.nmax = max ∧ entryLayout.items table.entries = 0 := by
  obtain ⟨hmax, rfl⟩ := deduptblCreate_eq hcreate
  have hshift := toNat_shift_slotsLog2 hmax
  have hlog : slotsLog2 max ≤ 31 := by
    rw [slotsLog2_le_iff]
    exact Nat.max_le.mpr ⟨by omega, by decide⟩
  have hroom := (@slotsLog2_le_iff max (slotsLog2 max)).mp le_rfl
  have hmaxle : max.toNat + max.toNat / 6 ≤ Nat.max (max.toNat + max.toNat / 6) 32 :=
    Nat.le_max_left _ _
  refine ⟨⟨⟨⟨slotsLog2 max, hlog, hshift⟩, rfl, rfl⟩, ?_, ?_, ?_, ?_⟩, rfl, items_replicate_zero _⟩
  · rw [DeduptblTable.cap, hshift, List.length_replicate]
  · exact inv_replicate_zero (Nat.two_pow_pos _)
  · rw [items_replicate_zero]
    rfl
  · rw [DeduptblTable.cap, hshift]
    dsimp only
    omega

/-! Whole runs on one table, against the set of identifiers given so far. -/

inductive Call where
  | update (id : DeduptblId)
  | contains (id : DeduptblId)
deriving DecidableEq

inductive Reply where
  | code (code : DeduptblCode)
  | bool (present : Bool)
deriving DecidableEq

/-- One call on the table; `none` is a call that does not return. -/
def call (table : DeduptblTable) : Call → Option (Reply × DeduptblTable)
  | .update id => do
    let (code, table) ← deduptblUpdate table id
    pure (.code code, table)
  | .contains id => do
    let present ← deduptblContains table id
    pure (.bool present, table)

def setCall (stored : Finset DeduptblId) : Call → Reply × Finset DeduptblId
  | .update id =>
    if id ∈ stored then (.code .eexist, stored) else (.code .ok, insert id stored)
  | .contains id => (.bool (decide (id ∈ stored)), stored)

/-- Identifiers are not zero, and an update is made while fewer than `max` are
stored. -/
def callAllowed (max : ℕ) (stored : Finset DeduptblId) : Call → Prop
  | .update id => id ≠ idEmpty ∧ stored.card < max
  | .contains id => id ≠ idEmpty

instance (max : ℕ) (stored : Finset DeduptblId) :
    ∀ next, Decidable (callAllowed max stored next)
  | .update _ => inferInstanceAs (Decidable (_ ∧ _))
  | .contains _ => inferInstanceAs (Decidable (_ ≠ _))

structure Represents (max : UInt32) (table : DeduptblTable) (stored : Finset DeduptblId) : Prop
    extends WellFormed table where
  nmax_eq : table.nmax = max
  items_eq : entryLayout.items table.entries = stored.val

theorem Represents.nused_toNat {stored : Finset DeduptblId} (rep : Represents max table stored) :
    table.nused.toNat = stored.card := by
  rw [rep.nused_eq, rep.items_eq]
  rfl

theorem call_refines (max : UInt32) :
    Simulates call setCall (callAllowed max.toNat) (Represents max) := by
  intro table stored next rep hallowed
  cases next with
  | update id =>
    obtain ⟨hid, hroom⟩ := hallowed
    obtain ⟨hmem, hrun⟩ | ⟨hfresh, after, hrun, hwf, hnmax, hitems⟩ := rep.deduptblUpdate_spec hid
      (by rw [rep.nused_toNat, rep.nmax_eq]; exact hroom)
    · rw [rep.items_eq, Finset.mem_val] at hmem
      exact ⟨table, by simp [call, setCall, hrun, hmem], by simpa [setCall, hmem] using rep⟩
    · rw [rep.items_eq] at hfresh hitems
      rw [Finset.mem_val] at hfresh
      refine ⟨after, by simp [call, setCall, hrun, hfresh], hwf, hnmax.trans rep.nmax_eq, ?_⟩
      simp only [setCall, if_neg hfresh]
      rw [hitems, Finset.insert_val_of_notMem hfresh]
  | contains id =>
    have hrun := rep.deduptblContains_spec hallowed
    simp only [rep.items_eq, Finset.mem_val] at hrun
    exact ⟨table, by simp [call, setCall, hrun], rep⟩

theorem setCall_no_slot (stored : Finset DeduptblId) (next : Call) :
    (setCall stored next).1 ≠ .code .enoslot := by
  cases next <;> simp only [setCall]
  · split <;> simp
  · simp

/-- Every run on a created table, as long as fewer than `max` identifiers are
stored at an update. The first update with an identifier is accepted and every
later one refused, the counter and the membership test agree with the set, and
a refused update changes nothing. -/
theorem deduptbl_refines_set {max : UInt32} {table : DeduptblTable}
    (hcreate : deduptblCreate max = .ok table) (calls : List Call)
    (hcalls : Admits setCall (callAllowed max.toNat) ∅ calls) :
    ∃ after, runCalls call table calls = some ((specCalls setCall ∅ calls).1, after) ∧
      after.nused.toNat = (specCalls setCall ∅ calls).2.card ∧
      (∀ id, id ≠ idEmpty →
        deduptblContains after id = some (decide (id ∈ (specCalls setCall ∅ calls).2))) ∧
      (∀ id last, id ≠ idEmpty → (specCalls setCall ∅ calls).2.card < max.toNat →
        deduptblUpdate after id = some (.eexist, last) → last = after) ∧
      ∀ reply ∈ (specCalls setCall ∅ calls).1, reply ≠ .code .enoslot := by
  obtain ⟨hwf, hnmax, hitems⟩ := deduptblCreate_spec hcreate
  have hinit : Represents max table ∅ := ⟨hwf, hnmax, hitems⟩
  obtain ⟨after, hrun, rep⟩ := (call_refines max).runCalls calls hinit hcalls
  refine ⟨after, hrun, rep.nused_toNat, ?_, ?_, forall_reply_specCalls setCall_no_slot calls _⟩
  · intro id hid
    have hcontains := rep.deduptblContains_spec hid
    simpa only [rep.items_eq, Finset.mem_val] using hcontains
  · intro id last hid hroom hexist
    obtain ⟨-, hupdate⟩ | ⟨-, added, hupdate, -⟩ := rep.deduptblUpdate_spec hid
      (by rw [rep.nused_toNat, rep.nmax_eq]; exact hroom)
    · rw [hexist] at hupdate
      simpa using hupdate
    · rw [hexist] at hupdate
      simp at hupdate

/-- Two identifiers that share a home slot, given twice to a table for three. -/
theorem deduptbl_refines_set_run :
    ∃ table after, deduptblCreate 3 = .ok table ∧
      runCalls call table
          [.update ⟨Vector.replicate 20 1⟩, .update ⟨(Vector.replicate 20 1).set 19 2⟩,
            .update ⟨Vector.replicate 20 1⟩, .contains ⟨(Vector.replicate 20 1).set 19 2⟩,
            .contains ⟨Vector.replicate 20 2⟩] =
        some ([.code .ok, .code .ok, .code .eexist, .bool true, .bool false], after) ∧
      after.nused.toNat = 2 := by
  have hcreate : ∃ table, deduptblCreate 3 = .ok table := ⟨_, rfl⟩
  obtain ⟨table, htable⟩ := hcreate
  obtain ⟨after, hrun, hnused, -⟩ := deduptbl_refines_set htable
    [.update ⟨Vector.replicate 20 1⟩, .update ⟨(Vector.replicate 20 1).set 19 2⟩,
      .update ⟨Vector.replicate 20 1⟩, .contains ⟨(Vector.replicate 20 1).set 19 2⟩,
      .contains ⟨Vector.replicate 20 2⟩] (by decide)
  exact ⟨table, after, htable, hrun.trans (by rfl), hnused.trans (by rfl)⟩

end Yans.Util.Deduptbl
