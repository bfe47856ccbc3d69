import Yans.Library.Memory
import Mathlib.Data.List.TakeWhile

/-! Comparing memories and strings that end in a zero. A pointer is the memory
it leads to; what follows that memory reads as zero. -/
namespace Yans.Library.Strings

open Memory

/-- `memcmp` of two memories over `n` bytes. -/
def memcmp : ℕ → Bytes → Bytes → ℤ
  | 0, _, _ => 0
  | n + 1, left, right =>
    let a := left.headD 0
    let b := right.headD 0
    if a ≠ b then a.toNat - b.toNat else memcmp n left.tail right.tail

def strcmp : Bytes → Bytes → ℤ
  | [], right => 0 - (right.headD 0).toNat
  | a :: left, right =>
    let b := right.headD 0
    if a ≠ b then a.toNat - b.toNat else if a = 0 then 0 else strcmp left right.tail

def ascii (text : String) : Bytes := text.toList.map fun c => UInt8.ofNat c.toNat

def cstring (mem : Bytes) : Bytes := mem.takeWhile (· ≠ 0)

theorem memcmp_self (n : ℕ) (bytes : Bytes) : memcmp n bytes bytes = 0 := by
  induction n generalizing bytes with
  | zero => rfl
  | succ n ih =>
    simpa [memcmp] using ih bytes.tail

theorem memcmp_cons (n : ℕ) (a b : UInt8) (left right : Bytes) :
    memcmp (n + 1) (a :: left) (b :: right) =
      if a = b then memcmp n left right else a.toNat - b.toNat := by
  by_cases h : a = b <;> simp [memcmp, h]

theorem sub_toNat_eq_zero {a b : UInt8} : (a.toNat : ℤ) - b.toNat = 0 ↔ a = b := by
  rw [← UInt8.toNat_inj]
  omega

theorem memcmp_eq_zero_iff {n : ℕ} {left right : Bytes} (hleft : n ≤ left.length)
    (hright : n ≤ right.length) : memcmp n left right = 0 ↔ left.take n = right.take n := by
  induction n generalizing left right with
  | zero => simp [memcmp]
  | succ n ih =>
    obtain ⟨a, left, rfl⟩ := List.exists_cons_of_length_pos (Nat.zero_lt_of_lt hleft)
    obtain ⟨b, right, rfl⟩ := List.exists_cons_of_length_pos (Nat.zero_lt_of_lt hright)
    rw [memcmp_cons, List.take_succ_cons, List.take_succ_cons, List.cons.injEq]
    by_cases hab : a = b
    · rw [if_pos hab, ih (Nat.le_of_succ_le_succ hleft) (Nat.le_of_succ_le_succ hright)]
      exact (and_iff_right hab).symm
    · rw [if_neg hab, sub_toNat_eq_zero]
      exact iff_of_false hab fun h => hab h.1

theorem cstring_nil : cstring [] = [] := rfl

theorem cstring_cons (a : UInt8) (mem : Bytes) :
    cstring (a :: mem) = if a = 0 then [] else a :: cstring mem := by
  by_cases h : a = 0 <;> simp [cstring, h]

theorem cstring_eq_nil_iff (mem : Bytes) : cstring mem = [] ↔ mem.headD 0 = 0 := by
  cases mem with
  | nil => exact iff_of_true rfl rfl
  | cons a mem =>
    rw [cstring_cons]
    by_cases h : a = 0 <;> simp [h]

theorem ne_zero_of_mem_cstring {mem : Bytes} {byte : UInt8} (h : byte ∈ cstring mem) :
    byte ≠ 0 := by
  simpa using List.mem_takeWhile_imp h

theorem cstring_of_ne_zero {mem : Bytes} (h : ∀ byte ∈ mem, byte ≠ 0) : cstring mem = mem :=
  List.takeWhile_eq_self_iff.mpr (by simpa using h)

theorem cstring_append_zero (mem : Bytes) : cstring (mem ++ [0]) = cstring mem := by
  induction mem with
  | nil => rfl
  | cons a mem ih => rw [List.cons_append, cstring_cons, cstring_cons, ih]

theorem cstring_append_left {mem : Bytes} (h : 0 ∈ mem) (tail : Bytes) :
    cstring (mem ++ tail) = cstring mem := by
  induction mem with
  | nil => cases h
  | cons a mem ih =>
    rw [List.cons_append, cstring_cons, cstring_cons]
    split
    · rfl
    · rename_i hne
      rw [ih ((List.mem_cons.mp h).resolve_left (Ne.symm hne))]

theorem cstring_cstring (mem : Bytes) : cstring (cstring mem) = cstring mem :=
  cstring_of_ne_zero fun _ => ne_zero_of_mem_cstring

theorem cstring_eq_of_length {mem : Bytes} (h : (cstring mem).length = mem.length) :
    cstring mem = mem :=
  (List.takeWhile_prefix _).eq_of_length h

theorem strcmp_eq_zero_iff {left right : Bytes} :
    strcmp left right = 0 ↔ cstring left = cstring right := by
  induction left generalizing right with
  | nil =>
    have hzero : (0 : ℤ) - (right.headD 0).toNat = 0 ↔ 0 = right.headD 0 :=
      @sub_toNat_eq_zero 0 (right.headD 0)
    rw [strcmp, hzero, cstring_nil, eq_comm, ← cstring_eq_nil_iff, eq_comm]
  | cons a left ih =>
    cases right with
    | nil =>
      rw [cstring_cons, cstring_nil]
      by_cases ha : a = 0
      · simp [strcmp, ha]
      · have hzero := (@sub_toNat_eq_zero a 0).not.mpr ha
        simpa [strcmp, ha] using hzero
    | cons b right =>
      rw [strcmp, cstring_cons, cstring_cons, List.headD_cons, List.tail_cons]
      by_cases hab : a = b
      · subst hab
        by_cases ha : a = 0 <;> simp [ha, ih]
      · have hzero := (@sub_toNat_eq_zero a b).not.mpr hab
        simp only [ne_eq, hab, not_false_iff, if_true]
        refine iff_of_false hzero ?_
        by_cases ha : a = 0
        · have hb : b ≠ 0 := fun h => hab (ha.trans h.symm)
          simp [ha, hb]
        · by_cases hb : b = 0 <;> simp [ha, hb, hab]

end Yans.Library.Strings
