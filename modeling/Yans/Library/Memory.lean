import Mathlib.Algebra.Group.Nat.Defs
import Mathlib.Order.Nat
import Mathlib.Tactic.Common

/-! Memory as a list of bytes: slices, overwriting, and what an overwrite
leaves alone; words in little-endian order and strings that end in a zero. -/
namespace Yans.Library.Memory

abbrev Bytes := List UInt8

/-- What is said of all bytes in memory is looked up byte by byte. -/
instance (priority := 2000) (mem : Bytes) (p : UInt8 → Prop) [DecidablePred p] :
    Decidable (∀ byte ∈ mem, p byte) :=
  List.decidableBAll p mem

/-- The `len` bytes from `off` on. -/
def slice (mem : Bytes) (off len : ℕ) : Bytes := (mem.drop off).take len

/-- Copy `bytes` to offset `off`. -/
def write (mem : Bytes) (off : ℕ) (bytes : Bytes) : Bytes :=
  mem.take off ++ bytes ++ mem.drop (off + bytes.length)

@[simp] theorem length_slice (mem : Bytes) (off len : ℕ) :
    (slice mem off len).length = min len (mem.length - off) := by
  simp [slice]

theorem slice_eq_of_append {before middle after : Bytes} {off len : ℕ}
    (hoff : off = before.length) (hlen : len = middle.length) :
    slice (before ++ middle ++ after) off len = middle := by
  subst hoff hlen
  unfold slice
  rw [List.append_assoc, List.drop_left, List.take_left]

variable {bytes mem : Bytes} {off : ℕ}

theorem length_write (h : off + bytes.length ≤ mem.length) :
    (write mem off bytes).length = mem.length := by
  simp only [write, List.length_append, List.length_take, List.length_drop]
  omega

theorem write_eq_of_append {before middle after : Bytes}
    (hoff : off = before.length) (hlen : bytes.length = middle.length) :
    write (before ++ middle ++ after) off bytes = before ++ bytes ++ after := by
  subst hoff
  unfold write
  rw [hlen, ← List.length_append, List.drop_left, List.append_assoc before, List.take_left]

theorem slice_append_left {len : ℕ} (h : off + len ≤ mem.length) (tail : Bytes) :
    slice (mem ++ tail) off len = slice mem off len := by
  unfold slice
  rw [List.drop_append_of_le_length (by omega), List.take_append_of_le_length]
  rw [List.length_drop]
  omega

theorem write_append_left (h : off + bytes.length ≤ mem.length)
    (tail : Bytes) : write (mem ++ tail) off bytes = write mem off bytes ++ tail := by
  unfold write
  rw [List.take_append_of_le_length (by omega), List.drop_append_of_le_length h,
    List.append_assoc _ _ tail]

theorem getElem?_write (h : off + bytes.length ≤ mem.length)
    (i : ℕ) : (write mem off bytes)[i]? =
      if off ≤ i ∧ i < off + bytes.length then bytes[i - off]? else mem[i]? := by
  unfold write
  rw [List.append_assoc, List.getElem?_append, List.length_take, Nat.min_eq_left (by omega)]
  by_cases hlow : i < off
  · rw [if_pos hlow, if_neg (by omega), List.getElem?_take_of_lt hlow]
  · rw [if_neg hlow, List.getElem?_append]
    by_cases hin : i - off < bytes.length
    · rw [if_pos hin, if_pos (by omega)]
    · rw [if_neg hin, if_neg (by omega), List.getElem?_drop]
      congr 1
      omega

theorem getElem?_slice (mem : Bytes) (off len i : ℕ) :
    (slice mem off len)[i]? = if i < len then mem[off + i]? else none := by
  unfold slice
  rw [List.getElem?_take, List.getElem?_drop]

variable {left right : Bytes}

theorem slice_congr {len : ℕ}
    (h : ∀ i, off ≤ i → i < off + len → left[i]? = right[i]?) :
    slice left off len = slice right off len := by
  apply List.ext_getElem?
  intro i
  rw [getElem?_slice, getElem?_slice]
  split
  · exact h _ (by omega) (by omega)
  · rfl

theorem slice_write_of_disjoint {at' len : ℕ}
    (hfit : at' + bytes.length ≤ mem.length)
    (hdisjoint : off + len ≤ at' ∨ at' + bytes.length ≤ off) :
    slice (write mem at' bytes) off len = slice mem off len := by
  apply slice_congr
  intro i hlow hhigh
  rw [getElem?_write hfit, if_neg (by omega)]

theorem slice_write_self (h : off + bytes.length ≤ mem.length) :
    slice (write mem off bytes) off bytes.length = bytes := by
  exact slice_eq_of_append (by rw [List.length_take]; omega) rfl

def littleEndian : ℕ → ℕ → Bytes
  | 0, _ => []
  | width + 1, n => UInt8.ofNat n :: littleEndian width (n / 256)

def ofLittleEndian : Bytes → ℕ
  | [] => 0
  | byte :: rest => byte.toNat + 256 * ofLittleEndian rest

def readWord (width : ℕ) (mem : Bytes) (off : ℕ) : ℕ := ofLittleEndian (slice mem off width)

@[simp] theorem length_littleEndian (width n : ℕ) : (littleEndian width n).length = width := by
  induction width generalizing n with
  | zero => rfl
  | succ width ih => simp [littleEndian, ih]

variable {width : ℕ}

theorem ofLittleEndian_littleEndian : ∀ {n : ℕ}, n < 256 ^ width →
    ofLittleEndian (littleEndian width n) = n := by
  induction width with
  | zero =>
    intro n h
    simp only [littleEndian, ofLittleEndian]
    omega
  | succ width ih =>
    intro n h
    rw [littleEndian, ofLittleEndian, ih (by rw [Nat.pow_succ] at h; omega), UInt8.toNat_ofNat']
    omega

theorem ofLittleEndian_lt (bytes : Bytes) : ofLittleEndian bytes < 256 ^ bytes.length := by
  induction bytes with
  | nil => simp [ofLittleEndian]
  | cons byte rest ih =>
    have hbyte := byte.toNat_lt
    rw [ofLittleEndian, List.length_cons, Nat.pow_succ]
    omega

theorem readWord_lt (width : ℕ) (mem : Bytes) (off : ℕ) : readWord width mem off < 256 ^ width := by
  refine (ofLittleEndian_lt _).trans_le ?_
  rw [length_slice]
  exact Nat.pow_le_pow_right (by decide) (Nat.min_le_left _ _)

theorem readWord_of_slice {n : ℕ} (hn : n < 256 ^ width)
    (h : slice mem off width = littleEndian width n) : readWord width mem off = n := by
  rw [readWord, h, ofLittleEndian_littleEndian hn]

/-- The byte at an offset, zero outside of the memory. -/
def byteAt (mem : Bytes) (off : ℕ) : UInt8 := mem[off]?.getD 0

theorem byteAt_append_zeros (mem : Bytes) (n i : ℕ) :
    byteAt (mem ++ List.replicate n 0) i = byteAt mem i := by
  unfold byteAt
  rw [List.getElem?_append]
  split
  · rfl
  · rename_i hlen
    rw [List.getElem?_eq_none (not_lt.mp hlen), List.getElem?_replicate]
    split <;> rfl

theorem byteAt_take (mem : Bytes) (n i : ℕ) :
    byteAt (mem.take n) i = if i < n then byteAt mem i else 0 := by
  unfold byteAt
  rw [List.getElem?_take]
  split <;> rfl

theorem byteAt_write (h : off + bytes.length ≤ mem.length)
    (i : ℕ) : byteAt (write mem off bytes) i =
      if off ≤ i ∧ i < off + bytes.length then byteAt bytes (i - off) else byteAt mem i := by
  unfold byteAt
  rw [getElem?_write h]
  split <;> rfl

theorem readWord_succ (width : ℕ) (mem : Bytes) (off : ℕ) :
    readWord (width + 1) mem off = (byteAt mem off).toNat + 256 * readWord width mem (off + 1) := by
  unfold readWord slice byteAt
  by_cases h : off < mem.length
  · rw [List.drop_eq_getElem_cons h, List.getElem?_eq_getElem h, List.take_succ_cons]
    rfl
  · rw [List.drop_eq_nil_of_le (by omega), List.getElem?_eq_none (by omega),
      List.drop_eq_nil_of_le (by omega)]
    simp [ofLittleEndian]

theorem readWord_congr {width : ℕ} {left right : Bytes} : ∀ {a b : ℕ},
    (∀ i < width, byteAt left (a + i) = byteAt right (b + i)) →
    readWord width left a = readWord width right b := by
  induction width with
  | zero =>
    intro a b _
    simp [readWord, slice, ofLittleEndian]
  | succ width ih =>
    intro a b h
    rw [readWord_succ, readWord_succ, ih fun i hi => by
      have := h (i + 1) (by omega)
      rwa [← Nat.add_assoc, ← Nat.add_assoc, Nat.add_right_comm a, Nat.add_right_comm b] at this]
    have hfirst := h 0 (Nat.succ_pos _)
    rw [Nat.add_zero, Nat.add_zero] at hfirst
    rw [hfirst]

theorem byteAt_append_right {left right : Bytes} {i : ℕ} :
    byteAt (left ++ right) (left.length + i) = byteAt right i := by
  unfold byteAt
  rw [List.getElem?_append_right (Nat.le_add_right _ _), Nat.add_sub_cancel_left]

theorem byteAt_append_left {i : ℕ} (h : i < left.length) :
    byteAt (left ++ right) i = byteAt left i := by
  unfold byteAt
  rw [List.getElem?_append_left h]

theorem readWord_append_left (h : off + width ≤ left.length) :
    readWord width (left ++ right) off = readWord width left off := by
  apply readWord_congr
  intro i hi
  exact byteAt_append_left (by omega)

theorem readWord_flatMap {words : List ℕ} (h : ∀ n ∈ words, n < 256 ^ width) :
    ∀ (k : ℕ) {n : ℕ}, words[k]? = some n →
      readWord width (words.flatMap (littleEndian width)) (width * k) = n := by
  induction words with
  | nil => simp
  | cons word words ih =>
    intro k n hk
    cases k with
    | zero =>
      obtain rfl : word = n := by simpa using hk
      refine readWord_of_slice (h word List.mem_cons_self) ?_
      rw [List.flatMap_cons, Nat.mul_zero]
      exact @slice_eq_of_append [] _ _ _ _ rfl (by simp)
    | succ k =>
      refine (readWord_congr ?_).trans
        (ih (fun n hn => h n (List.mem_cons_of_mem _ hn)) k (by simpa using hk))
      intro i _
      have hshift : width * (k + 1) + i = (littleEndian width word).length + (width * k + i) := by
        rw [length_littleEndian, Nat.mul_succ]
        omega
      rw [List.flatMap_cons, hshift, byteAt_append_right]

theorem slice_eq_of_byteAt {mem bytes : Bytes} {off : ℕ} (hfit : off + bytes.length ≤ mem.length)
    (h : ∀ i < bytes.length, byteAt mem (off + i) = byteAt bytes i) :
    slice mem off bytes.length = bytes := by
  apply List.ext_getElem?
  intro i
  rw [getElem?_slice]
  by_cases hi : i < bytes.length
  · have hbyte := h i hi
    have hmem : off + i < mem.length := by omega
    unfold byteAt at hbyte
    rw [if_pos hi]
    rw [List.getElem?_eq_getElem hi, List.getElem?_eq_getElem hmem] at hbyte ⊢
    exact congrArg some hbyte
  · rw [if_neg hi, List.getElem?_eq_none (not_lt.mp hi)]

theorem eq_of_byteAt (hlength : left.length = right.length)
    (h : ∀ i < right.length, byteAt left i = byteAt right i) : left = right := by
  have hslice := @slice_eq_of_byteAt left right 0 (by omega) (by simpa using h)
  rw [← hlength] at hslice
  simpa [slice] using hslice

/-- The string at an offset, up to its zero byte. -/
def stringAt (mem : Bytes) (off : ℕ) : Bytes := (mem.drop off).takeWhile (· ≠ 0)

/-- A string that starts at `off` ends inside of the memory. -/
def Terminated (mem : Bytes) (off : ℕ) : Prop := ∃ i, off ≤ i ∧ mem[i]? = some 0

theorem stringAt_of_slice {text : Bytes} (htext : ∀ byte ∈ text, byte ≠ 0)
    (h : slice mem off (text.length + 1) = text ++ [0]) : stringAt mem off = text := by
  have hprefix : text ++ [0] <+: mem.drop off := h ▸ List.take_prefix _ _
  obtain ⟨rest, hrest⟩ := hprefix
  unfold stringAt
  rw [← hrest, List.append_assoc, List.takeWhile_append_of_pos (by simpa using htext)]
  simp

theorem stringAt_append {before text after : Bytes} (htext : ∀ byte ∈ text, byte ≠ 0) :
    stringAt (before ++ (text ++ [0]) ++ after) before.length = text := by
  apply stringAt_of_slice htext
  apply slice_eq_of_append rfl
  rw [List.length_append]
  rfl

theorem toNat_one_shiftLeft {n : ℕ} (hn : n < 32) : (1 <<< UInt32.ofNat n : UInt32).toNat = 2 ^ n := by
  have hpow : 2 ^ n < 2 ^ 32 := Nat.pow_lt_pow_right (by decide) hn
  have hn' : n % 2 ^ 32 % 32 = n := by omega
  rw [UInt32.toNat_shiftLeft, UInt32.toNat_ofNat', hn', Nat.shiftLeft_eq]
  change 1 * 2 ^ n % 2 ^ 32 = 2 ^ n
  rw [Nat.one_mul, Nat.mod_eq_of_lt hpow]

end Yans.Library.Memory
