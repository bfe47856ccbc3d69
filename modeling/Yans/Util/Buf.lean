import Yans.Library.Memory

/-! `lib/util/buf.c` and `buf.h`: the growable buffer. `data` is the whole
allocation, so the capacity is its length; everything past `len` is allocated
and unused. Sizes are those of objects in memory, and allocation is taken to
succeed. -/
namespace Yans.Util

open Library.Memory

structure Buf where
  data : Bytes
  len : ℕ
  len_le : len ≤ data.length

namespace Buf

def cap (buf : Buf) : ℕ := buf.data.length

def contents (buf : Buf) : Bytes := buf.data.take buf.len

@[simp] theorem length_contents (buf : Buf) : buf.contents.length = buf.len := by
  rw [contents, List.length_take, Nat.min_eq_left buf.len_le]

theorem data_eq (buf : Buf) : buf.data = buf.contents ++ buf.data.drop buf.len :=
  (List.take_append_drop buf.len buf.data).symm

/-- `BUF_ALIGNMENT`, the size of a long. -/
def alignment : ℕ := 8

def alignOffset (x : ℕ) : ℕ := (x + (alignment - 1)) / alignment * alignment

def init (cap : ℕ) : Buf where
  data := List.replicate (alignOffset cap) 0
  len := 0
  len_le := Nat.zero_le _

def clear (buf : Buf) : Buf := { buf with len := 0, len_le := Nat.zero_le _ }

def shrink (buf : Buf) (nbytes : ℕ) : Buf where
  data := buf.data
  len := if nbytes > buf.len then 0 else buf.len - nbytes
  len_le := by
    have hlen := buf.len_le
    split <;> omega

def grow (buf : Buf) (needed : ℕ) : Buf :=
  let added := alignOffset (buf.cap / 2)
  let added := if added < needed then alignOffset needed else added
  { data := buf.data ++ List.replicate added 0
    len := buf.len
    len_le := by
      rw [List.length_append]
      exact Nat.le_trans buf.len_le (Nat.le_add_right _ _) }

def reserve (buf : Buf) (nbytes : ℕ) : Buf :=
  let nleft := buf.cap - buf.len
  if nleft < nbytes then buf.grow (nbytes - nleft) else buf

theorem len_copyIn_le (buf : Buf) (bytes : Bytes) :
    buf.len + bytes.length ≤ (write buf.data buf.len bytes).length := by
  have h := buf.len_le
  simp only [write, List.length_append, List.length_take]
  omega

def copyIn (buf : Buf) (bytes : Bytes) : Buf where
  data := write buf.data buf.len bytes
  len := buf.len + bytes.length
  len_le := len_copyIn_le buf bytes

def adata (buf : Buf) (bytes : Bytes) : Buf :=
  if bytes.length = 0 then buf else (buf.reserve bytes.length).copyIn bytes

def achar (buf : Buf) (ch : UInt8) : Buf := (buf.reserve 1).copyIn [ch]

theorem len_store_le (buf : Buf) (off : ℕ) (bytes : Bytes) :
    buf.len ≤ (write buf.data off bytes).length := by
  have h := buf.len_le
  simp only [write, List.length_append, List.length_take, List.length_drop]
  omega

def store (buf : Buf) (off : ℕ) (bytes : Bytes) : Buf where
  data := write buf.data off bytes
  len := buf.len
  len_le := len_store_le buf off bytes

theorem len_shiftDown_le (buf : Buf) (n : ℕ) :
    buf.len - n ≤ (write buf.data 0 (slice buf.data n (buf.len - n))).length := by
  have h := buf.len_le
  simp only [write, List.length_append, length_slice]
  omega

/-- Drop the first `n` used bytes and move the rest to the start. -/
def shiftDown (buf : Buf) (n : ℕ) : Buf where
  data := write buf.data 0 (slice buf.data n (buf.len - n))
  len := buf.len - n
  len_le := len_shiftDown_le buf n

theorem le_alignOffset (x : ℕ) : x ≤ alignOffset x ∧ alignOffset x ≤ x + 7 := by
  unfold alignOffset alignment
  omega

theorem alignOffset_mod (x : ℕ) : alignOffset x % alignment = 0 := by
  exact Nat.mul_mod_left _ _

/-- `buf_align`; the padding is whatever the allocation holds there. -/
def align (buf : Buf) : Buf :=
  let noff := alignOffset buf.len
  let grown := if noff ≥ buf.cap then buf.grow alignment else buf
  { data := grown.data
    len := noff
    len_le := by
      have hlen := buf.len_le
      have halign := le_alignOffset buf.len
      have hneeded := le_alignOffset alignment
      dsimp only [grown, noff]
      split
      · simp only [grow, List.length_append, List.length_replicate]
        unfold alignment at *
        split <;> omega
      · rename_i hfits
        unfold cap at hfits
        omega }

theorem len_add_le_reserve (buf : Buf) (nbytes : ℕ) :
    buf.len + nbytes ≤ (buf.reserve nbytes).data.length := by
  have hlen := buf.len_le
  have hneeded := le_alignOffset (nbytes - (buf.cap - buf.len))
  unfold reserve
  dsimp only
  split
  · simp only [grow, List.length_append, List.length_replicate]
    unfold cap at *
    split <;> omega
  · rename_i hfits
    unfold cap at hfits
    omega

/-- `buf_alloc`: room for `len` bytes at the end, and its offset. -/
def alloc (buf : Buf) (len : ℕ) : Option (ℕ × Buf) :=
  if len = 0 then none
  else
    let reserved := buf.reserve len
    some (buf.len,
      { data := reserved.data
        len := buf.len + len
        len_le := buf.len_add_le_reserve len })

@[simp] theorem contents_init (cap : ℕ) : (init cap).contents = [] := List.take_zero

section

variable (buf : Buf)

include buf

@[simp] theorem contents_clear : buf.clear.contents = [] := List.take_zero

@[simp] theorem contents_grow (needed : ℕ) :
    (buf.grow needed).contents = buf.contents := by
  unfold contents grow
  rw [List.take_append_of_le_length buf.len_le]

@[simp] theorem contents_reserve (nbytes : ℕ) :
    (buf.reserve nbytes).contents = buf.contents := by
  unfold reserve
  dsimp only
  split
  · exact contents_grow buf _
  · rfl

@[simp] theorem contents_copyIn (bytes : Bytes) :
    (buf.copyIn bytes).contents = buf.contents ++ bytes := by
  unfold contents copyIn write
  dsimp only
  have hlen : (buf.data.take buf.len ++ bytes).length = buf.len + bytes.length := by
    rw [List.length_append, List.length_take, Nat.min_eq_left buf.len_le]
  rw [← hlen, List.take_left]

@[simp] theorem contents_adata (bytes : Bytes) :
    (buf.adata bytes).contents = buf.contents ++ bytes := by
  unfold adata
  split
  · rename_i hempty
    rw [List.length_eq_zero_iff.mp hempty, List.append_nil]
  · simp

@[simp] theorem contents_achar (ch : UInt8) :
    (buf.achar ch).contents = buf.contents ++ [ch] := by
  simp [achar]

@[simp] theorem contents_shiftDown (n : ℕ) :
    (buf.shiftDown n).contents = buf.contents.drop n := by
  have h := buf.len_le
  have hlen : (slice buf.data n (buf.len - n)).length = buf.len - n := by
    rw [length_slice]
    omega
  unfold shiftDown contents write
  dsimp only
  rw [List.take_zero, List.nil_append, List.take_append_of_le_length hlen.ge,
    List.take_of_length_le hlen.le, slice, List.drop_take]

theorem shiftDown_zero : buf.shiftDown 0 = buf := by
  obtain ⟨data, len, hlen⟩ := buf
  unfold shiftDown
  simp [write, slice, Nat.min_eq_left hlen]

end

theorem shiftDown_of_le {buf : Buf} {n : ℕ} (h : buf.len ≤ n) : buf.shiftDown n = buf.clear := by
  have hnone : buf.len - n = 0 := by omega
  unfold shiftDown clear
  simp [write, slice, hnone]

/-! The bytes of the allocation; new room is zero, so growing changes none of
them -/

@[simp] theorem byteAt_grow (buf : Buf) (needed i : ℕ) :
    byteAt (buf.grow needed).data i = byteAt buf.data i :=
  byteAt_append_zeros _ _ _

@[simp] theorem byteAt_reserve (buf : Buf) (nbytes i : ℕ) :
    byteAt (buf.reserve nbytes).data i = byteAt buf.data i := by
  unfold reserve
  dsimp only
  split
  · exact byteAt_grow buf _ i
  · rfl

@[simp] theorem byteAt_align (buf : Buf) (i : ℕ) :
    byteAt buf.align.data i = byteAt buf.data i := by
  unfold align
  dsimp only
  split
  · exact byteAt_grow buf _ i
  · rfl

theorem align_of_aligned {buf : Buf} (h : buf.len % alignment = 0) :
    buf.align.len = buf.len ∧ buf.align.contents = buf.contents := by
  have hlen : alignOffset buf.len = buf.len := by
    unfold alignment at h
    unfold alignOffset alignment
    omega
  refine ⟨hlen, ?_⟩
  have hcontents : buf.align.contents =
      (if alignOffset buf.len ≥ buf.cap then buf.grow alignment else buf).data.take
        (alignOffset buf.len) := rfl
  rw [hcontents, hlen]
  split
  · exact buf.contents_grow alignment
  · rfl

theorem byteAt_init (cap i : ℕ) : byteAt (init cap).data i = 0 := by
  have h := byteAt_append_zeros [] (alignOffset cap) i
  rwa [List.nil_append] at h

theorem alloc_eq {buf : Buf} {len : ℕ} (hlen : len ≠ 0) :
    ∃ allocated, buf.alloc len = some (buf.len, allocated) ∧ allocated.len = buf.len + len ∧
      ∀ i, byteAt allocated.data i = byteAt buf.data i := by
  unfold alloc
  rw [if_neg hlen]
  exact ⟨_, rfl, rfl, fun i => byteAt_reserve buf len i⟩

@[simp] theorem len_reserve (buf : Buf) (nbytes : ℕ) : (buf.reserve nbytes).len = buf.len := by
  unfold reserve
  dsimp only
  split <;> rfl

@[simp] theorem len_adata (buf : Buf) (bytes : Bytes) :
    (buf.adata bytes).len = buf.len + bytes.length := by
  unfold adata
  split
  · omega
  · simp [copyIn]

theorem byteAt_adata (buf : Buf) (bytes : Bytes) (i : ℕ) : byteAt (buf.adata bytes).data i =
    if buf.len ≤ i ∧ i < buf.len + bytes.length then byteAt bytes (i - buf.len)
    else byteAt buf.data i := by
  unfold adata
  split
  · rw [if_neg (by omega)]
  · have hfit := buf.len_add_le_reserve bytes.length
    unfold copyIn
    rw [byteAt_write (by rw [len_reserve]; exact hfit), len_reserve, byteAt_reserve]

theorem byteAt_store {buf : Buf} {off : ℕ} {bytes : Bytes} (h : off + bytes.length ≤ buf.len)
    (i : ℕ) : byteAt (buf.store off bytes).data i =
      if off ≤ i ∧ i < off + bytes.length then byteAt bytes (i - off) else byteAt buf.data i :=
  byteAt_write (h.trans buf.len_le) i

theorem byteAt_contents {buf : Buf} (hzeros : ∀ i, buf.len ≤ i → byteAt buf.data i = 0) (i : ℕ) :
    byteAt buf.contents i = byteAt buf.data i := by
  unfold contents
  rw [byteAt_take]
  split
  · rfl
  · exact (hzeros i (by omega)).symm

end Buf

end Yans.Util
