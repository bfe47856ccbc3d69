import Yans.Library.CircularSearch
import Yans.Ycl.Messages

/-! What `ycl_msg_create_%s` writes, `ycl_msg_parse_%s` reads back, for every
message. A parsed message is spread over two buffers: data stay where they were
received, and arrays are collected in the scratch buffer. -/
namespace Yans.Ycl

open Library.Memory Library.CircularSearch Util Util.Netstring

theorem toInt_and_seven (l : Word) : ((l &&& 7#64).toNat : ℤ) = l.toInt % 8 := by
  have hnat : (l &&& 7#64).toNat = l.toNat % 8 := by
    rw [BitVec.toNat_and]
    exact Nat.and_two_pow_sub_one_eq_mod l.toNat 3
  rw [hnat, BitVec.toInt_eq_toNat_cond]
  split <;> omega

theorem digit_toNat (l : Word) :
    (UInt8.ofNat (48 + (l &&& 7#64).toNat)).toNat = 48 + (l &&& 7#64).toNat := by
  have h := toInt_and_seven l
  rw [UInt8.toNat_ofNat']
  exact Nat.mod_eq_of_lt (by omega)

theorem s2l_digit (res l : Word) (s : Bytes) :
    s2l res (UInt8.ofNat (48 + (l &&& 7#64).toNat) :: s) =
      s2l ((res <<< 3) + BitVec.ofNat 64 (l &&& 7#64).toNat) s := by
  have h := toInt_and_seven l
  have hdigit := digit_toNat l
  rw [s2l, if_pos, hdigit, Nat.add_sub_cancel_left]
  constructor <;> rw [UInt8.le_iff_toNat_le, hdigit]
  · exact Nat.le_add_right _ _
  · change _ ≤ 55
    omega

theorem ofInt_shift (v : ℤ) (d : ℕ) :
    (BitVec.ofInt 64 v <<< 3) + BitVec.ofNat 64 d = BitVec.ofInt 64 (v * 8 + d) := by
  rw [BitVec.ofInt_add, BitVec.ofInt_mul, BitVec.shiftLeft_eq_mul_twoPow, BitVec.ofInt_natCast]
  rfl

theorem emod_pow_succ (v : ℤ) (n : ℕ) : v % 8 ^ (n + 1) = v / 8 % 8 ^ n * 8 + v % 8 := by
  have hpos : (0 : ℤ) < 8 ^ n := Int.pow_pos (by decide)
  have hquotient := Int.mul_ediv_add_emod (v / 8) (8 ^ n)
  have hlow := Int.emod_nonneg (v / 8) (Int.ne_of_gt hpos)
  have hhigh := Int.emod_lt_of_pos (v / 8) hpos
  rw [pow_succ']
  refine ((@Int.ediv_emod_unique v (8 * 8 ^ n) _ (v / 8 / 8 ^ n) (by omega)).mpr ⟨?_, ?_, ?_⟩).2
  · rw [mul_assoc]
    omega
  · omega
  · omega

theorem s2l_l2s (n : ℕ) : ∀ (l : Word) (s : Bytes),
    s2l 0 (l2s n l s) = s2l (BitVec.ofInt 64 (l.toInt % 8 ^ n)) s := by
  induction n with
  | zero =>
    intro l s
    simp [l2s]
  | succ n ih =>
    intro l s
    have hdigit := toInt_and_seven l
    have hshift : (l.sshiftRight 3).toInt = l.toInt / 8 := by
      rw [BitVec.toInt_sshiftRight, Int.shiftRight_eq_div_pow]
      rfl
    rw [l2s]
    split
    · rename_i hzero
      have hquotient : l.toInt / 8 = 0 := by
        rw [← hshift, hzero]
        rfl
      rw [s2l_digit, emod_pow_succ, hquotient, ← hdigit, ← ofInt_shift]
      simp
    · rw [ih, s2l_digit, hshift, ofInt_shift, emod_pow_succ, hdigit]

theorem l2s_append (n : ℕ) : ∀ (l : Word) (s t : Bytes), l2s n l (s ++ t) = l2s n l s ++ t := by
  induction n with
  | zero => exact fun _ _ _ => rfl
  | succ n ih =>
    intro l s t
    rw [l2s, l2s, ← List.cons_append]
    split
    · rfl
    · exact ih _ _ _

/-- The text of a `long` reads as that `long`: 48 digits hold more than 64
bits, so that what is cut off from a negative number does not count. -/
theorem s2l_longText (l : Word) (s : Bytes) : s2l 0 (longText l ++ 0 :: s) = l := by
  have hdvd : ((2 ^ 64 : ℕ) : ℤ) ∣ 8 ^ numbufSize := by decide
  have hres : BitVec.ofInt 64 (l.toInt % 8 ^ numbufSize) = l := by
    apply BitVec.eq_of_toInt_eq
    rw [BitVec.toInt_ofInt, ← Int.emod_bmod, Int.emod_emod_of_dvd _ hdvd, Int.emod_bmod,
      BitVec.toInt_bmod_cancel]
  rw [longText, ← l2s_append, s2l_l2s, hres, List.nil_append, s2l, if_neg (by decide)]
/-! Arrays of the scratch buffer -/

def readArray {α : Type} (size : ℕ) (read : Bytes → ℕ → α) (mem : Bytes) : ℕ → ℕ → List α
  | 0, _ => []
  | n + 1, off => read mem off :: readArray size read mem n (off + size)

def readLong (mem : Bytes) (off : ℕ) : Word := BitVec.ofNat 64 (readWord 8 mem off)

def readData (mem : Bytes) (off : ℕ) : YclData := ⟨readLong mem off, readLong mem (off + 8)⟩

def readLongs (mem : Bytes) : ℕ → ℕ → List Word := readArray 8 readLong mem

def readDatas (mem : Bytes) : ℕ → ℕ → List YclData := readArray 16 readData mem

theorem length_wordBytes (word : Word) : (wordBytes word).length = 8 := length_littleEndian _ _

theorem readLong_wordBytes (before : Bytes) (word : Word) (after : Bytes) :
    readLong (before ++ wordBytes word ++ after) before.length = word := by
  have hslice : slice (before ++ wordBytes word ++ after) before.length 8 = wordBytes word :=
    slice_eq_of_append rfl (length_wordBytes word).symm
  unfold readLong
  rw [readWord_of_slice word.isLt hslice, BitVec.ofNat_toNat, BitVec.setWidth_eq]

theorem readData_toBytes (before : Bytes) (data : YclData) (after : Bytes) :
    readData (before ++ data.toBytes ++ after) before.length = data := by
  have hlen := readLong_wordBytes before data.len (wordBytes data.data ++ after)
  have hdata := readLong_wordBytes (before ++ wordBytes data.len) data.data after
  rw [List.length_append, length_wordBytes] at hdata
  unfold readData YclData.toBytes
  rw [← List.append_assoc, hdata, List.append_assoc, hlen]

variable {α : Type}

theorem readArray_flatMap {size : ℕ} {read : Bytes → ℕ → α} {toBytes : α → Bytes}
    (hsize : ∀ a, (toBytes a).length = size)
    (hread : ∀ before a after, read (before ++ toBytes a ++ after) before.length = a)
    (elems : List α) : ∀ before after : Bytes,
    readArray size read (before ++ elems.flatMap toBytes ++ after) elems.length before.length =
      elems := by
  induction elems with
  | nil => exact fun _ _ => rfl
  | cons a elems ih =>
    intro before after
    have hmem : before ++ (a :: elems).flatMap toBytes ++ after =
        before ++ toBytes a ++ (elems.flatMap toBytes ++ after) := by
      simp [List.append_assoc]
    have hrest := ih (before ++ toBytes a) after
    rw [List.length_append, hsize, List.append_assoc (before ++ toBytes a)] at hrest
    rw [hmem, List.length_cons, readArray, hread, hrest]

/-- What is stored for each of some strings, which start at an offset. -/
def elemsFrom {α : Type} (elemOf : ℕ → Bytes → α) : ℕ → List Bytes → List α
  | _, [] => []
  | start, x :: xs => elemOf start x :: elemsFrom elemOf (start + (encode x).length) xs

theorem length_elemsFrom (elemOf : ℕ → Bytes → α) (xs : List Bytes) :
    ∀ start, (elemsFrom elemOf start xs).length = xs.length := by
  induction xs with
  | nil => exact fun _ => rfl
  | cons x xs ih =>
    intro start
    rw [elemsFrom, List.length_cons, ih, List.length_cons]

theorem loadLoop_nil {emit : Bytes → Slice → Bytes} {b : Buf} {cur : Cursor} {count : ℕ}
    (h : cur.datalen = 0) : loadLoop emit b cur count = (some count, b, cur.mem) := by
  rw [loadLoop, if_neg (by omega)]

theorem loadLoop_next {emit : Bytes → Slice → Bytes} {b : Buf} {cur after : Cursor} {elem : Slice}
    {count : ℕ} (hnext : netstringNext cur = (.ok elem, after)) :
    loadLoop emit b cur count =
      loadLoop emit (b.adata (emit after.mem elem)) after (count + 1) := by
  have hlt := netstringNext_datalen_lt hnext
  rw [loadLoop, if_pos (by omega)]
  split
  · rename_i herror
    rw [hnext] at herror
    cases herror
  · rename_i hok
    rw [hnext] at hok
    cases hok
    rfl

theorem loadLoop_encode {α : Type} {toBytes : α → Bytes} {elemOf : ℕ → Bytes → α}
    {emit : Bytes → Slice → Bytes}
    (hemit : ∀ before x after, emit (before ++ consumed x ++ after)
      ⟨before.length + (lengthPrefix x).length, x.length⟩ = toBytes (elemOf before.length x))
    (xs : List Bytes) : ∀ {b : Buf} {before tail : Bytes} {count : ℕ},
    (xs.map encode).flatten.length < 2 ^ 64 →
    ∃ b', loadLoop emit b ⟨before ++ (xs.map encode).flatten ++ tail, before.length,
        (xs.map encode).flatten.length⟩ count =
        (some (count + xs.length), b', before ++ (xs.map consumed).flatten ++ tail) ∧
      b'.contents = b.contents ++ (elemsFrom elemOf before.length xs).flatMap toBytes := by
  induction xs with
  | nil =>
    intro b before tail count _
    exact ⟨b, loadLoop_nil rfl, by simp [elemsFrom]⟩
  | cons x xs ih =>
    intro b before tail count hsize
    rw [List.map_cons, List.flatten_cons] at hsize ⊢
    have hrest : (xs.map encode).flatten.length < 2 ^ 64 := by
      rw [List.length_append] at hsize
      omega
    obtain ⟨b', hloop, hcontents⟩ := @ih (b.adata (toBytes (elemOf before.length x)))
      (before ++ consumed x) tail (count + 1) hrest
    refine ⟨b', ?_, ?_⟩
    · rw [loadLoop_next (netstringNext_encode hsize), hemit, ← List.append_assoc, hloop]
      simp [List.append_assoc, Nat.add_right_comm, Nat.add_assoc]
    · rw [hcontents, Buf.contents_adata, List.length_append, length_consumed]
      simp [elemsFrom, List.append_assoc]

theorem load_encode {α : Type} {toBytes : α → Bytes} {elemOf : ℕ → Bytes → α}
    {emit : Bytes → Slice → Bytes}
    (hemit : ∀ before x after, emit (before ++ consumed x ++ after)
      ⟨before.length + (lengthPrefix x).length, x.length⟩ = toBytes (elemOf before.length x))
    (xs : List Bytes) {b : Buf} {before tail : Bytes} (haligned : b.len % 8 = 0)
    (hsize : (xs.map encode).flatten.length < 2 ^ 64) :
    ∃ b', load emit b (before ++ (xs.map encode).flatten ++ tail)
        ⟨before.length, (xs.map encode).flatten.length⟩ =
        (some (.arr (BitVec.ofNat 64 b.len) (BitVec.ofNat 64 xs.length)),
          before ++ (xs.map consumed).flatten ++ tail, b') ∧
      b'.contents = b.contents ++ (elemsFrom elemOf before.length xs).flatMap toBytes := by
  obtain ⟨hlen, hcontents⟩ := Buf.align_of_aligned haligned
  obtain ⟨b', hloop, hb'⟩ := @loadLoop_encode _ _ _ _ hemit xs b.align before tail 0 hsize
  rw [hcontents] at hb'
  refine ⟨b', ?_, hb'⟩
  unfold load
  dsimp only
  rw [hloop, hlen, Nat.zero_add]

/-! What a member refers to -/

/-- The bytes that a member of type `struct ycl_data` refers to. -/
def YclData.Holds (bufAddr : Word) (mem : Bytes) (data : YclData) (bytes : Bytes) : Prop :=
  data.len.toNat = bytes.length ∧ slice mem (data.data - bufAddr).toNat bytes.length = bytes

/-- An array without elements is NULL; of another one the elements are in the
scratch buffer. -/
def ArrayHolds {α : Type} (mbufAddr : Word) (elems : List α) (reads : ℕ → ℕ → Prop) (slot : Slot) :
    Prop :=
  (elems = [] → slot = .arr 0 0) ∧
    (elems ≠ [] → ∃ ptr nelems, slot = .arr ptr nelems ∧ nelems.toNat = elems.length ∧
      reads nelems.toNat (ptr - mbufAddr).toNat)

/-- A member of a parsed message has its value; `mem` and `scratch` are the
memories of the two buffers. -/
def Slot.Holds (bufAddr mbufAddr : Word) (mem scratch : Bytes) (slot : Slot) :
    (typ : FieldType) → typ.Value → Prop
  | .data, bytes =>
    let bytes : Bytes := bytes
    (bytes = [] → slot = .data ⟨0, 0⟩) ∧
      (bytes ≠ [] → ∃ data, slot = .data data ∧ data.Holds bufAddr mem bytes)
  | .long, l => slot = .long l
  | .dataarr, elems =>
    let elems : List Bytes := Option.getD elems []
    ArrayHolds mbufAddr elems
      (fun n off => List.Forall₂ (YclData.Holds bufAddr mem) (readDatas scratch n off) elems) slot
  | .longarr, elems =>
    let elems : List Word := Option.getD elems []
    ArrayHolds mbufAddr elems (fun n off => readLongs scratch n off = elems) slot

def Members.Reproduced (bufAddr mbufAddr : Word) (mem scratch : Bytes) :
    {fields : List Field} → Members fields → List Slot → Prop
  | _, .nil, slots => slots = []
  | _, .cons value rest, slots => ∃ slot others, slots = slot :: others ∧
      slot.Holds bufAddr mbufAddr mem scratch _ value ∧
      rest.Reproduced bufAddr mbufAddr mem scratch others

def dataPayload (bytes : Bytes) : Option Bytes := if bytes = [] then none else some bytes

def longPayload (l : Word) : Option Bytes := if l = 0 then none else some (longText l)

def arrayPayload (elems : List Bytes) : Option Bytes :=
  if elems = [] then none else some (elems.map encode).flatten

/-- What stands for a member in the message, if anything does. -/
def payload : (typ : FieldType) → typ.Value → Option Bytes
  | .data, bytes => dataPayload bytes
  | .long, l => longPayload l
  | .dataarr, elems => arrayPayload (Option.getD elems [])
  | .longarr, elems => arrayPayload ((Option.getD elems []).map longText)

def arrayBytes : (typ : FieldType) → typ.Value → ℕ
  | .dataarr, elems => 16 * (Option.getD elems ([] : List Bytes)).length
  | .longarr, elems => 8 * (Option.getD elems ([] : List Word)).length
  | _, _ => 0

theorem of_ite_eq_none {c : Prop} {_ : Decidable c} {v : Bytes} (h : (if c then none else some v) = none) :
    c := by
  by_contra hc
  rw [if_neg hc] at h
  cases h

theorem of_ite_eq_some {c : Prop} {_ : Decidable c} {v w : Bytes}
    (h : (if c then none else some v) = some w) : ¬ c ∧ v = w := by
  split at h
  · cases h
  · rename_i hc
    exact ⟨hc, Option.some.inj h⟩

theorem holds_zero (bufAddr mbufAddr : Word) (mem scratch : Bytes) : ∀ {typ : FieldType}
    {value : typ.Value}, payload typ value = none →
    typ.zero.Holds bufAddr mbufAddr mem scratch typ value
  | .data, _, h => ⟨fun _ => rfl, fun hne => absurd (of_ite_eq_none h) hne⟩
  | .long, _, h => congrArg Slot.long (of_ite_eq_none h).symm
  | .dataarr, _, h => ⟨fun _ => rfl, fun hne => absurd (of_ite_eq_none h) hne⟩
  | .longarr, _, h => ⟨fun _ => rfl, fun hne => absurd (List.map_eq_nil_iff.mp (of_ite_eq_none h)) hne⟩

theorem dataAt_holds (bufAddr : Word) (before bytes after : Bytes)
    (hsize : before.length + bytes.length < 2 ^ 64) :
    (dataAt bufAddr ⟨before.length, bytes.length⟩).Holds bufAddr (before ++ bytes ++ after) bytes := by
  have hoff : (bufAddr + BitVec.ofNat 64 before.length - bufAddr).toNat = before.length := by
    rw [BitVec.add_comm, BitVec.add_sub_cancel, BitVec.toNat_ofNat, Nat.mod_eq_of_lt (by omega)]
  refine ⟨?_, ?_⟩
  · unfold dataAt
    dsimp only
    rw [BitVec.toNat_ofNat, Nat.mod_eq_of_lt (by omega)]
  · unfold dataAt
    rw [hoff]
    exact slice_eq_of_append rfl rfl

theorem elemsFrom_holds (bufAddr : Word) (xs : List Bytes) : ∀ (before after : Bytes),
    before.length + (xs.map encode).flatten.length < 2 ^ 64 →
    List.Forall₂ (YclData.Holds bufAddr (before ++ (xs.map consumed).flatten ++ after))
      (elemsFrom (fun start x => dataAt bufAddr ⟨start + (lengthPrefix x).length, x.length⟩)
        before.length xs) xs := by
  induction xs with
  | nil => exact fun _ _ _ => .nil
  | cons x xs ih =>
    intro before after hsize
    rw [List.map_cons, List.flatten_cons, List.length_append] at hsize
    have hencode : (encode x).length = (lengthPrefix x).length + x.length + 1 := by
      simp [encode]
      omega
    have hmem : before ++ ((x :: xs).map consumed).flatten ++ after =
        before ++ lengthPrefix x ++ x ++ ([0] ++ ((xs.map consumed).flatten ++ after)) := by
      simp [consumed, List.append_assoc]
    refine .cons ?_ ?_
    · have h := dataAt_holds bufAddr (before ++ lengthPrefix x) x
        ([0] ++ ((xs.map consumed).flatten ++ after)) (by rw [List.length_append]; omega)
      rwa [List.length_append, ← hmem] at h
    · have h := ih (before ++ consumed x) after
        (by rw [List.length_append, length_consumed]; omega)
      rwa [List.length_append, length_consumed, List.append_assoc before, ← List.flatten_cons,
        ← List.map_cons] at h

theorem s2l_stops (x after : Bytes) : ∀ res, s2l res (x ++ 0 :: after) = s2l res (x ++ [0]) := by
  induction x with
  | nil => exact fun _ => rfl
  | cons ch x ih =>
    intro res
    rw [List.cons_append, List.cons_append, s2l, s2l]
    split
    · exact ih _
    · rfl

theorem elemsFrom_longs (ls : List Word) : ∀ start,
    elemsFrom (fun _ x => s2l 0 (x ++ [0])) start (ls.map longText) = ls := by
  induction ls with
  | nil => exact fun _ => rfl
  | cons l ls ih =>
    intro start
    rw [List.map_cons, elemsFrom, s2l_longText, ih]

theorem arrayHolds_of_append {α β : Type} {elems : List α} {slots : List β} {size : ℕ}
    {read : Bytes → ℕ → β} {toBytes : β → Bytes} {related : List β → List α → Prop}
    (hsize : ∀ a, (toBytes a).length = size)
    (hread : ∀ before a after, read (before ++ toBytes a ++ after) before.length = a)
    (hlength : slots.length = elems.length) (hrelated : related slots elems) (hne : elems ≠ [])
    (hcount : elems.length < 2 ^ 64) (contents after : Bytes) (hcontents : contents.length < 2 ^ 64) :
    ArrayHolds 0 elems (fun n off => related (readArray size read
        (contents ++ slots.flatMap toBytes ++ after) n off) elems)
      (.arr (BitVec.ofNat 64 contents.length) (BitVec.ofNat 64 elems.length)) := by
  have hn : (BitVec.ofNat 64 elems.length).toNat = elems.length := by
    rw [BitVec.toNat_ofNat, Nat.mod_eq_of_lt hcount]
  have hoff : (BitVec.ofNat 64 contents.length - 0).toNat = contents.length := by
    simpa using hcontents
  refine ⟨fun h => absurd h hne, fun _ => ⟨_, _, rfl, hn, ?_⟩⟩
  dsimp only
  rw [hn, hoff, ← hlength, readArray_flatMap hsize hread]
  exact hrelated

theorem length_flatMap_toBytes {toBytes : α → Bytes} {size : ℕ}
    (hsize : ∀ a, (toBytes a).length = size) (elems : List α) :
    (elems.flatMap toBytes).length = size * elems.length := by
  induction elems with
  | nil => rfl
  | cons a elems ih =>
    rw [List.flatMap_cons, List.length_append, ih, hsize, List.length_cons, Nat.mul_succ,
      Nat.add_comm]

theorem length_toBytes (data : YclData) : data.toBytes.length = 16 := by
  rw [YclData.toBytes, List.length_append, length_wordBytes, length_wordBytes]

theorem length_flatten_consumed (xs : List Bytes) :
    (xs.map consumed).flatten.length = (xs.map encode).flatten.length := by
  induction xs with
  | nil => rfl
  | cons x xs ih =>
    simp only [List.map_cons, List.flatten_cons, List.length_append, length_consumed, ih]

/-- What `loadField` does to a member whose payload is `v`: the memory `v` is
in may change, and the scratch buffer is appended to. -/
structure Loads (bufAddr : Word) (typ : FieldType) (value : typ.Value) (v before tail : Bytes)
    (b b' : Buf) (v' : Bytes) (slot : Slot) : Prop where
  run : loadField bufAddr b (before ++ v ++ 0 :: tail) ⟨before.length, v.length⟩ typ =
    (some slot, before ++ v' ++ 0 :: tail, b')
  length_eq : v'.length = v.length
  len_eq : b'.len = b.len + arrayBytes typ value
  grows : b.contents <+: b'.contents
  holds : ∀ after more,
    slot.Holds bufAddr 0 (before ++ v' ++ after) (b'.contents ++ more) typ value

theorem loads_array {α β : Type} {size : ℕ} {read : Bytes → ℕ → β} {toBytes : β → Bytes}
    {elemOf : ℕ → Bytes → β} {emit : Bytes → Slice → Bytes} {elems : List α} {xs : List Bytes}
    {related : Bytes → List β → List α → Prop}
    (hsize : ∀ a, (toBytes a).length = size)
    (hread : ∀ before a after, read (before ++ toBytes a ++ after) before.length = a)
    (hemit : ∀ before x after, emit (before ++ consumed x ++ after)
      ⟨before.length + (lengthPrefix x).length, x.length⟩ = toBytes (elemOf before.length x))
    (hxs : xs.length = elems.length) (hne : elems ≠ []) {before tail : Bytes} {b : Buf}
    (hrelated : ∀ after, related (before ++ (xs.map consumed).flatten ++ after)
      (elemsFrom elemOf before.length xs) elems)
    (haligned : b.len % 8 = 0) (hfits : (xs.map encode).flatten.length < 2 ^ 64) (hpos : 0 < size)
    (harray : b.len + size * elems.length < 2 ^ 64) :
    ∃ b' slot, load emit b (before ++ (xs.map encode).flatten ++ tail)
        ⟨before.length, (xs.map encode).flatten.length⟩ =
        (some slot, before ++ (xs.map consumed).flatten ++ tail, b') ∧
      b'.len = b.len + size * elems.length ∧ b.contents <+: b'.contents ∧
      ∀ after more, ArrayHolds 0 elems (fun n off => related
        (before ++ (xs.map consumed).flatten ++ after)
        (readArray size read (b'.contents ++ more) n off) elems) slot := by
  obtain ⟨b', hload, hcontents⟩ := @load_encode _ _ _ _ hemit xs b before tail haligned hfits
  have hlength : (elemsFrom elemOf before.length xs).length = elems.length :=
    (length_elemsFrom elemOf xs _).trans hxs
  have hlen : b'.len = b.len + size * elems.length := by
    rw [← Buf.length_contents, hcontents, List.length_append, Buf.length_contents,
      length_flatMap_toBytes hsize, hlength]
  refine ⟨b', _, hload, hlen, hcontents ▸ List.prefix_append _ _, fun after more => ?_⟩
  have hcount : elems.length ≤ size * elems.length := Nat.le_mul_of_pos_left _ hpos
  have h := @arrayHolds_of_append _ _ elems _ size read toBytes
    (related (before ++ (xs.map consumed).flatten ++ after)) hsize hread hlength (hrelated after) hne
    (by omega) b.contents more (by rw [Buf.length_contents]; omega)
  rwa [Buf.length_contents, ← hcontents, ← hxs] at h

theorem exists_loads (bufAddr : Word) (before tail : Bytes) {b : Buf} (haligned : b.len % 8 = 0) :
    ∀ {typ : FieldType} {value : typ.Value} {v : Bytes}, payload typ value = some v →
    before.length + v.length < 2 ^ 64 → b.len + arrayBytes typ value < 2 ^ 64 →
    ∃ b' v' slot, Loads bufAddr typ value v before tail b b' v' slot
  | .data, bytes, v, hpayload, hsize, _ => by
    obtain ⟨hne, rfl⟩ := of_ite_eq_some hpayload
    refine ⟨b, bytes, _, rfl, rfl, rfl, List.prefix_rfl, fun after more => ?_⟩
    exact ⟨fun h => absurd h hne, fun _ => ⟨_, rfl, dataAt_holds bufAddr before bytes after hsize⟩⟩
  | .long, l, v, hpayload, _, _ => by
    obtain ⟨-, rfl⟩ := of_ite_eq_some hpayload
    have hread : ∀ l : Word, s2l 0 ((before ++ longText l ++ 0 :: tail).drop before.length) = l := by
      intro l
      rw [List.append_assoc, List.drop_left, s2l_longText]
    refine ⟨b, longText l, .long l, ?_, rfl, rfl, List.prefix_rfl, fun _ _ => rfl⟩
    exact congrArg (fun word => (some (Slot.long word), _, b)) (hread l)
  | .dataarr, elems, v, hpayload, hsize, harray => by
    obtain ⟨hne, rfl⟩ := of_ite_eq_some hpayload
    obtain ⟨b', slot, hload, hlen, hgrows, hholds⟩ := @loads_array _ _ 16 readData
      YclData.toBytes _ (fun _ elem => (dataAt bufAddr elem).toBytes) _ _
      (fun mem => List.Forall₂ (YclData.Holds bufAddr mem)) length_toBytes readData_toBytes
      (fun _ _ _ => rfl) rfl hne before (0 :: tail) b
      (fun after => elemsFrom_holds bufAddr _ before after hsize) haligned (by omega) (by decide)
      harray
    exact ⟨b', _, slot, hload, length_flatten_consumed _, hlen, hgrows, hholds⟩
  | .longarr, elems, v, hpayload, hsize, harray => by
    obtain ⟨hne, rfl⟩ := of_ite_eq_some hpayload
    have hemit : ∀ before x after : Bytes,
        wordBytes (s2l 0 ((before ++ consumed x ++ after).drop
          (before.length + (lengthPrefix x).length))) = wordBytes (s2l 0 (x ++ [0])) := by
      intro before x after
      have hmem : before ++ consumed x ++ after = before ++ lengthPrefix x ++ (x ++ 0 :: after) := by
        simp [consumed, List.append_assoc]
      rw [hmem, ← List.length_append, List.drop_left, s2l_stops]
    obtain ⟨b', slot, hload, hlen, hgrows, hholds⟩ := @loads_array _ _ 8 readLong
      wordBytes (fun _ x => s2l 0 (x ++ [0])) (fun mem elem => wordBytes (s2l 0 (mem.drop elem.off)))
      _ _ (fun _ => Eq) length_wordBytes readLong_wordBytes hemit (List.length_map _)
      (fun h => hne (List.map_eq_nil_iff.mpr h)) before
      (0 :: tail) b (fun _ => elemsFrom_longs _ _) haligned (by omega) (by decide) harray
    exact ⟨b', _, slot, hload, length_flatten_consumed _, hlen, hgrows, hholds⟩

theorem search_eq_around (fields : List Field) (key : Bytes) (pairoff : ℕ) :
    ∀ {n currpair : ℕ}, currpair < fields.length →
      search fields key pairoff n currpair =
        (around (fun i => fields[i]?.any fun field => key = field.name) fields.length pairoff n
          currpair).bind fun i => fields[i]?.map fun field => (i, field.typ) := by
  intro n
  induction n with
  | zero => exact fun _ => rfl
  | succ n ih =>
    intro currpair hcurrpair
    have hnext := Nat.mod_lt (currpair + 1) (Nat.zero_lt_of_lt hcurrpair)
    rw [search, around, List.getElem?_eq_getElem hcurrpair]
    by_cases hkey : key = fields[currpair].name
    · simp [hkey, List.getElem?_eq_getElem hcurrpair]
    · simp only [hkey, if_false, Option.any_some, decide_false, Bool.false_eq_true]
      split
      · exact ih hnext
      · rfl

variable {fields : List Field}

theorem search_eq (hdistinct : (fields.map Field.name).Nodup) {i : ℕ}
    {field : Field} (hfield : fields[i]? = some field) {pairoff : ℕ}
    (hpairoff : pairoff < fields.length) :
    search fields field.name pairoff fields.length pairoff = some (i, field.typ) := by
  have hi : i < fields.length := (List.getElem?_eq_some_iff.mp hfield).1
  rw [search_eq_around fields field.name pairoff hpairoff,
    around_of_unique hi (by simp [hfield]) ?_ hpairoff]
  · simp [hfield]
  · intro j hj hname
    have hsame : fields[j].name = field.name := by
      simpa [List.getElem?_eq_getElem hj, eq_comm] using hname
    apply (List.getElem?_inj (by simpa using hj) hdistinct).mp
    rw [List.getElem?_map, List.getElem?_map, List.getElem?_eq_getElem hj, hfield]
    exact congrArg some hsame

/-! The loop over the pairs -/

variable {bufAddr : Word}

theorem pairLoop_end {st : Parsing} {pairoff : ℕ}
    (h : st.cur.datalen = 0) : pairLoop fields bufAddr st pairoff = (.ok, st) := by
  have hnext : netstringNextPair st.cur = (.error .errincomplete, st.cur) := by
    unfold netstringNextPair
    rw [if_pos h]
  rw [pairLoop]
  split
  · rename_i herror
    rw [hnext] at herror
    cases herror
    rfl
  · rename_i hok
    rw [hnext] at hok
    cases hok

theorem pairLoop_next {fields : List Field} {bufAddr : Word} {st : Parsing} {pairoff currpair : ℕ}
    {pair : NetstringPair} {cur : Cursor} {typ : FieldType} {slot : Slot} {mem : Bytes} {mbuf : Buf}
    (hnext : netstringNextPair st.cur = (.ok pair, cur))
    (hsearch : search fields (stringAt cur.mem pair.key.off) pairoff fields.length pairoff =
      some (currpair, typ))
    (hload : loadField bufAddr st.mbuf cur.mem pair.value typ = (some slot, mem, mbuf)) :
    pairLoop fields bufAddr st pairoff =
      pairLoop fields bufAddr ⟨{ cur with mem := mem }, mbuf, st.r.set currpair slot⟩
        ((pairoff + 1) % fields.length) := by
  rw [pairLoop]
  split
  · rename_i herror
    rw [hnext] at herror
    cases herror
  · rename_i hok
    rw [hnext] at hok
    cases hok
    rw [hsearch]
    dsimp only
    rw [hload]

def Members.body : {fields : List Field} → Members fields → Bytes
  | _, .nil => []
  | field :: _, .cons value rest =>
    match payload field.typ value with
    | none => rest.body
    | some v => encode field.name ++ encode v ++ rest.body

/-- The memory that the arrays of a message take. -/
def Members.arrayBytes : {fields : List Field} → Members fields → ℕ
  | _, .nil => 0
  | _, .cons value rest => Ycl.arrayBytes _ value + rest.arrayBytes

def zeros (fields : List Field) : List Slot := fields.map fun field => field.typ.zero

theorem arrayBytes_mod : ∀ (typ : FieldType) (value : typ.Value), arrayBytes typ value % 8 = 0
  | .data, _ => rfl
  | .long, _ => rfl
  | .dataarr, elems => by
    change 16 * (Option.getD elems ([] : List Bytes)).length % 8 = 0
    omega
  | .longarr, _ => Nat.mul_mod_right _ _

theorem pairLoop_field {all : List Field} (hdistinct : (all.map Field.name).Nodup) {i : ℕ}
    {field : Field} (hfield : all[i]? = some field) (hname : ∀ ch ∈ field.name, ch ≠ 0)
    (bufAddr : Word) {value : field.typ.Value} {v : Bytes} (hpayload : payload field.typ value = some v)
    {before rest tail : Bytes} {b : Buf} {slots : List Slot} {pairoff : ℕ}
    (hpairoff : pairoff < all.length) (haligned : b.len % 8 = 0)
    (hsize : before.length + (encode field.name ++ encode v ++ rest).length < 2 ^ 64)
    (harray : b.len + arrayBytes field.typ value < 2 ^ 64) :
    ∃ parsed b' slot, pairLoop all bufAddr
        ⟨⟨before ++ (encode field.name ++ encode v ++ rest) ++ tail, before.length,
          (encode field.name ++ encode v ++ rest).length⟩, b, slots⟩ pairoff =
        pairLoop all bufAddr ⟨⟨before ++ parsed ++ rest ++ tail, (before ++ parsed).length,
          rest.length⟩, b', slots.set i slot⟩ ((pairoff + 1) % all.length) ∧
      parsed.length = (encode field.name ++ encode v).length ∧
      b'.len = b.len + arrayBytes field.typ value ∧ b.contents <+: b'.contents ∧
      ∀ after more, slot.Holds bufAddr 0 (before ++ parsed ++ after) (b'.contents ++ more) field.typ
        value := by
  have hnext := @netstringNextPair_encode before field.name v rest tail (by omega)
  have hfront : (before ++ consumed field.name).length + (lengthPrefix v).length =
      (before ++ consumed field.name ++ lengthPrefix v).length := List.length_append.symm
  have hmem : before ++ consumed field.name ++ consumed v ++ (rest ++ tail) =
      before ++ consumed field.name ++ lengthPrefix v ++ v ++ 0 :: (rest ++ tail) := by
    simp [consumed, List.append_assoc]
  have hlengths : (before ++ consumed field.name ++ lengthPrefix v).length + v.length + 1 +
      rest.length = before.length + (encode field.name ++ encode v ++ rest).length := by
    simp only [encode, consumed, List.length_append, List.length_singleton]
    omega
  obtain ⟨b', v', slot, hloads⟩ := exists_loads bufAddr
    (before ++ consumed field.name ++ lengthPrefix v) (rest ++ tail) haligned hpayload (by omega)
    harray
  have hload := hloads.run
  rw [← hfront, ← hmem] at hload
  have hkey := stringAt_consumed hname before (consumed v ++ (rest ++ tail))
  rw [← List.append_assoc] at hkey
  have hsearch := search_eq hdistinct hfield hpairoff
  have hlength := hloads.length_eq
  refine ⟨consumed field.name ++ lengthPrefix v ++ v' ++ [0], b', slot, ?_, ?_, hloads.len_eq,
    hloads.grows, ?_⟩
  · rw [@pairLoop_next all bufAddr ⟨_, b, slots⟩ pairoff i _ _ field.typ slot _ b' hnext
      (by dsimp only; rw [hkey]; exact hsearch) hload]
    have hafter : (before ++ consumed field.name ++ consumed v).length =
        (before ++ (consumed field.name ++ lengthPrefix v ++ v' ++ [0])).length := by
      simp only [consumed, List.length_append, List.length_singleton]
      omega
    rw [hafter]
    simp [List.append_assoc]
  · simp only [encode, consumed, List.length_append, List.length_singleton]
    omega
  · intro after more
    have h := hloads.holds ([0] ++ after) more
    simpa [List.append_assoc] using h

/-- The induction is on the members: those in front of `fields` are done, the
memory in front of `before.length` stays as it is, and so does what is in the
scratch buffer. -/
theorem pairLoop_members {all : List Field} (hdistinct : (all.map Field.name).Nodup)
    (hnames : ∀ field ∈ all, ∀ ch ∈ field.name, ch ≠ 0) (bufAddr : Word) :
    ∀ {fields : List Field} (r : Members fields) {finished : List Field}, all = finished ++ fields →
    ∀ {before tail : Bytes} {b : Buf} {slots : List Slot} {pairoff : ℕ},
    slots.length = finished.length → pairoff < all.length → b.len % 8 = 0 →
    before.length + r.body.length < 2 ^ 64 → b.len + r.arrayBytes < 2 ^ 64 →
    ∃ cur b' others, pairLoop all bufAddr
        ⟨⟨before ++ r.body ++ tail, before.length, r.body.length⟩, b, slots ++ zeros fields⟩ pairoff =
        (.ok, ⟨cur, b', slots ++ others⟩) ∧
      before <+: cur.mem ∧ b.contents <+: b'.contents ∧
      ∀ more, r.Reproduced bufAddr 0 cur.mem (b'.contents ++ more) others
  | [], .nil, finished, _, before, tail, b, slots, pairoff, _, _, _, _, _ => by
    refine ⟨_, b, [], pairLoop_end rfl, ?_, List.prefix_rfl, fun _ => rfl⟩
    rw [List.append_assoc]
    exact List.prefix_append _ _
  | field :: fields, .cons value rest, finished, hall, before, tail, b, slots, pairoff, hslots,
      hpairoff, haligned, hsize, harrays => by
    have hall' : all = finished ++ [field] ++ fields := by
      rw [hall, List.append_cons]
    have hcons : ∀ (slot : Slot) (others : List Slot),
        slots ++ [slot] ++ others = slots ++ slot :: others :=
      fun slot others => (List.append_cons slots slot others).symm
    have hdone : ∀ slot : Slot, (slots ++ [slot]).length = (finished ++ [field]).length := by
      intro slot
      rw [List.length_append, List.length_append, hslots]
      rfl
    rw [Members.arrayBytes] at harrays
    cases hpayload : payload field.typ value with
    | none =>
      have hbody : (Members.cons value rest).body = rest.body := by
        rw [Members.body, hpayload]
      rw [hbody] at hsize ⊢
      obtain ⟨cur, b', others, hloop, hmem, hcontents, hreproduced⟩ := @pairLoop_members all hdistinct
        hnames bufAddr fields rest (finished ++ [field]) hall' before tail b (slots ++ [field.typ.zero])
        pairoff (hdone _) hpairoff haligned hsize (by omega)
      rw [hcons, hcons] at hloop
      exact ⟨cur, b', field.typ.zero :: others, hloop, hmem, hcontents, fun more =>
        ⟨_, _, rfl, holds_zero bufAddr 0 _ _ hpayload, hreproduced more⟩⟩
    | some v =>
      have hbody : (Members.cons value rest).body = encode field.name ++ encode v ++ rest.body := by
        rw [Members.body, hpayload]
      rw [hbody] at hsize ⊢
      have hfield : all[finished.length]? = some field := by
        rw [hall, List.getElem?_append_right le_rfl, Nat.sub_self]
        rfl
      have hmemField : field ∈ all := List.mem_of_getElem? hfield
      obtain ⟨parsed, b₁, slot, hstep, hlength, hlen, hcontents₁, hholds⟩ := @pairLoop_field all
        hdistinct _ field hfield (hnames field hmemField) bufAddr value v hpayload before rest.body
        tail b (slots ++ zeros (field :: fields)) pairoff hpairoff haligned hsize (by omega)
      have hset : (slots ++ zeros (field :: fields)).set finished.length slot =
          slots ++ [slot] ++ zeros fields := by
        rw [← hslots, List.set_append_right _ _ le_rfl, Nat.sub_self, hcons]
        rfl
      have harray := arrayBytes_mod field.typ value
      obtain ⟨cur, b', others, hloop, hmem, hcontents, hreproduced⟩ := @pairLoop_members all hdistinct
        hnames bufAddr fields rest (finished ++ [field]) hall' (before ++ parsed) tail b₁
        (slots ++ [slot]) ((pairoff + 1) % all.length) (hdone _) (Nat.mod_lt _ (by omega)) (by omega)
        (by rw [List.length_append, hlength]; rw [List.length_append] at hsize; omega) (by omega)
      rw [hset, hloop, hcons] at hstep
      refine ⟨cur, b', slot :: others, hstep, (List.prefix_append _ _).trans hmem,
        hcontents₁.trans hcontents, fun more => ⟨_, _, rfl, ?_, hreproduced more⟩⟩
      obtain ⟨after, hafter⟩ := hmem
      obtain ⟨post, hpost⟩ := hcontents
      rw [← hafter, ← hpost, List.append_assoc b₁.contents]
      exact hholds after (post ++ more)

theorem ArrayHolds.relocate {elems : List α} {reads : ℕ → ℕ → Prop} {slot : Slot}
    (h : ArrayHolds 0 elems reads slot) (mbufAddr : Word) :
    ArrayHolds mbufAddr elems reads (relocate mbufAddr slot) := by
  constructor
  · intro hnil
    rw [h.1 hnil]
    rfl
  · intro hne
    obtain ⟨ptr, nelems, rfl, hn, hreads⟩ := h.2 hne
    have hpos : nelems > 0 := by
      rw [gt_iff_lt, BitVec.lt_def, hn]
      exact List.length_pos_iff.mpr hne
    refine ⟨mbufAddr + ptr, nelems, if_pos hpos, hn, ?_⟩
    rw [BitVec.add_comm, BitVec.add_sub_cancel]
    simpa using hreads

variable {mem scratch : Bytes}

theorem Slot.Holds.relocate (mbufAddr : Word) :
    ∀ {typ : FieldType} {value : typ.Value} {slot : Slot},
      slot.Holds bufAddr 0 mem scratch typ value →
      (relocate mbufAddr slot).Holds bufAddr mbufAddr mem scratch typ value
  | .data, bytes, slot, h => by
    refine ⟨fun hnil => ?_, fun hne => ?_⟩
    · rw [h.1 hnil]
      rfl
    · obtain ⟨data, rfl, hdata⟩ := h.2 hne
      exact ⟨data, rfl, hdata⟩
  | .long, l, slot, h => by
    obtain rfl : slot = .long l := h
    exact rfl
  | .dataarr, elems, slot, h => by
    rw [Slot.Holds] at h ⊢
    exact h.relocate mbufAddr
  | .longarr, elems, slot, h => by
    rw [Slot.Holds] at h ⊢
    exact h.relocate mbufAddr

theorem Members.Reproduced.relocate (mbufAddr : Word) :
    ∀ {fields : List Field} {r : Members fields} {slots : List Slot},
      r.Reproduced bufAddr 0 mem scratch slots →
      r.Reproduced bufAddr mbufAddr mem scratch (slots.map (relocate mbufAddr))
  | [], .nil, slots, h => by
    obtain rfl : slots = [] := h
    exact rfl
  | field :: fields, .cons value rest, slots, h => by
    obtain ⟨slot, others, rfl, hholds, hrest⟩ := h
    exact ⟨_, _, rfl, hholds.relocate mbufAddr, hrest.relocate mbufAddr⟩

def pairBytes (name : Bytes) : Option Bytes → Bytes
  | none => []
  | some v => encode name ++ encode v

theorem appendData_spec (msg : YclMsg) (name data : Bytes) :
    (appendData msg name data).buf = msg.buf ∧ (appendData msg name data).mbuf.contents =
      msg.mbuf.contents ++ pairBytes name (dataPayload data) := by
  unfold appendData dataPayload
  by_cases hnil : data = []
  · subst hnil
    exact ⟨rfl, (List.append_nil _).symm⟩
  · rw [if_pos (List.length_pos_iff.mpr hnil), if_neg hnil]
    exact ⟨rfl, contents_netstringAppendPair _ _ _⟩

theorem appendLong_spec (msg : YclMsg) (name : Bytes) (l : Word) :
    (appendLong msg name l).buf = msg.buf ∧ (appendLong msg name l).mbuf.contents =
      msg.mbuf.contents ++ pairBytes name (longPayload l) := by
  unfold appendLong longPayload
  by_cases hzero : l = 0
  · rw [if_neg (not_not.mpr hzero), if_pos hzero]
    exact ⟨rfl, (List.append_nil _).symm⟩
  · rw [if_pos hzero, if_neg hzero]
    exact ⟨rfl, contents_netstringAppendPair _ _ _⟩

theorem appendArray_spec (msg : YclMsg) (name : Bytes) (elems : Option (List Bytes)) :
    (appendArray msg name elems).buf = msg.buf ∧ (appendArray msg name elems).mbuf.contents =
      msg.mbuf.contents ++ pairBytes name (arrayPayload (elems.getD [])) := by
  match elems with
  | none => exact ⟨rfl, (List.append_nil _).symm⟩
  | some [] => exact ⟨rfl, (List.append_nil _).symm⟩
  | some (elem :: elems) => simp [appendArray, arrayPayload, pairBytes]

theorem appendField_spec (msg : YclMsg) : ∀ {field : Field} (value : field.typ.Value),
    (appendField msg field value).buf = msg.buf ∧ (appendField msg field value).mbuf.contents =
      msg.mbuf.contents ++ pairBytes field.name (payload field.typ value)
  | ⟨.data, name⟩, data => appendData_spec msg name data
  | ⟨.long, name⟩, l => appendLong_spec msg name l
  | ⟨.dataarr, name⟩, elems => appendArray_spec msg name elems
  | ⟨.longarr, name⟩, none => appendArray_spec msg name none
  | ⟨.longarr, name⟩, some ls => appendArray_spec msg name (some (ls.map longText))

theorem appendFields_spec : ∀ {fields : List Field} (r : Members fields) (msg : YclMsg),
    (appendFields r msg).buf = msg.buf ∧
      (appendFields r msg).mbuf.contents = msg.mbuf.contents ++ r.body
  | [], .nil, msg => ⟨rfl, (List.append_nil _).symm⟩
  | field :: fields, .cons value rest, msg => by
    obtain ⟨hbuf, hcontents⟩ := appendField_spec msg value
    obtain ⟨hbuf', hcontents'⟩ := appendFields_spec rest (appendField msg field value)
    refine ⟨hbuf'.trans hbuf, ?_⟩
    rw [appendFields, hcontents', hcontents, List.append_assoc, Members.body]
    cases payload field.typ value with
    | none => rfl
    | some v => rfl

theorem contents_yclMsgCreate (schema : Schema) (r : Members schema.fields) (msg : YclMsg)
    (h : schema.fields ≠ []) : (yclMsgCreate schema r msg).buf.contents = encode r.body := by
  obtain ⟨hbuf, hcontents⟩ := appendFields_spec r (yclMsgReset msg)
  unfold yclMsgCreate
  rw [if_neg h]
  rw [contents_netstringAppendBuf, hbuf, hcontents]
  simp [yclMsgReset]

theorem ne_zero_of_isName {name : Bytes} (h : IsName name) : ∀ ch ∈ name, ch ≠ 0 := by
  rintro ch hch rfl
  obtain hletter | hdigit | hunderscore := h.2.2 0 hch
  · revert hletter
    decide
  · revert hdigit
    decide
  · cases hunderscore

theorem Members.reproduced_nil {mbufAddr : Word}
    (r : Members fields) (h : fields = []) : r.Reproduced bufAddr mbufAddr mem scratch [] := by
  subst h
  cases r
  rfl

theorem yclMsgParse_body (schema : Schema) (r : Members schema.fields) (received : YclMsg)
    (bufAddr mbufAddr : Word) (hempty : schema.fields ≠ [])
    (hreceived : received.buf.contents = encode r.body) (hsize : received.buf.len < 2 ^ 64)
    (harrays : r.arrayBytes < 2 ^ 64) :
    let parsed := yclMsgParse schema bufAddr mbufAddr received
    parsed.status = .ok ∧
      r.Reproduced bufAddr mbufAddr parsed.mem parsed.mbuf.data parsed.r := by
  have hlen : received.buf.len = (encode r.body).length := by
    rw [← hreceived, Buf.length_contents]
  have hdata : received.buf.data =
      [] ++ (encode r.body ++ []) ++ received.buf.data.drop received.buf.len := by
    rw [List.nil_append, List.append_nil, ← hreceived]
    exact Buf.data_eq _
  have hparse := @netstringParse_encode [] r.body [] (received.buf.data.drop received.buf.len)
    (by rw [List.append_nil]; omega)
  rw [← hdata, List.append_nil, ← hlen] at hparse
  have hmem : [] ++ consumed r.body ++ ([] ++ received.buf.data.drop received.buf.len) =
      lengthPrefix r.body ++ r.body ++ ([0] ++ received.buf.data.drop received.buf.len) := by
    simp [consumed, List.append_assoc]
  rw [hmem, List.length_nil, Nat.zero_add] at hparse
  have hbody : (lengthPrefix r.body).length + r.body.length < 2 ^ 64 := by
    simp only [encode, List.length_append, List.length_singleton] at hlen
    omega
  obtain ⟨cur, b, slots, hloop, -, -, hreproduced⟩ := @pairLoop_members schema.fields schema.distinct
    (fun field hfield => ne_zero_of_isName (schema.isName field hfield)) bufAddr schema.fields r []
    rfl (lengthPrefix r.body) ([0] ++ received.buf.data.drop received.buf.len) received.mbuf.clear []
    0 rfl (List.length_pos_iff.mpr hempty) rfl hbody
    (by rw [show received.mbuf.clear.len = 0 from rfl, Nat.zero_add]; exact harrays)
  have hrun : yclMsgParse schema bufAddr mbufAddr received =
      ⟨.ok, cur.mem, b, slots.map (relocate mbufAddr)⟩ := by
    unfold yclMsgParse
    rw [if_neg hempty, hparse]
    dsimp only
    rw [List.nil_append, List.nil_append] at hloop
    unfold zeros at hloop
    rw [hloop]
  rw [hrun]
  refine ⟨rfl, Members.Reproduced.relocate mbufAddr ?_⟩
  rw [Buf.data_eq b]
  exact hreproduced _

/-- Parsing a created message succeeds and gives every member its value back,
wherever the two buffers are. -/
theorem create_parse_round_trip (schema : Schema) (r : Members schema.fields) (msg received : YclMsg)
    (bufAddr mbufAddr : Word)
    (hreceived : received.buf.contents = (yclMsgCreate schema r msg).buf.contents)
    (hsize : received.buf.len < 2 ^ 64) (harrays : r.arrayBytes < 2 ^ 64) :
    let parsed := yclMsgParse schema bufAddr mbufAddr received
    parsed.status = .ok ∧
      r.Reproduced bufAddr mbufAddr parsed.mem parsed.mbuf.data parsed.r := by
  by_cases hempty : schema.fields = []
  · have hzeros : (schema.fields.map fun field => field.typ.zero) = [] := by
      rw [hempty]
      rfl
    unfold yclMsgParse
    rw [if_pos hempty, hzeros]
    exact ⟨rfl, r.reproduced_nil hempty⟩
  · rw [contents_yclMsgCreate schema r msg hempty] at hreceived
    exact yclMsgParse_body schema r received bufAddr mbufAddr hempty hreceived hsize harrays

/-- `data d; long l; long[] a; data[] b;` -/
def sampleSchema : Schema where
  fields := [⟨.data, [100]⟩, ⟨.long, [108]⟩, ⟨.longarr, [97]⟩, ⟨.dataarr, [98]⟩]
  nfields_le := by decide
  isName := by simp [IsName, IsLetter]
  distinct := by decide

/-- Empty data, the smallest `long`, and arrays with empty and negative
elements. -/
def sampleMembers : Members sampleSchema.fields :=
  @Members.cons ⟨.data, [100]⟩ _ ([] : Bytes) (@Members.cons ⟨.long, [108]⟩ _ (BitVec.intMin 64)
    (@Members.cons ⟨.longarr, [97]⟩ _ (some [-1, 0] : Option (List Word))
      (@Members.cons ⟨.dataarr, [98]⟩ _ (some [[44], []] : Option (List Bytes)) .nil)))

theorem sampleMembers_body : sampleMembers.body =
    encode [108] ++ encode (longText (BitVec.intMin 64)) ++ (encode [97] ++
      encode (encode (longText (-1)) ++ (encode (longText 0) ++ [])) ++ (encode [98] ++
      encode (encode [44] ++ (encode [] ++ [])) ++ [])) := rfl

theorem length_sampleMembers_body : sampleMembers.body.length < 2 ^ 32 := by
  have hname : ∀ ch : UInt8, (encode [ch]).length ≤ 5 := fun ch => length_encode_le [ch]
  have hmin := length_encode_le (longText (BitVec.intMin 64))
  have hminus := length_encode_le (longText (-1))
  have hzero := length_encode_le (longText 0)
  have hempty := length_encode_le []
  have hlongs := length_encode_le (encode (longText (-1)) ++ (encode (longText 0) ++ []))
  have hdatas := length_encode_le (encode [44] ++ (encode [] ++ []))
  have hmin' : (longText (BitVec.intMin 64)).length = 48 := by decide
  have hminus' : (longText (-1)).length = 48 := by decide
  have hzero' : (longText 0).length = 1 := by decide
  have hl := hname 108
  have ha := hname 97
  have hb := hname 98
  have hcomma := hname 44
  rw [sampleMembers_body]
  simp only [List.length_append, List.length_nil] at *
  omega

theorem create_parse_round_trip_sample :
    let created := yclMsgCreate sampleSchema sampleMembers yclMsgInit
    let parsed := yclMsgParse sampleSchema 4096 65536 created
    parsed.status = .ok ∧
      sampleMembers.Reproduced 4096 65536 parsed.mem parsed.mbuf.data parsed.r := by
  have hsize : (yclMsgCreate sampleSchema sampleMembers yclMsgInit).buf.len < 2 ^ 64 := by
    have hbody := length_sampleMembers_body
    have hencode := length_encode_le sampleMembers.body
    rw [← Buf.length_contents, contents_yclMsgCreate _ _ _ (by decide)]
    omega
  exact create_parse_round_trip sampleSchema sampleMembers yclMsgInit _ 4096 65536 rfl hsize
    (by decide)

end Yans.Ycl
