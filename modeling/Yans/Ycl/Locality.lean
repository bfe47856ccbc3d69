import Yans.Util.NetstringLocality
import Yans.Ycl.Codec

/-! Parsing a message without arrays reads nothing behind its end: the members
are those of the message alone. -/
namespace Yans.Ycl

open Library.Memory Util Util.Netstring

/-- The bytes of a member lie in the first `size` bytes of `buf`. -/
def Slot.Inside (bufAddr : Word) (size : ℕ) : Slot → Prop
  | .data string => string.data = 0 ∨ (string.data - bufAddr).toNat + string.len.toNat ≤ size
  | _ => True

variable {mem : Bytes}

theorem inside_dataAt (bufAddr : Word) {out : Slice} (hsize : mem.length < 2 ^ 64)
    (h : out.Within mem) : (Slot.data (dataAt bufAddr out)).Inside bufAddr mem.length := by
  have hlt := h.lt
  have hoff : (bufAddr + BitVec.ofNat 64 out.off - bufAddr).toNat = out.off := by
    rw [BitVec.add_comm, BitVec.add_sub_cancel, BitVec.toNat_ofNat, Nat.mod_eq_of_lt (by omega)]
  right
  simp only [dataAt, BitVec.toNat_ofNat]
  rw [hoff, Nat.mod_eq_of_lt (by omega)]
  omega

theorem inside_zero (bufAddr : Word) (size : ℕ) (typ : FieldType) :
    (FieldType.zero typ).Inside bufAddr size := by
  cases typ with
  | dataarr => trivial
  | longarr => trivial
  | data => exact .inl rfl
  | long => trivial

variable {slot : Slot}

theorem Slot.Inside.relocate {bufAddr mbufAddr : Word} {size : ℕ}
    (h : slot.Inside bufAddr size) : (relocate mbufAddr slot).Inside bufAddr size := by
  cases slot with
  | data data => exact h
  | long l => trivial
  | arr ptr nelems =>
    unfold Ycl.relocate
    dsimp only
    split <;> trivial

theorem s2l_append_left {out : Slice} (h : out.Within mem) (tail : Bytes) :
    s2l 0 ((mem ++ tail).drop out.off) = s2l 0 (mem.drop out.off) := by
  have hlt := h.lt
  have hsplit : mem.drop out.off =
      (mem.drop out.off).take out.len ++ 0 :: mem.drop (out.off + out.len + 1) := by
    have hzero : mem[out.off + out.len] = 0 := by
      have hbyte := h
      rw [Slice.Within, List.getElem?_eq_getElem hlt] at hbyte
      exact Option.some.inj hbyte
    rw [← hzero, ← List.drop_eq_getElem_cons hlt, ← List.drop_drop, List.take_append_drop]
  rw [List.drop_append_of_le_length (by omega), hsplit, List.append_assoc, List.cons_append,
    s2l_stops, ← s2l_stops _ (mem.drop (out.off + out.len + 1))]

def FieldType.IsScalar (typ : FieldType) : Prop := typ = .data ∨ typ = .long

variable {fields : List Field} {pairoff : ℕ}

theorem exists_of_search {key : Bytes} {i : ℕ} {typ : FieldType} :
    ∀ {n currpair : ℕ}, search fields key pairoff n currpair = some (i, typ) →
      ∃ field ∈ fields, field.typ = typ := by
  intro n
  induction n with
  | zero =>
    intro currpair h
    cases h
  | succ n ih =>
    intro currpair h
    unfold search at h
    split at h
    · cases h
    · rename_i field hfield
      split at h
      · cases h
        exact ⟨field, List.mem_of_getElem? hfield, rfl⟩
      · dsimp only at h
        split at h
        · exact ih h
        · cases h

variable {bufAddr : Word}

theorem loadField_local (hsize : mem.length < 2 ^ 64) {value : Slice}
    (hvalue : value.Within mem) {typ : FieldType} (htyp : typ.IsScalar) :
    ∃ slot : Slot, slot.Inside bufAddr mem.length ∧ ∀ tail mbuf,
      loadField bufAddr mbuf (mem ++ tail) value typ = (some slot, mem ++ tail, mbuf) := by
  obtain rfl | rfl := htyp
  · exact ⟨_, inside_dataAt bufAddr hsize hvalue, fun _ _ => rfl⟩
  · refine ⟨.long (s2l 0 (mem.drop value.off)), trivial, fun tail mbuf => ?_⟩
    simp only [loadField, s2l_append_left hvalue]

theorem pairLoop_error {st : Parsing}
    {code : NetstringErr} {cur : Cursor} (h : netstringNextPair st.cur = (.error code, cur)) :
    pairLoop fields bufAddr st pairoff = (.ok, { st with cur := cur }) := by
  rw [pairLoop]
  split
  · rename_i herror
    rw [h] at herror
    cases herror
    rfl
  · rename_i hok
    rw [h] at hok
    cases hok

theorem pairLoop_skip {st : Parsing}
    {pair : NetstringPair} {cur : Cursor} (hnext : netstringNextPair st.cur = (.ok pair, cur))
    (hsearch : search fields (stringAt cur.mem pair.key.off) pairoff fields.length pairoff = none) :
    pairLoop fields bufAddr st pairoff =
      pairLoop fields bufAddr { st with cur := cur } ((pairoff + 1) % fields.length) := by
  rw [pairLoop]
  split
  · rename_i herror
    rw [hnext] at herror
    cases herror
  · rename_i hok
    rw [hnext] at hok
    cases hok
    rw [hsearch]

/-- What the loop over the pairs makes of a cursor, whatever follows its
memory. -/
structure Looped (bufAddr : Word) (fields : List Field) (cur : Cursor) (r : List Slot) (pairoff : ℕ)
    (after : Cursor) (slots : List Slot) : Prop where
  length_eq : after.mem.length = cur.mem.length
  inside : (∀ slot ∈ r, slot.Inside bufAddr cur.mem.length) →
    ∀ slot ∈ slots, slot.Inside bufAddr cur.mem.length
  run : ∀ tail mbuf,
    pairLoop fields bufAddr ⟨{ cur with mem := cur.mem ++ tail }, mbuf, r⟩ pairoff =
      (.ok, ⟨{ after with mem := after.mem ++ tail }, mbuf, slots⟩)

/-- The induction is on the bytes that are left. -/
theorem pairLoop_local {fields : List Field} (hscalar : ∀ field ∈ fields, field.typ.IsScalar)
    (datalen : ℕ) : ∀ {cur : Cursor} {r : List Slot} {pairoff : ℕ}, cur.datalen = datalen →
      cur.mem.length < 2 ^ 64 → cur.data + cur.datalen ≤ cur.mem.length →
      ∃ after slots, Looped bufAddr fields cur r pairoff after slots := by
  induction datalen using Nat.strongRecOn with
  | _ datalen ih =>
    intro cur r pairoff hdatalen hsize hcur
    obtain ⟨result, mid, hnext⟩ := netstringNextPair_local hsize hcur
    cases result with
    | error code =>
      exact ⟨mid, r, hnext.length_eq, fun h => h, fun tail mbuf => pairLoop_error (hnext.run tail)⟩
    | ok pair =>
      obtain ⟨hkey, hvalue⟩ := hnext.within pair rfl
      have hless : mid.datalen < datalen := by
        have hlt := netstringNextPair_datalen_lt (hnext.run [])
        rwa [← hdatalen]
      have hmid : mid.mem.length < 2 ^ 64 := hnext.length_eq ▸ hsize
      have hlength := hnext.length_eq
      cases hsearch : search fields (stringAt mid.mem pair.key.off) pairoff fields.length pairoff with
      | none =>
        obtain ⟨after, slots, hrest⟩ := @ih _ hless mid r ((pairoff + 1) % fields.length) rfl hmid
          hnext.bounded
        refine ⟨after, slots, hrest.length_eq.trans hlength, hlength ▸ hrest.inside, ?_⟩
        intro tail mbuf
        rw [pairLoop_skip (hnext.run tail) (by rw [stringAt_append_left hkey, hsearch])]
        exact hrest.run tail mbuf
      | some found =>
        obtain ⟨currpair, typ⟩ := found
        obtain ⟨field, hfield, rfl⟩ := exists_of_search hsearch
        obtain ⟨slot, hslot, hload⟩ := loadField_local hmid hvalue (hscalar field hfield)
        obtain ⟨after, slots, hrest⟩ := @ih _ hless mid (r.set currpair slot)
          ((pairoff + 1) % fields.length) rfl hmid hnext.bounded
        refine ⟨after, slots, hrest.length_eq.trans hlength, ?_, ?_⟩
        · intro hr
          rw [← hlength] at hr ⊢
          apply hrest.inside
          intro other hother
          cases List.mem_or_eq_of_mem_set hother with
          | inl hmem => exact hr other hmem
          | inr heq => exact heq ▸ hslot
        · intro tail mbuf
          have hstep := @pairLoop_next fields bufAddr ⟨{ cur with mem := cur.mem ++ tail }, mbuf, r⟩
            pairoff currpair pair { mid with mem := mid.mem ++ tail } field.typ slot (mid.mem ++ tail) mbuf
            (hnext.run tail) (by rw [stringAt_append_left hkey, hsearch]) (hload tail mbuf)
          exact hstep.trans (hrest.run tail mbuf)

def alone (bytes : Bytes) : YclMsg where
  buf := ⟨bytes, bytes.length, le_rfl⟩
  mbuf := Buf.init bufinitsz
  optbuf := Buf.init bufinitsz
  nextoff := 0

theorem yclMsgParse_local (bufAddr mbufAddr : Word) {schema : Schema}
    (hscalar : ∀ field ∈ schema.fields, field.typ.IsScalar) {msg : YclMsg}
    (hsize : msg.buf.len < 2 ^ 64) :
    let parsed := yclMsgParse schema bufAddr mbufAddr msg
    let own := yclMsgParse schema bufAddr mbufAddr (alone msg.buf.contents)
    parsed.status = own.status ∧ parsed.r = own.r ∧
      parsed.mem = own.mem ++ msg.buf.data.drop msg.buf.len ∧
      own.mem.length = msg.buf.len ∧ ∀ slot ∈ own.r, slot.Inside bufAddr msg.buf.len := by
  have hlength : msg.buf.contents.length = msg.buf.len := msg.buf.length_contents
  have hzeros : ∀ slot ∈ schema.fields.map fun field => field.typ.zero,
      slot.Inside bufAddr msg.buf.len := by
    intro slot hslot
    obtain ⟨field, -, rfl⟩ := List.mem_map.mp hslot
    exact inside_zero _ _ _
  by_cases hempty : schema.fields = []
  · unfold yclMsgParse
    rw [if_pos hempty, if_pos hempty]
    exact ⟨rfl, rfl, msg.buf.data_eq, hlength, hzeros⟩
  · obtain ⟨result, mem, hmem, -, hout, hparse⟩ := @netstringParse_local msg.buf.contents
      (hlength ▸ hsize) 0 msg.buf.len (by omega)
    have hfull := hparse (msg.buf.data.drop msg.buf.len)
    have hown := hparse []
    rw [← msg.buf.data_eq] at hfull
    rw [List.append_nil, List.append_nil] at hown
    unfold yclMsgParse alone
    dsimp only
    rw [if_neg hempty, if_neg hempty, hfull, hlength, hown]
    cases result with
    | error code => exact ⟨rfl, rfl, rfl, hmem.trans hlength, hzeros⟩
    | ok out =>
      obtain ⟨hwithin, hend⟩ := hout out rfl
      obtain ⟨after, slots, hloop⟩ := @pairLoop_local bufAddr schema.fields hscalar out.len
        ⟨mem, out.off, out.len⟩ (schema.fields.map fun field => field.typ.zero) 0 rfl
        (by dsimp only; omega) (by dsimp only; omega)
      have hrun := hloop.run (msg.buf.data.drop msg.buf.len) msg.mbuf.clear
      have hrunOwn := hloop.run [] (Buf.init bufinitsz).clear
      simp only [List.append_nil] at hrun hrunOwn
      dsimp only
      rw [hrun, hrunOwn]
      refine ⟨rfl, rfl, rfl, hloop.length_eq.trans (hmem.trans hlength), ?_⟩
      have hslots := hloop.inside
      rw [hmem, hlength] at hslots
      intro slot hslot
      obtain ⟨before, hbefore, rfl⟩ := List.mem_map.mp hslot
      exact (hslots hzeros before hbefore).relocate

/-! A message at the front of a buffer -/

theorem netstringParse_front {x rest : Bytes} {buf : Buf}
    (hcontents : buf.contents = encode x ++ rest) (hsize : buf.len < 2 ^ 64) :
    netstringParse buf.data 0 buf.len = (.ok ⟨(lengthPrefix x).length, x.length⟩,
      consumed x ++ (rest ++ buf.data.drop buf.len)) := by
  have hlen : buf.len = (encode x ++ rest).length := by
    rw [← hcontents, Buf.length_contents]
  have hparse := @netstringParse_encode [] x rest (buf.data.drop buf.len) (hlen ▸ hsize)
  simp only [List.length_nil, Nat.zero_add, List.nil_append, ← hlen] at hparse
  rwa [← hcontents, ← Buf.data_eq] at hparse

theorem exists_yclMsgParse_front (mbufAddr : Word) {schema : Schema} (hfields : schema.fields ≠ [])
    (hscalar : ∀ field ∈ schema.fields, field.typ.IsScalar) {x : Bytes}
    (hx : (encode x).length < 2 ^ 64) :
    ∃ mem r, mem.length = (encode x).length ∧ (∀ slot ∈ r, slot.Inside bufAddr mem.length) ∧
      ∀ {msg : YclMsg} {rest : Bytes}, msg.buf.contents = encode x ++ rest →
        msg.buf.len < 2 ^ 64 → yclMsgParse schema bufAddr mbufAddr msg =
          ⟨.ok, mem ++ (rest ++ msg.buf.data.drop msg.buf.len), msg.mbuf.clear, r⟩ := by
  have hbound : (lengthPrefix x).length + x.length ≤ (consumed x).length := by
    simp only [consumed, List.length_append, List.length_singleton]
    omega
  obtain ⟨after, slots, hloop⟩ := @pairLoop_local bufAddr schema.fields hscalar x.length
    ⟨consumed x, (lengthPrefix x).length, x.length⟩
    (schema.fields.map fun field => field.typ.zero) 0 rfl
    (by dsimp only; rw [length_consumed]; omega) hbound
  have hlength : after.mem.length = (consumed x).length := hloop.length_eq
  refine ⟨after.mem, slots.map (relocate mbufAddr), hlength.trans (length_consumed x), ?_, ?_⟩
  · intro slot hslot
    obtain ⟨before, hbefore, rfl⟩ := List.mem_map.mp hslot
    rw [hlength]
    refine (hloop.inside ?_ before hbefore).relocate
    intro zero hzero
    obtain ⟨field, -, rfl⟩ := List.mem_map.mp hzero
    exact inside_zero _ _ _
  · intro msg rest hcontents hsize
    have hrun := hloop.run (rest ++ msg.buf.data.drop msg.buf.len) msg.mbuf.clear
    unfold yclMsgParse
    rw [if_neg hfields, netstringParse_front hcontents hsize]
    dsimp only
    rw [hrun]

/-- The bytes of a member of type `struct ycl_data`; `none` is NULL. -/
def Slot.string (bufAddr : Word) (mem : Bytes) : Slot → Option Bytes
  | .data string =>
    if string.data = 0 then none
    else some (slice mem (string.data - bufAddr).toNat string.len.toNat)
  | _ => none

def Slot.word : Slot → Word
  | .long l => l
  | _ => 0

theorem Slot.string_append_left (h : slot.Inside bufAddr mem.length)
    (tail : Bytes) : slot.string bufAddr (mem ++ tail) = slot.string bufAddr mem := by
  cases slot with
  | data string =>
    unfold Slot.string
    dsimp only
    split
    · rfl
    · rename_i hne
      rw [slice_append_left (h.resolve_left hne)]
  | long l => rfl
  | arr ptr nelems => rfl

end Yans.Ycl
