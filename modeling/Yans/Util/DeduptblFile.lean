import Yans.Util.Deduptbl

/-! The file of a table. The mapping that `deduptbl_create` makes of a descriptor
is shared, so the file holds the bytes of the table at any time, and
`deduptbl_load` maps them again. Words are little-endian. -/
namespace Yans.Util.Deduptbl

open Library.Memory Library.RobinHood Library.Refinement TableSize

/-- `DEDUPTBL_MAGIC` -/
def magic : ℕ := 0x75646564

/-- The size of a `struct deduptbl_table` without its entries. -/
def headerSize : ℕ := 16

/-- The size of a `struct deduptbl_entry`. -/
def entrySize : ℕ := 24

def entryBytes (entry : DeduptblEntry) : Bytes :=
  littleEndian 4 entry.distance ++ entry.id.u8.toList

def headerWords (table : DeduptblTable) : List ℕ :=
  [magic, table.nmax.toNat, table.nused.toNat, table.capLog2.toNat]

def tableBytes (table : DeduptblTable) : Bytes :=
  (headerWords table).flatMap (littleEndian 4) ++ table.entries.flatMap entryBytes

/-- The results of `deduptbl_load` other than success; mapping succeeds. -/
inductive LoadCode where
  | eheader
  | emagic
  | esize
deriving DecidableEq

/-- `(1 << cap_log2) * sizeof(struct deduptbl_entry) + sizeof(struct
deduptbl_table)`. The shift is one of an `int`, which is then converted to
`size_t`; a shift into the sign bit gives a negative number. -/
def loadSize (capLog2 : UInt32) : ℕ :=
  ((1 <<< capLog2 : UInt32).toBitVec.signExtend 64 * BitVec.ofNat 64 entrySize +
    BitVec.ofNat 64 headerSize).toNat

def entryOfBytes (file : Bytes) (off : ℕ) : DeduptblEntry :=
  ⟨readWord 4 file off, ⟨Vector.ofFn fun i => byteAt file (off + 4 + i)⟩⟩

def deduptblLoad (file : Bytes) : Except LoadCode DeduptblTable :=
  if file.length < headerSize then .error .eheader
  else if readWord 4 file 0 ≠ magic then .error .emagic
  else if loadSize (UInt32.ofNat (readWord 4 file 12)) ≠ file.length then .error .esize
  else
    .ok
      { nmax := UInt32.ofNat (readWord 4 file 4)
        nused := UInt32.ofNat (readWord 4 file 8)
        capLog2 := UInt32.ofNat (readWord 4 file 12)
        entries := (List.range ((file.length - headerSize) / entrySize)).map fun i =>
          entryOfBytes file (headerSize + entrySize * i) }

theorem length_entryBytes (entry : DeduptblEntry) : (entryBytes entry).length = entrySize := by
  rw [entryBytes, List.length_append, length_littleEndian, Vector.length_toList]
  rfl

theorem length_entries_bytes (entries : List DeduptblEntry) :
    (entries.flatMap entryBytes).length = entrySize * entries.length := by
  induction entries with
  | nil => rfl
  | cons entry entries ih =>
    rw [List.flatMap_cons, List.length_append, length_entryBytes, ih, List.length_cons,
      Nat.mul_succ, Nat.add_comm]

theorem length_tableBytes (table : DeduptblTable) :
    (tableBytes table).length = headerSize + entrySize * table.entries.length := by
  rw [tableBytes, List.length_append, length_entries_bytes]
  rfl

theorem headerWords_lt (table : DeduptblTable) : ∀ n ∈ headerWords table, n < 256 ^ 4 := by
  intro n hn
  have hnmax := table.nmax.toNat_lt
  have hnused := table.nused.toNat_lt
  have hcapLog2 := table.capLog2.toNat_lt
  simp only [headerWords, List.mem_cons, List.not_mem_nil, or_false] at hn
  obtain rfl | rfl | rfl | rfl := hn
  · decide
  · exact hnmax
  · exact hnused
  · exact hcapLog2

theorem readWord_header (table : DeduptblTable) {k n : ℕ} (hk : (headerWords table)[k]? = some n) :
    readWord 4 (tableBytes table) (4 * k) = n := by
  have hlength : ((headerWords table).flatMap (littleEndian 4)).length = 16 := rfl
  have hbound : k < 4 := (List.getElem?_eq_some_iff.mp hk).1
  rw [tableBytes, readWord_append_left (by omega), readWord_flatMap (headerWords_lt table) k hk]

theorem entryOfBytes_append {before after : Bytes} {entry : DeduptblEntry}
    (hdistance : entry.distance < 2 ^ 32) :
    entryOfBytes (before ++ entryBytes entry ++ after) before.length = entry := by
  have hword : readWord 4 (before ++ entryBytes entry ++ after) before.length =
      entry.distance := by
    apply readWord_of_slice hdistance
    have hmem : before ++ entryBytes entry ++ after =
        before ++ littleEndian 4 entry.distance ++ (entry.id.u8.toList ++ after) := by
      simp [entryBytes, List.append_assoc]
    rw [hmem]
    exact slice_eq_of_append rfl (length_littleEndian _ _).symm
  have hid : Vector.ofFn (fun i : Fin 20 =>
      byteAt (before ++ entryBytes entry ++ after) (before.length + 4 + i)) = entry.id.u8 := by
    apply Vector.ext
    intro i hi
    have hmem : before ++ entryBytes entry ++ after =
        before ++ littleEndian 4 entry.distance ++ (entry.id.u8.toList ++ after) := by
      simp [entryBytes, List.append_assoc]
    have hlength : (before ++ littleEndian 4 entry.distance).length = before.length + 4 := by
      rw [List.length_append, length_littleEndian]
    rw [Vector.getElem_ofFn]
    rw [hmem, ← hlength, byteAt_append_right, byteAt_append_left (by simpa using hi)]
    simp [byteAt, hi]
  rw [entryOfBytes, hword, hid]

variable {table : DeduptblTable}

theorem entryOfBytes_tableBytes
    (hdistance : ∀ entry ∈ table.entries, entry.distance < 2 ^ 32) {i : ℕ}
    (hi : i < table.entries.length) :
    entryOfBytes (tableBytes table) (headerSize + entrySize * i) = table.entries[i] := by
  have hsplit : table.entries =
      table.entries.take i ++ table.entries[i] :: table.entries.drop (i + 1) := by
    rw [List.getElem_cons_drop, List.take_append_drop]
  have hbytes : tableBytes table = (headerWords table).flatMap (littleEndian 4) ++
      (table.entries.take i).flatMap entryBytes ++ entryBytes table.entries[i] ++
      (table.entries.drop (i + 1)).flatMap entryBytes := by
    rw [tableBytes]
    conv => lhs; rw [hsplit]
    rw [List.flatMap_append, List.flatMap_cons]
    simp only [List.append_assoc]
  have hoff : headerSize + entrySize * i = ((headerWords table).flatMap (littleEndian 4) ++
      (table.entries.take i).flatMap entryBytes).length := by
    rw [List.length_append, length_entries_bytes, List.length_take, Nat.min_eq_left hi.le]
    rfl
  rw [hbytes, hoff]
  exact entryOfBytes_append (hdistance _ (List.getElem_mem hi))

theorem deduptblLoad_tableBytes (hdistance : ∀ entry ∈ table.entries, entry.distance < 2 ^ 32) :
    deduptblLoad (tableBytes table) =
      if loadSize table.capLog2 = headerSize + entrySize * table.entries.length then .ok table
      else .error .esize := by
  have hlength := length_tableBytes table
  have hmagic : readWord 4 (tableBytes table) 0 = magic := @readWord_header table 0 _ rfl
  have hnmax : readWord 4 (tableBytes table) 4 = table.nmax.toNat := @readWord_header table 1 _ rfl
  have hnused : readWord 4 (tableBytes table) 8 = table.nused.toNat :=
    @readWord_header table 2 _ rfl
  have hcapLog2 : readWord 4 (tableBytes table) 12 = table.capLog2.toNat :=
    @readWord_header table 3 _ rfl
  have hentries : ((List.range ((headerSize + entrySize * table.entries.length - headerSize) /
      entrySize)).map fun i => entryOfBytes (tableBytes table) (headerSize + entrySize * i)) =
      table.entries := by
    rw [Nat.add_sub_cancel_left, Nat.mul_div_cancel_left _ (by decide)]
    apply List.ext_getElem (by simp)
    intro i hi _
    rw [List.getElem_map, List.getElem_range]
    exact entryOfBytes_tableBytes hdistance (by simpa using hi)
  unfold deduptblLoad
  rw [hmagic, hnmax, hnused, hcapLog2, hlength, hentries, UInt32.ofNat_toNat, UInt32.ofNat_toNat,
    UInt32.ofNat_toNat, if_neg (by omega), if_neg (fun h => h rfl), ite_not]

/-! The two computations of the size -/

theorem loadSize_eq : ∀ k < 31,
    loadSize (UInt32.ofNat k) = headerSize + entrySize * 2 ^ k := by
  decide

theorem loadSize_ne : loadSize (UInt32.ofNat 31) ≠ headerSize + entrySize * 2 ^ 31 := by
  decide

theorem loadSize_iff {k : ℕ} (hk : k ≤ 31) :
    loadSize (UInt32.ofNat k) = headerSize + entrySize * 2 ^ k ↔ k ≤ 30 := by
  constructor
  · intro h
    by_contra hbig
    obtain rfl : k = 31 := by omega
    exact loadSize_ne h
  · intro h
    exact loadSize_eq k (by omega)

/-- What every update keeps, also one with the identifier that marks an empty
entry, and one of a full table. -/
structure Mapped (k : ℕ) (table : DeduptblTable) : Prop where
  le : k ≤ 31
  capLog2_eq : table.capLog2 = UInt32.ofNat k
  within : Within entryLayout (2 ^ k) table.entries

namespace Mapped

variable {k : ℕ}

section

variable (h : Mapped k table)

include h

theorem cap_eq : table.cap = 2 ^ k := by
  have hle := h.le
  rw [DeduptblTable.cap, h.capLog2_eq, toNat_one_shiftLeft (by omega)]

theorem sized :
    Sized (1 <<< table.capLog2) (tableMask table) (rehashLimit (1 <<< table.capLog2)) :=
  ⟨⟨k, h.le, h.cap_eq⟩, rfl, rfl⟩

theorem distance_lt : ∀ entry ∈ table.entries, entry.distance < 2 ^ 32 := by
  intro entry hentry
  have hlt : entry.distance < 2 ^ k := h.within.distance_lt entry hentry
  have hpow : 2 ^ k ≤ 2 ^ 31 := Nat.pow_le_pow_right (by decide) h.le
  omega

theorem deduptblUpdate (id : DeduptblId) :
    ∃ code after, Deduptbl.deduptblUpdate table id = some (code, after) ∧ Mapped k after := by
  unfold Deduptbl.deduptblUpdate
  split
  · exact ⟨_, _, rfl, h⟩
  · have hadvances : Advances (nextIndex table) (2 ^ k) := h.cap_eq ▸ h.sized.advances
    have hstart : startPos table id < 2 ^ k := h.cap_eq ▸ h.sized.index_lt id.word
    have hnew : entryLayout.distance ⟨0, id⟩ ≤ 0 := Nat.le_refl 0
    obtain ⟨result, hplace, hwithin⟩ := place_returns hadvances (fun curr => curr.id == id) hstart
      (2 ^ k) (Nat.add_zero _) (Nat.two_pow_pos k) h.within hnew
    rw [Nat.add_zero, Nat.mod_eq_of_lt hstart] at hplace
    dsimp only
    rw [h.cap_eq, hplace]
    cases result with
    | filled entries => exact ⟨_, _, rfl, h.le, h.capLog2_eq, hwithin⟩
    | hit entries position carried => exact ⟨_, _, rfl, h.le, h.capLog2_eq, hwithin⟩
    | noSlot entries => exact ⟨_, _, rfl, h.le, h.capLog2_eq, hwithin⟩

theorem run_updates (ids : List DeduptblId) :
    ∃ replies after, runCalls call table (ids.map Call.update) = some (replies, after) ∧
      Mapped k after := by
  induction ids generalizing table with
  | nil => exact ⟨[], table, rfl, h⟩
  | cons id ids ih =>
    obtain ⟨code, mid, hupdate, hmid⟩ := h.deduptblUpdate id
    obtain ⟨replies, after, hrun, hafter⟩ := ih hmid
    refine ⟨.code code :: replies, after, ?_, hafter⟩
    simp [runCalls, call, hupdate, hrun]

end

end Mapped

theorem deduptblCreate_mapped {max : UInt32}
    (hcreate : deduptblCreate max = .ok table) : Mapped (slotsLog2 max) table := by
  obtain ⟨hmax, rfl⟩ := deduptblCreate_eq hcreate
  refine ⟨?_, rfl, List.length_replicate, ?_⟩
  · rw [slotsLog2_le_iff]
    exact Nat.max_le.mpr ⟨by omega, by decide⟩
  · intro entry hentry
    rw [(List.mem_replicate.mp hentry).2]
    exact Nat.two_pow_pos _

theorem deduptblLoad_updated {max : UInt32}
    (hmapped : Mapped (slotsLog2 max) table) :
    deduptblLoad (tableBytes table) =
      if max.toNat + max.toNat / 6 ≤ 2 ^ 30 then .ok table else .error .esize := by
  have hlength := hmapped.within.length_eq
  have hiff : loadSize table.capLog2 = headerSize + entrySize * table.entries.length ↔
      max.toNat + max.toNat / 6 ≤ 2 ^ 30 := by
    rw [hmapped.capLog2_eq, hlength, loadSize_iff hmapped.le, slotsLog2_le_iff]
    exact Nat.max_le.trans (and_iff_left (by decide))
  rw [deduptblLoad_tableBytes hmapped.distance_lt]
  exact if_congr hiff rfl rfl

/-- A table can be loaded from its file after any updates, and is then the same
table for all later calls, exactly if it has at most `2 ^ 30` slots. -/
theorem deduptbl_persists_iff (max : UInt32) (hmax : max ≤ maxEntries) :
    ∃ table, deduptblCreate max = .ok table ∧ ∀ ids : List DeduptblId,
      ∃ replies after, runCalls call table (ids.map Call.update) = some (replies, after) ∧
        ((∃ loaded, deduptblLoad (tableBytes after) = .ok loaded ∧
            ∀ calls, (runCalls call loaded calls).map Prod.fst =
              (runCalls call after calls).map Prod.fst) ↔
          max.toNat + max.toNat / 6 ≤ 2 ^ 30) := by
  obtain ⟨table, hcreate⟩ : ∃ table, deduptblCreate max = .ok table := by
    unfold deduptblCreate
    rw [if_neg (by simpa using hmax)]
    exact ⟨_, rfl⟩
  refine ⟨table, hcreate, fun ids => ?_⟩
  obtain ⟨replies, after, hrun, hafter⟩ := (deduptblCreate_mapped hcreate).run_updates ids
  refine ⟨replies, after, hrun, ?_⟩
  rw [deduptblLoad_updated hafter]
  constructor
  · rintro ⟨loaded, hload, -⟩
    by_contra hbig
    rw [if_neg hbig] at hload
    cases hload
  · intro hfits
    rw [if_pos hfits]
    exact ⟨after, rfl, fun _ => rfl⟩

theorem deduptbl_persists_small :
    ∃ table, deduptblCreate 3 = .ok table ∧ ∃ replies after,
      runCalls call table [.update ⟨Vector.replicate 20 1⟩] = some (replies, after) ∧
        ∃ loaded, deduptblLoad (tableBytes after) = .ok loaded := by
  obtain ⟨table, hcreate, hall⟩ := deduptbl_persists_iff 3 (by decide)
  obtain ⟨replies, after, hrun, hiff⟩ := hall [⟨Vector.replicate 20 1⟩]
  obtain ⟨loaded, hload, -⟩ := hiff.mpr (by decide)
  exact ⟨table, hcreate, replies, after, hrun, loaded, hload⟩

/-- The largest table that can be created is not loaded again. -/
theorem largest_table_is_refused :
    ∃ table, deduptblCreate 0x3fffffff = .ok table ∧
      deduptblLoad (tableBytes table) = .error .esize := by
  obtain ⟨table, hcreate⟩ : ∃ table, deduptblCreate 0x3fffffff = .ok table := by
    unfold deduptblCreate
    rw [if_neg (by decide)]
    exact ⟨_, rfl⟩
  refine ⟨table, hcreate, ?_⟩
  rw [deduptblLoad_updated (deduptblCreate_mapped hcreate)]
  exact if_neg (by decide)

end Yans.Util.Deduptbl
