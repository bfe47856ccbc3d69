import Mathlib.Logic.Function.Basic
import Yans.Library.CircularSearch
import Yans.Util.Netstring

/-! `netstring_serialize` and `netstring_deserialize` of `lib/util/netstring.c`:
a map from names to members of a struct, and the structs it writes and fills
in. Members do not overlap, so the pointers and the lengths of a struct are kept
apart, each by its offset. -/
namespace Yans.Util.Netstring

open Library.Memory Library.CircularSearch

structure MapEntry where
  key : Bytes
  voff : ℕ
  loff : ℕ
  key_ne_zero : ∀ byte ∈ key, byte ≠ 0

/-- `none` is a NULL pointer. -/
structure Struct (Ptr : Type) where
  value : ℕ → Option Ptr
  length : ℕ → ℕ

/-- The entries in front of the one without a key. -/
structure NetstringMap where
  entries : List MapEntry
  ne_nil : entries ≠ []
  keys_nodup : (entries.map MapEntry.key).Nodup
  offsets_nodup : (entries.map MapEntry.voff ++ entries.map MapEntry.loff).Nodup

/-! Writing; a pointer is the memory it points to -/

/-- One iteration of the loop of `netstring_serialize`. -/
def appendEntry (data : Struct Bytes) (tmp : Buf) (entry : MapEntry) : Buf :=
  match data.value entry.voff with
  | none => tmp
  | some value =>
    if byteAt value 0 ≠ 0 then
      netstringAppendPair tmp entry.key (value.take (data.length entry.loff))
    else tmp

def netstringSerialize (data : Struct Bytes) (entries : List MapEntry) (out : Buf) : Buf :=
  netstringAppendBuf out (entries.foldl (appendEntry data) (Buf.init 1024)).contents

/-! Reading; a pointer is an offset into the memory -/

/-- Where `mnext` goes: behind the last entry comes the first. -/
def nextEntry (entries : List MapEntry) (mnext : ℕ) : ℕ :=
  if mnext + 1 = entries.length then 0 else mnext + 1

/-- The inner loop from `mnext` on. -/
def findEntry (entries : List MapEntry) (key : Bytes) (mcurr : ℕ) : ℕ → ℕ → Option (ℕ × MapEntry)
  | 0, _ => none
  | n + 1, mnext =>
    match entries[mnext]? with
    | none => none
    | some entry =>
      if entry.key = key then some (mnext, entry)
      else
        let mnext := nextEntry entries mnext
        if mnext ≠ mcurr then findEntry entries key mcurr n mnext else none

def storeValue (data : Struct ℕ) (mem : Bytes) (entry : MapEntry) (pair : NetstringPair) :
    Struct ℕ :=
  if byteAt mem pair.value.off ≠ 0 then
    { value := Function.update data.value entry.voff (some pair.value.off)
      length := Function.update data.length entry.loff pair.value.len }
  else data

/-- The loop over the pairs; a key that is not in the map is skipped. -/
def deserializeLoop (entries : List MapEntry) (cur : Cursor) (data : Struct ℕ) (mcurr : ℕ) :
    Bytes × Struct ℕ :=
  match _hnext : netstringNextPair cur with
  | (.error _, cur) => (cur.mem, data)
  | (.ok pair, cur) =>
    match findEntry entries (stringAt cur.mem pair.key.off) mcurr entries.length mcurr with
    | none => deserializeLoop entries cur data mcurr
    | some (mnext, entry) =>
      deserializeLoop entries cur (storeValue data cur.mem entry pair) mnext
termination_by cur.datalen
decreasing_by
  · exact netstringNextPair_datalen_lt _hnext
  · exact netstringNextPair_datalen_lt _hnext

/-- The result, the memory and the struct behind the call, and what is stored
through `left`, if anything. -/
structure Deserialized where
  result : Except NetstringErr Unit
  mem : Bytes
  data : Struct ℕ
  left : Option ℕ

def netstringDeserialize (entries : List MapEntry) (mem : Bytes) (src inlen : ℕ)
    (data : Struct ℕ) : Deserialized :=
  if entries = [] then ⟨.ok (), mem, data, none⟩
  else match netstringParse mem src inlen with
    | (.error code, mem) => ⟨.error code, mem, data, none⟩
    | (.ok curr, mem) =>
      let (mem, data) := deserializeLoop entries ⟨mem, curr.off, curr.len⟩ data 0
      ⟨.ok (), mem, data, some (inlen - (curr.off + curr.len + 1 - src))⟩

def Struct.zeroed : Struct ℕ := ⟨fun _ => none, fun _ => 0⟩

/-! What a struct says of a member -/

def Struct.Present (data : Struct Bytes) (entry : MapEntry) : Prop :=
  ∃ value, data.value entry.voff = some value ∧ byteAt value 0 ≠ 0

def Struct.bytes (data : Struct Bytes) (entry : MapEntry) : Bytes :=
  ((data.value entry.voff).getD []).take (data.length entry.loff)

def Struct.Readable (data : Struct Bytes) (entries : List MapEntry) : Prop :=
  ∀ entry ∈ entries, ∀ value, data.value entry.voff = some value →
    data.length entry.loff ≤ value.length

/-- The bytes of a member that was filled in; NULL has none. -/
def Struct.bytesIn (mem : Bytes) (data : Struct ℕ) (entry : MapEntry) : Bytes :=
  match data.value entry.voff with
  | none => []
  | some off => slice mem off (data.length entry.loff)

variable {entries : List MapEntry}

theorem nextEntry_eq {mnext : ℕ} (h : mnext < entries.length) :
    nextEntry entries mnext = (mnext + 1) % entries.length := by
  unfold nextEntry
  split
  · rename_i hlast
    rw [hlast, Nat.mod_self]
  · rw [Nat.mod_eq_of_lt (by omega)]

theorem findEntry_eq_around (entries : List MapEntry) (key : Bytes) (mcurr : ℕ) :
    ∀ {n mnext : ℕ}, mnext < entries.length →
      findEntry entries key mcurr n mnext =
        (around (fun i => entries[i]?.any fun entry => entry.key = key) entries.length mcurr n
          mnext).bind fun i => entries[i]?.map fun entry => (i, entry) := by
  intro n
  induction n with
  | zero => exact fun _ => rfl
  | succ n ih =>
    intro mnext hmnext
    have hnext := Nat.mod_lt (mnext + 1) (Nat.zero_lt_of_lt hmnext)
    rw [findEntry, around, nextEntry_eq hmnext, List.getElem?_eq_getElem hmnext]
    by_cases hkey : entries[mnext].key = key
    · simp [hkey, List.getElem?_eq_getElem hmnext]
    · simp only [hkey, if_false, Option.any_some, decide_false, Bool.false_eq_true]
      split
      · exact ih hnext
      · rfl

variable {entry : MapEntry}

theorem findEntry_eq (hkeys : (entries.map MapEntry.key).Nodup) {i : ℕ}
    (hentry : entries[i]? = some entry) {mcurr : ℕ}
    (hmcurr : mcurr < entries.length) :
    findEntry entries entry.key mcurr entries.length mcurr = some (i, entry) := by
  have hi : i < entries.length := (List.getElem?_eq_some_iff.mp hentry).1
  rw [findEntry_eq_around entries entry.key mcurr hmcurr,
    around_of_unique hi (by simp [hentry]) ?_ hmcurr]
  · simp [hentry]
  · intro j hj hkey
    have hsame : entries[j].key = entry.key := by
      simpa [List.getElem?_eq_getElem hj] using hkey
    apply (List.getElem?_inj (by simpa using hj) hkeys).mp
    rw [List.getElem?_map, List.getElem?_map, List.getElem?_eq_getElem hj, hentry]
    exact congrArg some hsame

def Struct.entryText (data : Struct Bytes) (entry : MapEntry) : Bytes :=
  match data.value entry.voff with
  | none => []
  | some value =>
    if byteAt value 0 ≠ 0 then encode entry.key ++ encode (value.take (data.length entry.loff))
    else []

def Struct.text (data : Struct Bytes) (entries : List MapEntry) : Bytes :=
  entries.flatMap data.entryText

theorem contents_appendEntry (data : Struct Bytes) (tmp : Buf) (entry : MapEntry) :
    (appendEntry data tmp entry).contents = tmp.contents ++ data.entryText entry := by
  unfold appendEntry Struct.entryText
  split
  · rw [List.append_nil]
  · split
    · rw [netstringAppendPair, contents_netstringAppendBuf, contents_netstringAppendBuf,
        List.append_assoc]
    · rw [List.append_nil]

theorem contents_foldl_appendEntry (data : Struct Bytes) (entries : List MapEntry) :
    ∀ tmp : Buf, (entries.foldl (appendEntry data) tmp).contents =
      tmp.contents ++ data.text entries := by
  induction entries with
  | nil => exact fun tmp => (List.append_nil _).symm
  | cons entry entries ih =>
    intro tmp
    rw [List.foldl_cons, ih, contents_appendEntry, List.append_assoc]
    rfl

theorem contents_netstringSerialize (data : Struct Bytes) (entries : List MapEntry) (out : Buf) :
    (netstringSerialize data entries out).contents =
      out.contents ++ encode (data.text entries) := by
  rw [netstringSerialize, contents_netstringAppendBuf, contents_foldl_appendEntry,
    Buf.contents_init, List.nil_append]

variable {data : Struct Bytes}

theorem entryText_of_present (h : data.Present entry) :
    data.entryText entry = encode entry.key ++ encode (data.bytes entry) := by
  obtain ⟨value, hvalue, hfirst⟩ := h
  unfold Struct.entryText Struct.bytes
  rw [hvalue]
  exact if_pos hfirst

theorem entryText_of_absent (h : ¬ data.Present entry) :
    data.entryText entry = [] := by
  unfold Struct.entryText
  split
  · rfl
  · rename_i value hvalue
    exact if_neg fun hfirst => h ⟨value, hvalue, hfirst⟩

theorem byteAt_bytes (h : data.Present entry)
    (hbytes : data.bytes entry ≠ []) : byteAt (data.bytes entry) 0 ≠ 0 := by
  obtain ⟨value, hvalue, hfirst⟩ := h
  unfold Struct.bytes at hbytes ⊢
  rw [hvalue, Option.getD_some] at hbytes ⊢
  have hpos : 0 < data.length entry.loff := by
    apply Nat.pos_of_ne_zero
    intro hzero
    rw [hzero, List.take_zero] at hbytes
    exact hbytes rfl
  rwa [byteAt_take, if_pos hpos]

theorem length_bytes
    (hreadable : data.Readable entries) (hmem : entry ∈ entries) (h : data.Present entry) :
    (data.bytes entry).length = data.length entry.loff := by
  obtain ⟨value, hvalue, -⟩ := h
  have hle := hreadable entry hmem value hvalue
  unfold Struct.bytes
  rw [hvalue, Option.getD_some, List.length_take, Nat.min_eq_left hle]

theorem deserializeLoop_end {cur : Cursor} {data : Struct ℕ} {mcurr : ℕ}
    (h : cur.datalen = 0) : deserializeLoop entries cur data mcurr = (cur.mem, data) := by
  have hnext : netstringNextPair cur = (.error .errincomplete, cur) := by
    unfold netstringNextPair
    rw [if_pos h]
  rw [deserializeLoop]
  split
  · rename_i herror
    rw [hnext] at herror
    cases herror
    rfl
  · rename_i hok
    rw [hnext] at hok
    cases hok

theorem deserializeLoop_next {cur after : Cursor} {data : Struct ℕ}
    {mcurr mnext : ℕ} {pair : NetstringPair} {entry : MapEntry}
    (hnext : netstringNextPair cur = (.ok pair, after))
    (hfind : findEntry entries (stringAt after.mem pair.key.off) mcurr entries.length mcurr =
      some (mnext, entry)) :
    deserializeLoop entries cur data mcurr =
      deserializeLoop entries after (storeValue data after.mem entry pair) mnext := by
  rw [deserializeLoop]
  split
  · rename_i herror
    rw [hnext] at herror
    cases herror
  · rename_i hok
    rw [hnext] at hok
    cases hok
    rw [hfind]

/-- A member after its pair with value `v` was read; the empty string is none. -/
def Struct.fill (data : Struct ℕ) (entry : MapEntry) (off : ℕ) (v : Bytes) : Struct ℕ :=
  if v = [] then data
  else
    { value := Function.update data.value entry.voff (some off)
      length := Function.update data.length entry.loff v.length }

theorem storeValue_eq {data : Struct ℕ} {before v after : Bytes} {key : Slice}
    (hfirst : v ≠ [] → byteAt v 0 ≠ 0) :
    storeValue data (before ++ consumed v ++ after) entry
        ⟨key, ⟨before.length + (lengthPrefix v).length, v.length⟩⟩ =
      data.fill entry (before.length + (lengthPrefix v).length) v := by
  have hbyte : byteAt (before ++ consumed v ++ after)
      (before.length + (lengthPrefix v).length) = byteAt (v ++ [0] ++ after) 0 := by
    have hmem : before ++ consumed v ++ after =
        before ++ lengthPrefix v ++ (v ++ [0] ++ after) := by
      simp [consumed, List.append_assoc]
    rw [hmem, ← List.length_append]
    exact byteAt_append_right (i := 0)
  unfold storeValue Struct.fill
  rw [hbyte]
  cases v with
  | nil => exact if_neg fun h => h rfl
  | cons first rest =>
    have hne : byteAt (first :: rest ++ [0] ++ after) 0 ≠ 0 := hfirst (List.cons_ne_nil _ _)
    rw [if_pos hne, if_neg (List.cons_ne_nil _ _)]

/-- A member is filled in with its bytes, or left as it was zeroed. -/
structure Reproduced (data : Struct Bytes) (mem : Bytes) (filled : Struct ℕ) (entry : MapEntry) :
    Prop where
  present : data.Present entry → filled.length entry.loff = data.length entry.loff ∧
    filled.bytesIn mem entry = data.bytes entry
  absent : ¬ data.Present entry → filled.value entry.voff = none ∧ filled.length entry.loff = 0

/-- Only the members of `entries` differ. -/
structure Frame (entries : List MapEntry) (filled after : Struct ℕ) : Prop where
  value : ∀ off ∉ entries.map MapEntry.voff, after.value off = filled.value off
  length : ∀ off ∉ entries.map MapEntry.loff, after.length off = filled.length off

theorem Frame.refl (entries : List MapEntry) (filled : Struct ℕ) : Frame entries filled filled :=
  ⟨fun _ _ => rfl, fun _ _ => rfl⟩

theorem Frame.cons {entry : MapEntry} {filled mid after : Struct ℕ}
    (hfirst : Frame [entry] filled mid) (hrest : Frame entries mid after) :
    Frame (entry :: entries) filled after := by
  constructor
  · intro off hoff
    rw [List.map_cons, List.mem_cons, not_or] at hoff
    rw [hrest.value off hoff.2, hfirst.value off (by simpa using hoff.1)]
  · intro off hoff
    rw [List.map_cons, List.mem_cons, not_or] at hoff
    rw [hrest.length off hoff.2, hfirst.length off (by simpa using hoff.1)]

theorem frame_fill (filled : Struct ℕ) (entry : MapEntry) (off : ℕ) (v : Bytes) :
    Frame [entry] filled (filled.fill entry off v) := by
  unfold Struct.fill
  split
  · exact Frame.refl _ _
  · constructor
    · intro other hother
      exact Function.update_of_ne (by simpa using hother) _ _
    · intro other hother
      exact Function.update_of_ne (by simpa using hother) _ _

def Clear (entries : List MapEntry) (filled : Struct ℕ) : Prop :=
  ∀ entry ∈ entries, filled.value entry.voff = none ∧ filled.length entry.loff = 0

theorem Clear.of_frame {filled after : Struct ℕ}
    (hclear : Clear (entry :: entries) filled) (hframe : Frame [entry] filled after)
    (hvoff : entry.voff ∉ entries.map MapEntry.voff)
    (hloff : entry.loff ∉ entries.map MapEntry.loff) : Clear entries after := by
  intro other hother
  obtain ⟨hvalue, hlength⟩ := hclear other (List.mem_cons_of_mem _ hother)
  have hv : other.voff ∉ [entry].map MapEntry.voff := by
    rw [List.map_singleton, List.mem_singleton]
    intro hsame
    exact hvoff (hsame ▸ List.mem_map_of_mem hother)
  have hl : other.loff ∉ [entry].map MapEntry.loff := by
    rw [List.map_singleton, List.mem_singleton]
    intro hsame
    exact hloff (hsame ▸ List.mem_map_of_mem hother)
  rw [hframe.value _ hv, hframe.length _ hl]
  exact ⟨hvalue, hlength⟩

theorem deserializeLoop_present
    (hkeys : (entries.map MapEntry.key).Nodup) {data : Struct Bytes} {i : ℕ} {entry : MapEntry}
    (hentry : entries[i]? = some entry) (hpresent : data.Present entry) {before more tail : Bytes}
    {filled : Struct ℕ} {mcurr : ℕ} (hmcurr : mcurr < entries.length)
    (hsize : before.length + (data.entryText entry ++ more).length < 2 ^ 64)
    (hclear : Clear [entry] filled) :
    ∃ parsed filled', deserializeLoop entries
        ⟨before ++ (data.entryText entry ++ more) ++ tail, before.length,
          (data.entryText entry ++ more).length⟩ filled mcurr =
        deserializeLoop entries ⟨before ++ parsed ++ more ++ tail, (before ++ parsed).length,
          more.length⟩ filled' i ∧
      parsed.length = (data.entryText entry).length ∧ Frame [entry] filled filled' ∧
      filled'.length entry.loff = (data.bytes entry).length ∧
      (∀ after, filled'.bytesIn (before ++ parsed ++ after) entry = data.bytes entry) := by
  obtain ⟨hvalue, hlength⟩ := hclear entry List.mem_cons_self
  generalize hv : data.bytes entry = v
  have htext : data.entryText entry = encode entry.key ++ encode v := by
    rw [entryText_of_present hpresent, hv]
  have hfirst : v ≠ [] → byteAt v 0 ≠ 0 := by
    rw [← hv]
    exact byteAt_bytes hpresent
  rw [htext] at hsize ⊢
  have hnext := @netstringNextPair_encode before entry.key v more tail (by omega)
  have hkey := stringAt_consumed entry.key_ne_zero before (consumed v ++ (more ++ tail))
  rw [← List.append_assoc] at hkey
  have hfind := findEntry_eq hkeys hentry hmcurr
  rw [← hkey] at hfind
  have hloop := @deserializeLoop_next entries _ _ filled mcurr i _ entry hnext hfind
  rw [storeValue_eq hfirst] at hloop
  refine ⟨consumed entry.key ++ consumed v, filled.fill entry
    ((before ++ consumed entry.key).length + (lengthPrefix v).length) v, ?_, ?_,
    frame_fill _ _ _ _, ?_, ?_⟩
  · rw [hloop]
    simp only [List.append_assoc]
  · simp only [List.length_append, length_consumed]
  · unfold Struct.fill
    split
    · rename_i hempty
      rw [hlength, hempty, List.length_nil]
    · exact Function.update_self _ _ _
  · intro after
    unfold Struct.bytesIn Struct.fill
    split_ifs with hempty
    · rw [hvalue, hempty]
    · dsimp only
      rw [Function.update_self, Function.update_self]
      dsimp only
      rw [← List.append_assoc before, slice_consumed]

/-- The induction is on the entries; those in front of `rest` are done, and the
memory in front of `before.length` stays as it is. -/
theorem deserializeLoop_entries (hkeys : (entries.map MapEntry.key).Nodup) {data : Struct Bytes}
    (hreadable : data.Readable entries) (rest : List MapEntry) :
    ∀ {finished : List MapEntry} {before tail : Bytes} {filled : Struct ℕ} {mcurr : ℕ},
      entries = finished ++ rest → (rest.map MapEntry.voff).Nodup →
      (rest.map MapEntry.loff).Nodup → mcurr < entries.length →
      before.length + (data.text rest).length < 2 ^ 64 → Clear rest filled →
      ∃ mem filled', deserializeLoop entries
          ⟨before ++ data.text rest ++ tail, before.length, (data.text rest).length⟩ filled mcurr =
          (mem, filled') ∧
        before <+: mem ∧ Frame rest filled filled' ∧
        ∀ entry ∈ rest, Reproduced data mem filled' entry := by
  induction rest with
  | nil =>
    intro finished before tail filled mcurr _ _ _ _ _ _
    refine ⟨_, filled, deserializeLoop_end rfl, ?_, Frame.refl _ _, by simp⟩
    rw [List.append_assoc]
    exact List.prefix_append _ _
  | cons entry rest ih =>
    intro finished before tail filled mcurr hentries hvoffs hloffs hmcurr hsize hclear
    have hentries' : entries = finished ++ [entry] ++ rest := by
      rw [hentries, List.append_cons]
    have htext : data.text (entry :: rest) = data.entryText entry ++ data.text rest := rfl
    obtain ⟨hvoff, hvoffs⟩ := List.nodup_cons.mp hvoffs
    obtain ⟨hloff, hloffs⟩ := List.nodup_cons.mp hloffs
    rw [htext] at hsize ⊢
    by_cases hpresent : data.Present entry
    · have hentry : entries[finished.length]? = some entry := by
        rw [hentries, List.getElem?_append_right le_rfl, Nat.sub_self]
        rfl
      have hmem : entry ∈ entries := List.mem_of_getElem? hentry
      have hfirst : Clear [entry] filled := by
        intro other hother
        obtain rfl := List.mem_singleton.mp hother
        exact hclear other List.mem_cons_self
      obtain ⟨parsed, mid, hstep, hparsed, hframe, hlength, hbytes⟩ :=
        @deserializeLoop_present entries hkeys data finished.length entry hentry hpresent before
          (data.text rest) tail filled mcurr hmcurr hsize hfirst
      have hsize' : (before ++ parsed).length + (data.text rest).length < 2 ^ 64 := by
        rw [List.length_append] at hsize ⊢
        omega
      have hbound : finished.length < entries.length := (List.getElem?_eq_some_iff.mp hentry).1
      obtain ⟨mem, filled', hrun, hprefix, hframe', hall⟩ :=
        @ih (finished ++ [entry]) (before ++ parsed) tail mid finished.length hentries' hvoffs
          hloffs hbound hsize' (hclear.of_frame hframe hvoff hloff)
      refine ⟨mem, filled', hstep.trans hrun, (List.prefix_append _ _).trans hprefix,
        hframe.cons hframe', ?_⟩
      intro other hother
      obtain rfl | hother := List.mem_cons.mp hother
      · obtain ⟨after, rfl⟩ := hprefix
        have hvalue := hframe'.value _ hvoff
        have hlength' := hframe'.length _ hloff
        constructor
        · intro _
          refine ⟨?_, ?_⟩
          · rw [hlength', hlength, length_bytes hreadable hmem hpresent]
          · rw [← hbytes after, Struct.bytesIn, Struct.bytesIn, hvalue, hlength']
        · exact fun habsent => absurd hpresent habsent
      · exact hall other hother
    · rw [entryText_of_absent hpresent, List.nil_append] at hsize ⊢
      obtain ⟨mem, filled', hrun, hprefix, hframe, hall⟩ :=
        @ih (finished ++ [entry]) before tail filled mcurr hentries' hvoffs hloffs hmcurr hsize
          (hclear.of_frame (Frame.refl _ _) hvoff hloff)
      refine ⟨mem, filled', hrun, hprefix, (Frame.refl _ _).cons hframe, ?_⟩
      intro other hother
      obtain rfl | hother := List.mem_cons.mp hother
      · obtain ⟨hvalue, hlength⟩ := hclear other List.mem_cons_self
        refine ⟨fun h => absurd h hpresent, fun _ => ⟨?_, ?_⟩⟩
        · rw [hframe.value _ hvoff, hvalue]
        · rw [hframe.length _ hloff, hlength]
      · exact hall other hother

/-- What `netstring_serialize` appends, `netstring_deserialize` reads back into
a zeroed struct, and it says how many bytes follow. -/
theorem netstring_map_round_trip (map : NetstringMap) (data : Struct Bytes) (out : Buf) (r : Bytes)
    (hreadable : data.Readable map.entries)
    (hsize : (netstringSerialize data map.entries out).len + r.length < 2 ^ 64) :
    let buf := netstringSerialize data map.entries out
    let read := netstringDeserialize map.entries (buf.contents ++ r) out.len
      (buf.len - out.len + r.length) .zeroed
    read.result = .ok () ∧ read.left = some r.length ∧
      (∀ entry ∈ map.entries, Reproduced data read.mem read.data entry) ∧
      Frame map.entries .zeroed read.data := by
  intro buf read
  change buf.len + r.length < 2 ^ 64 at hsize
  have hcontents := contents_netstringSerialize data map.entries out
  have hlen : buf.len = out.len + (encode (data.text map.entries)).length := by
    rw [← Buf.length_contents, hcontents, List.length_append, Buf.length_contents]
  have hinlen : buf.len - out.len + r.length =
      (encode (data.text map.entries) ++ r).length := by
    rw [List.length_append]
    omega
  have hparse := @netstringParse_encode out.contents (data.text map.entries) r [] (by
    rw [← hinlen]
    omega)
  rw [List.append_nil, ← List.append_assoc, ← hcontents, ← hinlen, Buf.length_contents] at hparse
  have hpos : 0 < map.entries.length := List.length_pos_iff.mpr map.ne_nil
  have htext : (lengthPrefix (data.text map.entries)).length + (data.text map.entries).length + 1 =
      (encode (data.text map.entries)).length := by
    simp only [encode, List.length_append, List.length_singleton]
  have hbody : (out.contents ++ lengthPrefix (data.text map.entries)).length +
      (data.text map.entries).length < 2 ^ 64 := by
    rw [List.length_append, Buf.length_contents]
    omega
  obtain ⟨hvoffs, hloffs, -⟩ := List.nodup_append.mp map.offsets_nodup
  obtain ⟨mem, filled, hrun, -, hframe, hall⟩ :=
    @deserializeLoop_entries map.entries map.keys_nodup data hreadable map.entries []
      (out.contents ++ lengthPrefix (data.text map.entries)) ([0] ++ (r ++ [])) .zeroed 0 rfl hvoffs
      hloffs hpos hbody (fun _ _ => ⟨rfl, rfl⟩)
  have hmem : out.contents ++ lengthPrefix (data.text map.entries) ++ data.text map.entries ++
      ([0] ++ (r ++ [])) = out.contents ++ consumed (data.text map.entries) ++ (r ++ []) := by
    simp [consumed, List.append_assoc]
  rw [hmem, List.length_append, Buf.length_contents] at hrun
  have hread : read = ⟨.ok (), mem, filled, some r.length⟩ := by
    have hleft : buf.len - out.len + r.length - (out.len +
        (lengthPrefix (data.text map.entries)).length + (data.text map.entries).length + 1 -
          out.len) = r.length := by
      omega
    unfold read netstringDeserialize
    rw [if_neg map.ne_nil, hparse]
    dsimp only
    rw [hrun, hleft]
  rw [hread]
  exact ⟨rfl, rfl, hall, hframe⟩

/-- The first member is NULL, so the pair of the second meets the first key. -/
theorem netstring_map_round_trip_run :
    let map : NetstringMap :=
      { entries := [⟨[97], 0, 8, by decide⟩, ⟨[98], 16, 24, by decide⟩]
        ne_nil := by decide
        keys_nodup := by decide
        offsets_nodup := by decide }
    let data : Struct Bytes :=
      ⟨fun off => if off = 16 then some [51, 44] else none, fun off => if off = 24 then 1 else 0⟩
    let buf := netstringSerialize data map.entries (Buf.init 8)
    let read := netstringDeserialize map.entries (buf.contents ++ [44]) (Buf.init 8).len
      (buf.len - (Buf.init 8).len + ([44] : Bytes).length) .zeroed
    read.result = .ok () ∧ read.left = some ([44] : Bytes).length ∧ read.data.length 24 = 1 ∧
      read.data.bytesIn read.mem ⟨[98], 16, 24, by decide⟩ = [51] ∧ read.data.value 0 = none := by
  intro map data buf read
  have hreadable : data.Readable map.entries := by
    intro entry hentry value hvalue
    simp only [data] at hvalue ⊢
    split at hvalue
    · cases hvalue
      split <;> decide
    · cases hvalue
  have hsize : buf.len + ([44] : Bytes).length < 2 ^ 64 := by
    rw [← Buf.length_contents, contents_netstringSerialize]
    simp [Struct.text, Struct.entryText, map, data, length_encode, Library.Decimal.numeral_small, byteAt]
  obtain ⟨hresult, hleft, hall, -⟩ : read.result = .ok () ∧
      read.left = some ([44] : Bytes).length ∧
      (∀ entry ∈ map.entries, Reproduced data read.mem read.data entry) ∧
      Frame map.entries .zeroed read.data :=
    netstring_map_round_trip map data (Buf.init 8) [44] hreadable hsize
  clear_value read
  have hfirst := hall ⟨[97], 0, 8, by decide⟩ List.mem_cons_self
  have hsecond := hall ⟨[98], 16, 24, by decide⟩ (List.mem_cons_of_mem _ List.mem_cons_self)
  obtain ⟨hlength, hbytes⟩ := hsecond.present ⟨[51, 44], rfl, by decide⟩
  have habsent : ¬ data.Present ⟨[97], 0, 8, by decide⟩ := by
    rintro ⟨value, hvalue, -⟩
    cases hvalue
  exact ⟨hresult, hleft, hlength, hbytes, (hfirst.absent habsent).1⟩

end Yans.Util.Netstring
