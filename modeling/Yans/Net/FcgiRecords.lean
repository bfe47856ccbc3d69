import Yans.Net.Fcgi

/-! Reassembly of FastCGI records. Between two calls of `fcgi_cli_readmsg` the
bytes behind the record that was delivered last, followed by the bytes still to
be read, are exactly the records not looked at yet. -/
namespace Yans.Net.Fcgi

open Library.Memory Util

structure Record where
  version : UInt8
  t : UInt8
  id : ℕ
  reserved : UInt8
  content : Bytes
  padding : Bytes
  id_lt : id < 2 ^ 16
  content_lt : content.length < 2 ^ 16
  padding_lt : padding.length < 2 ^ 8

namespace Record

def header (record : Record) : FcgiHeader where
  version := record.version
  t := record.t
  id := record.id
  clenB1 := UInt8.ofNat (record.content.length / 256)
  clenB0 := UInt8.ofNat record.content.length
  plen := UInt8.ofNat record.padding.length
  reserved := record.reserved

def headerBytes (record : Record) : Bytes :=
  [record.version, record.t] ++ littleEndian 2 record.id ++
    [record.header.clenB1, record.header.clenB0, record.header.plen, record.header.reserved]

def encode (record : Record) : Bytes := record.headerBytes ++ (record.content ++ record.padding)

def msg (record : Record) : FcgiMsg := ⟨record.header, record.content⟩

section

variable (record : Record)

include record

theorem length_headerBytes : record.headerBytes.length = headerSize := by
  simp [headerBytes, headerSize]

theorem clen_header : record.header.clen = record.content.length := by
  have hlt := record.content_lt
  unfold FcgiHeader.clen header
  simp only [UInt8.toNat_ofNat']
  omega

theorem plen_header : record.header.plen.toNat = record.padding.length := by
  have hlt := record.padding_lt
  unfold header
  rw [UInt8.toNat_ofNat']
  omega

theorem length_encode :
    record.encode.length = headerSize + record.content.length + record.padding.length := by
  rw [encode, List.length_append, length_headerBytes, List.length_append, Nat.add_assoc]

theorem readHeader_headerBytes (rest : Bytes) :
    readHeader (record.headerBytes ++ rest) = record.header := by
  have hid : readWord 2 (record.headerBytes ++ rest) 2 = record.id := by
    apply readWord_of_slice record.id_lt
    unfold headerBytes
    rw [List.append_assoc, List.append_assoc, ← List.append_assoc]
    exact slice_eq_of_append rfl (length_littleEndian _ _).symm
  unfold readHeader
  rw [hid]
  rfl

theorem msglen_headerBytes (rest : Bytes) :
    msglen (record.headerBytes ++ rest) = record.encode.length := by
  unfold msglen
  rw [readHeader_headerBytes, clen_header, plen_header, length_encode]

theorem readMsg_encode (rest : Bytes) :
    readMsg (record.encode ++ rest) = record.msg := by
  unfold readMsg encode msg
  rw [List.append_assoc, readHeader_headerBytes, clen_header, List.append_assoc,
    ← List.append_assoc, slice_eq_of_append record.length_headerBytes.symm rfl]

end

end Record

def encodings (records : List Record) : Bytes := records.flatMap Record.encode

variable {record : Record}

theorem isCompleteMsg_encode {buf : Buf} {rest : Bytes}
    (hcontents : buf.contents = record.encode ++ rest) : fcgiIsCompleteMsg buf = true := by
  have hlen : buf.len = record.encode.length + rest.length := by
    rw [← Buf.length_contents, hcontents, List.length_append]
  have hheader := record.length_encode
  unfold fcgiIsCompleteMsg
  rw [if_neg (by omega), hcontents, Record.encode, List.append_assoc, Record.msglen_headerBytes]
  simpa using by omega

theorem isCompleteMsg_cut {buf : Buf} {missing : Bytes}
    (hcut : record.encode = buf.contents ++ missing) (hmissing : missing ≠ []) :
    fcgiIsCompleteMsg buf = false := by
  have hpos := List.length_pos_iff.mpr hmissing
  have hlen : record.encode.length = buf.len + missing.length := by
    rw [hcut, List.length_append, Buf.length_contents]
  unfold fcgiIsCompleteMsg
  split
  · rfl
  · rename_i hheader
    have hstart : record.headerBytes ++ (buf.contents.drop headerSize) = buf.contents := by
      have htake : record.headerBytes = buf.contents.take headerSize := by
        rw [← List.take_append_of_le_length (by rw [Buf.length_contents]; omega), ← hcut,
          Record.encode, ← record.length_headerBytes, List.take_left]
      rw [htake, List.take_append_drop]
    rw [← hstart, Record.msglen_headerBytes, decide_eq_false_iff_not]
    omega

variable {left : List Record}

/-- What the buffered bytes at the start of a stream of records hold: the first
record, or a part of it that is not taken for a record. -/
theorem isCompleteMsg_cases {buf : Buf} {stream : Bytes}
    (hsplit : buf.contents ++ stream = encodings left) :
    (∃ record records rest, left = record :: records ∧ buf.contents = record.encode ++ rest ∧
      rest ++ stream = encodings records ∧ fcgiIsCompleteMsg buf = true) ∨
    fcgiIsCompleteMsg buf = false ∧ (left = [] ∨ stream ≠ []) := by
  cases left with
  | nil =>
    right
    have hempty : buf.contents = [] := (List.append_eq_nil_iff.mp hsplit).1
    have hlen : buf.len = 0 := by rw [← Buf.length_contents, hempty, List.length_nil]
    refine ⟨?_, .inl rfl⟩
    unfold fcgiIsCompleteMsg
    rw [hlen, if_pos (by decide)]
  | cons record records =>
    have hcons : encodings (record :: records) = record.encode ++ encodings records := rfl
    rw [hcons, List.append_eq_append_iff] at hsplit
    obtain ⟨missing, hmissing, hstream⟩ | ⟨rest, hcontents, hrest⟩ := hsplit
    · by_cases hnil : missing = []
      · left
        subst hnil
        rw [List.append_nil] at hmissing
        rw [List.nil_append] at hstream
        have hcontents : buf.contents = record.encode ++ [] := by rw [List.append_nil, hmissing]
        exact ⟨record, records, [], rfl, hcontents, hstream, isCompleteMsg_encode hcontents⟩
      · right
        refine ⟨isCompleteMsg_cut hmissing hnil, .inr ?_⟩
        rw [hstream]
        simp [hnil]
    · left
      exact ⟨record, records, rest, rfl, hcontents, hrest.symm, isCompleteMsg_encode hcontents⟩

/-- What the caller sets besides the call itself. -/
structure Setting where
  id : ℕ
  paramState : ParamState
deriving DecidableEq

def FcgiCli.setting (fcgi : FcgiCli) : Setting := ⟨fcgi.id, fcgi.paramState⟩

def FcgiCli.set (fcgi : FcgiCli) (setting : Setting) : FcgiCli :=
  { fcgi with id := setting.id, paramState := setting.paramState }

def Setting.Ignores (setting : Setting) (record : Record) : Prop :=
  setting.paramState ≠ .expectBeginRequest ∧ record.id ≠ setting.id

/-- The bytes behind `shown`, buffered or still to come, are the records
`left`. -/
structure Behind (fcgi : FcgiCli) (shown : Bytes) (left : List Record) : Prop where
  bytes : ∃ rest, fcgi.buf.contents = shown ++ rest ∧
    rest ++ streamBytes fcgi.io.events = encodings left
  delivers : ∀ event ∈ fcgi.io.events, event.Delivers

def Pending (fcgi : FcgiCli) (left : List Record) : Prop :=
  match fcgi.readState with
  | .incomplete => Behind fcgi [] left
  | .complete => ∃ record : Record, Behind fcgi record.encode left

inductive Advanced (setting : Setting) (blocks : ℕ) :
    List Record → FcgiResult → FcgiCli → Prop where
  | record {after : FcgiCli} {record : Record} {left : List Record}
      (behind : Behind after record.encode left) (complete : after.readState = .complete)
      (setting_eq : after.setting = setting) (again_le : againCount after.io.events ≤ blocks) :
      Advanced setting blocks (record :: left) .ok after
  | again {after : FcgiCli} {left : List Record} (behind : Behind after [] left)
      (incomplete : after.readState = .incomplete) (setting_eq : after.setting = setting)
      (again_lt : againCount after.io.events < blocks) :
      Advanced setting blocks left .again after
  | closed {after : FcgiCli} (behind : Behind after [] [])
      (incomplete : after.readState = .incomplete) (setting_eq : after.setting = setting)
      (errcode_eq : after.errcode = some .closed)
      (again_le : againCount after.io.events ≤ blocks) :
      Advanced setting blocks [] .err after

/-- How reading ends: with a complete record, or blocked, or at the end. -/
structure Loaded (blocks : ℕ) (left : List Record) (ret : IoResult) (buf : Buf) (fd : Fd) :
    Prop where
  bytes : buf.contents ++ streamBytes fd.events = encodings left
  delivers : ∀ event ∈ fd.events, event.Delivers
  again_le : againCount fd.events ≤ blocks
  result : fcgiIsCompleteMsg buf = true ∨ fcgiIsCompleteMsg buf = false ∧
    (ret = .again ∧ againCount fd.events < blocks ∨ ret = .ok 0 ∧ left = [])

/-- The induction is on what the descriptor can still deliver. -/
theorem readLoop_spec {blocks : ℕ} (weight : ℕ) : ∀ {buf : Buf} {fd : Fd},
    fd.weight = weight → buf.contents ++ streamBytes fd.events = encodings left →
    (∀ event ∈ fd.events, event.Delivers) → againCount fd.events ≤ blocks →
    ∀ {ret buf' after}, readLoop buf fd = (ret, buf', after) →
      Loaded blocks left ret buf' after := by
  induction weight using Nat.strongRecOn with
  | _ weight ih =>
    intro buf fd hweight hbytes hdelivers hblocks ret buf' after hrun
    rw [readLoop] at hrun
    obtain ⟨ret₁, buf₁, fd₁, hread⟩ : ∃ ret buf' after, ioReadbuf fd buf = (ret, buf', after) :=
      ⟨_, _, _, rfl⟩
    have reads := ioReadbuf_reads hdelivers hread
    have hsame := reads.bytes.trans hbytes
    have hcases := isCompleteMsg_cases hsame
    rw [hread] at hrun
    obtain ⟨rfl, hend, hstart⟩ | ⟨nread, hnread, rfl, hagain⟩ | ⟨rfl, hagain⟩ := reads.result
    · have hload : (ret, buf', after) = (.ok 0, buf₁, fd₁) := by
        rw [← hrun]
        dsimp only
        split
        · rfl
        · rw [dif_neg (Nat.lt_irrefl 0)]
      cases hload
      refine ⟨hsame, reads.delivers, by rw [hend]; exact Nat.zero_le _, ?_⟩
      obtain ⟨-, -, -, -, -, -, hcomplete⟩ | ⟨hincomplete, hmore⟩ := hcases
      · exact .inl hcomplete
      · rw [hend] at hmore
        exact .inr ⟨hincomplete, .inr ⟨rfl, hmore.resolve_right (fun h => h rfl)⟩⟩
    · dsimp only at hrun
      split at hrun
      · rename_i hcomplete
        cases hrun
        exact ⟨hsame, reads.delivers, hagain.le.trans hblocks, .inl hcomplete⟩
      · rw [dif_pos (Nat.pos_of_ne_zero hnread)] at hrun
        have hless := ioReadbuf_weight hread hnread
        exact ih _ (hweight ▸ hless) rfl hsame reads.delivers (hagain.le.trans hblocks) hrun
    · cases hrun
      refine ⟨hsame, reads.delivers, by omega, ?_⟩
      obtain ⟨-, -, -, -, -, -, hcomplete⟩ | ⟨hincomplete, -⟩ := hcases
      · exact .inl hcomplete
      · exact .inr ⟨hincomplete, .inl ⟨rfl, by omega⟩⟩

variable {after fcgi : FcgiCli} {result : FcgiResult}

theorem receive_spec (behind : Behind fcgi [] left) (hincomplete : fcgi.readState = .incomplete)
    (hrun : receive fcgi = (result, after)) :
    Advanced fcgi.setting (againCount fcgi.io.events) left result after := by
  obtain ⟨rest, hcontents, hbytes⟩ := behind.bytes
  rw [List.nil_append] at hcontents
  rw [← hcontents] at hbytes
  unfold receive at hrun
  obtain ⟨ret, buf, fd, hread⟩ : ∃ ret buf fd, readLoop fcgi.buf fcgi.io = (ret, buf, fd) :=
    ⟨_, _, _, rfl⟩
  have loaded := readLoop_spec _ rfl hbytes behind.delivers le_rfl hread
  rw [hread] at hrun
  dsimp only at hrun
  obtain hcomplete | ⟨hshort, hstopped⟩ := loaded.result
  · rw [if_pos hcomplete] at hrun
    cases hrun
    obtain ⟨record, records, rest, rfl, hfront, hrest, -⟩ | ⟨hfalse, -⟩ :=
      isCompleteMsg_cases loaded.bytes
    · exact .record ⟨⟨rest, hfront, hrest⟩, loaded.delivers⟩ rfl rfl loaded.again_le
    · rw [hcomplete] at hfalse
      cases hfalse
  · have hkept : Behind { fcgi with buf := buf, io := fd } [] left :=
      ⟨⟨_, rfl, loaded.bytes⟩, loaded.delivers⟩
    rw [hshort] at hrun
    obtain ⟨rfl, hagain⟩ | ⟨rfl, rfl⟩ := hstopped
    · cases hrun
      exact .again hkept hincomplete rfl hagain
    · cases hrun
      exact .closed ⟨hkept.bytes, hkept.delivers⟩ hincomplete rfl rfl loaded.again_le

theorem advance_spec (pending : Pending fcgi left) (hrun : advance fcgi = (result, after)) :
    Advanced fcgi.setting (againCount fcgi.io.events) left result after := by
  unfold advance at hrun
  unfold Pending at pending
  cases hstate : fcgi.readState with
  | incomplete =>
    rw [hstate] at hrun pending
    exact receive_spec pending hstate hrun
  | complete =>
    rw [hstate] at hrun pending
    obtain ⟨record, behind⟩ := pending
    obtain ⟨rest, hcontents, hbytes⟩ := behind.bytes
    have hmsglen : msglen fcgi.buf.contents = record.encode.length := by
      rw [hcontents, Record.encode, List.append_assoc, Record.msglen_headerBytes, Record.encode]
    have hlen : fcgi.buf.len = record.encode.length + rest.length := by
      rw [← Buf.length_contents, hcontents, List.length_append]
    have hheader := record.length_encode
    dsimp only at hrun
    rw [if_neg (by omega), hmsglen] at hrun
    split at hrun
    · have hshifted : (fcgi.buf.shiftDown record.encode.length).contents = rest := by
        rw [Buf.contents_shiftDown, hcontents, List.drop_left]
      obtain ⟨next, records, more, rfl, hfront, hmore, hcomplete⟩ | ⟨hshort, -⟩ :=
        isCompleteMsg_cases (hshifted.symm ▸ hbytes)
      · rw [if_pos hcomplete] at hrun
        cases hrun
        exact .record ⟨⟨more, hfront, hmore⟩, behind.delivers⟩ rfl rfl le_rfl
      · rw [if_neg (by rw [hshort]; simp)] at hrun
        have hbehind : Behind { fcgi with
            buf := fcgi.buf.shiftDown record.encode.length, readState := .incomplete } [] left :=
          ⟨⟨rest, hshifted, hbytes⟩, behind.delivers⟩
        have hadvanced := receive_spec hbehind rfl hrun
        exact hadvanced
    · have hrest : rest = [] := List.length_eq_zero_iff.mp (by omega)
      subst hrest
      have hbehind : Behind { fcgi with buf := fcgi.buf.clear, readState := .incomplete } [] left :=
        ⟨⟨[], Buf.contents_clear _, hbytes⟩, behind.delivers⟩
      have hadvanced := receive_spec hbehind rfl hrun
      exact hadvanced

/-- The three ways in which a call ends: before its record, or before the
block, there may be records of other requests. -/
inductive Received (setting : Setting) (blocks : ℕ) :
    List Record → FcgiResult → FcgiCli → Prop where
  | record {after : FcgiCli} {skipped left : List Record} {record : Record}
      (ignored : ∀ other ∈ skipped, setting.Ignores other) (wanted : ¬ setting.Ignores record)
      (behind : Behind after record.encode left) (complete : after.readState = .complete)
      (again_le : againCount after.io.events ≤ blocks) :
      Received setting blocks (skipped ++ record :: left) .ok after
  | again {after : FcgiCli} {skipped left : List Record}
      (ignored : ∀ other ∈ skipped, setting.Ignores other) (behind : Behind after [] left)
      (incomplete : after.readState = .incomplete)
      (again_lt : againCount after.io.events < blocks) :
      Received setting blocks (skipped ++ left) .again after
  | closed {after : FcgiCli} {skipped : List Record}
      (ignored : ∀ other ∈ skipped, setting.Ignores other) (behind : Behind after [] [])
      (incomplete : after.readState = .incomplete) (errcode_eq : after.errcode = some .closed)
      (again_le : againCount after.io.events ≤ blocks) :
      Received setting blocks skipped .err after

theorem Received.skip {setting : Setting} {blocks : ℕ}
    (h : Received setting blocks left result after)
    (hignored : setting.Ignores record) {more : ℕ} (hmore : blocks ≤ more) :
    Received setting more (record :: left) result after := by
  cases h with
  | record ignored wanted behind complete again_le =>
    exact .record (List.forall_mem_cons.mpr ⟨hignored, ignored⟩) wanted behind complete
      (again_le.trans hmore)
  | again ignored behind incomplete again_lt =>
    exact .again (List.forall_mem_cons.mpr ⟨hignored, ignored⟩) behind incomplete
      (again_lt.trans_le hmore)
  | closed ignored behind incomplete errcode_eq again_le =>
    exact .closed (List.forall_mem_cons.mpr ⟨hignored, ignored⟩) behind incomplete errcode_eq
      (again_le.trans hmore)

theorem ignores_iff (behind : Behind fcgi record.encode left) :
    fcgi.ignores (readHeader fcgi.buf.contents) = true ↔ fcgi.setting.Ignores record := by
  obtain ⟨rest, hcontents, -⟩ := behind.bytes
  unfold FcgiCli.ignores Setting.Ignores
  rw [hcontents, Record.encode, List.append_assoc, Record.readHeader_headerBytes, decide_eq_true_iff]
  rfl

/-- The induction follows the records that are passed over. -/
theorem readmsg_spec (work : ℕ) : ∀ {fcgi after : FcgiCli} {left : List Record}
    {result : FcgiResult}, fcgi.work = work → Pending fcgi left →
    fcgiCliReadmsg fcgi = (result, after) →
    Received fcgi.setting (againCount fcgi.io.events) left result after := by
  induction work using Nat.strongRecOn with
  | _ work ih =>
    intro fcgi after left result hwork pending hrun
    rw [fcgiCliReadmsg] at hrun
    obtain ⟨found, next, hadvance⟩ : ∃ found next, advance fcgi = (found, next) := ⟨_, _, rfl⟩
    have advanced := advance_spec pending hadvance
    have hless := @advance_work fcgi next
    rw [hadvance] at hrun hless
    cases advanced with
    | @record _ record left behind complete setting_eq again_le =>
      dsimp only at hrun
      have hignores := ignores_iff behind
      rw [setting_eq] at hignores
      split at hrun
      · rename_i hforeign
        have hpending : Pending next left := by
          unfold Pending
          rw [complete]
          exact ⟨_, behind⟩
        have hreceived := ih _ (hwork ▸ hless rfl) rfl hpending hrun
        rw [setting_eq] at hreceived
        exact hreceived.skip (hignores.mp hforeign) again_le
      · rename_i hwanted
        cases hrun
        exact @Received.record _ _ _ [] _ _ (by simp) (mt hignores.mpr hwanted) behind complete
          again_le
    | again behind incomplete setting_eq again_lt =>
      cases hrun
      exact @Received.again _ _ _ [] _ (by simp) behind incomplete again_lt
    | closed behind incomplete setting_eq errcode_eq again_le =>
      cases hrun
      exact .closed (by simp) behind incomplete errcode_eq again_le

inductive Outcome where
  | record (msg : FcgiMsg)
  | again
  | closed
  | failed
deriving DecidableEq

def outcome : FcgiResult × FcgiCli → Outcome
  | (.ok, fcgi) => .record (readMsg fcgi.buf.contents)
  | (.again, _) => .again
  | (_, fcgi) => if fcgi.errcode = some .closed then .closed else .failed

/-- Calls of `fcgi_cli_readmsg`, each after its caller has settled which request
it is working on. -/
def session : List Setting → FcgiCli → List Outcome
  | [], _ => []
  | setting :: settings, fcgi =>
    let called := fcgiCliReadmsg (fcgi.set setting)
    outcome called :: session settings called.2

/-- The calls deliver the records in order, except those of other requests; `left`
are the records at the start, `rest` those that no call has looked at. -/
inductive DeliversRecords : List Record → List Setting → List Outcome → List Record → Prop where
  | done (left : List Record) : DeliversRecords left [] [] left
  | record {setting : Setting} {settings : List Setting} {outcomes : List Outcome}
      {skipped left rest : List Record} {record : Record}
      (ignored : ∀ other ∈ skipped, setting.Ignores other) (wanted : ¬ setting.Ignores record)
      (next : DeliversRecords left settings outcomes rest) :
      DeliversRecords (skipped ++ record :: left) (setting :: settings)
        (.record record.msg :: outcomes) rest
  | again {setting : Setting} {settings : List Setting} {outcomes : List Outcome}
      {skipped left rest : List Record}
      (ignored : ∀ other ∈ skipped, setting.Ignores other)
      (next : DeliversRecords left settings outcomes rest) :
      DeliversRecords (skipped ++ left) (setting :: settings) (.again :: outcomes) rest
  | closed {setting : Setting} {settings : List Setting} {outcomes : List Outcome}
      {skipped rest : List Record} (ignored : ∀ other ∈ skipped, setting.Ignores other)
      (next : DeliversRecords [] settings outcomes rest) :
      DeliversRecords skipped (setting :: settings) (.closed :: outcomes) rest

theorem DeliversRecords.rest_eq_nil {settings : List Setting} {outcomes : List Outcome}
    {rest : List Record} (h : DeliversRecords left settings outcomes rest)
    (hleft : left = []) : rest = [] := by
  induction h with
  | done left => exact hleft
  | record ignored wanted next ih => simp at hleft
  | again ignored next ih => exact ih (List.append_eq_nil_iff.mp hleft).2
  | closed ignored next ih => exact ih rfl

theorem Pending.set (h : Pending fcgi left)
    (setting : Setting) : Pending (fcgi.set setting) left := by
  unfold Pending at h ⊢
  unfold FcgiCli.set
  split
  · rename_i hstate
    rw [hstate] at h
    exact ⟨h.bytes, h.delivers⟩
  · rename_i hstate
    rw [hstate] at h
    obtain ⟨record, behind⟩ := h
    exact ⟨record, behind.bytes, behind.delivers⟩

theorem pending_complete
    (behind : Behind fcgi record.encode left) (hstate : fcgi.readState = .complete) :
    Pending fcgi left := by
  unfold Pending
  rw [hstate]
  exact ⟨record, behind⟩

theorem pending_incomplete (behind : Behind fcgi [] left) (hstate : fcgi.readState = .incomplete) :
    Pending fcgi left := by
  unfold Pending
  rw [hstate]
  exact behind

theorem session_spec (settings : List Setting) : ∀ {fcgi : FcgiCli} {left : List Record}
    {blocks : ℕ}, Pending fcgi left → againCount fcgi.io.events ≤ blocks →
    ∃ rest, DeliversRecords left settings (session settings fcgi) rest ∧
      (session settings fcgi).count .again ≤ blocks ∧
      (left.length + blocks ≤ settings.length → rest = []) := by
  induction settings with
  | nil =>
    intro fcgi left blocks pending hblocks
    refine ⟨left, .done left, Nat.zero_le _, ?_⟩
    intro hcalls
    rw [List.length_nil] at hcalls
    exact List.length_eq_zero_iff.mp (by omega)
  | cons setting settings ih =>
    intro fcgi left blocks pending hblocks
    unfold session
    dsimp only
    obtain ⟨result, after, hrun⟩ : ∃ result after,
        fcgiCliReadmsg (fcgi.set setting) = (result, after) := ⟨_, _, rfl⟩
    have received := readmsg_spec _ rfl (pending.set setting) hrun
    have hset : (fcgi.set setting).setting = setting := rfl
    have hevents : (fcgi.set setting).io = fcgi.io := rfl
    rw [hset, hevents] at received
    rw [hrun]
    dsimp only
    cases received with
    | @record _ skipped left record ignored wanted behind complete again_le =>
      obtain ⟨rest, delivers, hcount, hdone⟩ :=
        ih (pending_complete behind complete) (again_le.trans hblocks)
      obtain ⟨more, hcontents, -⟩ := behind.bytes
      have houtcome : outcome (.ok, after) = .record record.msg := by
        rw [← Record.readMsg_encode record more, ← hcontents]
        rfl
      rw [houtcome]
      refine ⟨rest, .record ignored wanted delivers, ?_, ?_⟩
      · rw [List.count_cons_of_ne (by simp)]
        exact hcount
      · intro hcalls
        apply hdone
        simp only [List.length_append, List.length_cons] at hcalls
        omega
    | @again _ skipped left ignored behind incomplete again_lt =>
      obtain ⟨rest, delivers, hcount, hdone⟩ := @ih after left (blocks - 1)
        (pending_incomplete behind incomplete) (by omega)
      refine ⟨rest, .again ignored delivers, ?_, ?_⟩
      · rw [show outcome (.again, after) = .again from rfl, List.count_cons_self]
        omega
      · intro hcalls
        apply hdone
        simp only [List.length_append, List.length_cons] at hcalls
        omega
    | closed ignored behind incomplete errcode_eq again_le =>
      obtain ⟨rest, delivers, hcount, -⟩ :=
        ih (pending_incomplete behind incomplete) (again_le.trans hblocks)
      have houtcome : outcome (.err, after) = .closed := if_pos errcode_eq
      rw [houtcome]
      refine ⟨rest, .closed ignored delivers, ?_, fun _ => delivers.rest_eq_nil rfl⟩
      rw [List.count_cons_of_ne (by simp)]
      exact hcount

/-- Any stream of records, cut in any way and blocking anywhere: the calls give
back the records in order with their headers and contents, pass over exactly
those of other requests, and block no more often than the descriptor does. As
many calls as there are records and would-block results see all of them. -/
theorem readmsg_reassembles (records : List Record) (events : List ReadEvent)
    (hdelivers : ∀ event ∈ events, event.Delivers)
    (hstream : streamBytes events = records.flatMap Record.encode) (settings : List Setting) :
    ∃ rest, DeliversRecords records settings (session settings (fcgiCliInit ⟨events, []⟩)) rest ∧
      (session settings (fcgiCliInit ⟨events, []⟩)).count .again ≤ againCount events ∧
      (records.length + againCount events ≤ settings.length → rest = []) := by
  have behind : Behind (fcgiCliInit ⟨events, []⟩) [] records :=
    ⟨⟨[], Buf.contents_init _, hstream⟩, hdelivers⟩
  exact session_spec settings (pending_incomplete behind rfl) le_rfl

/-- `FCGI_BEGIN_REQUEST` of the request with the id bytes 0 and 1. -/
def sampleBegin : Record :=
  ⟨1, 1, 256, 0, [0, 1, 0, 0, 0, 0, 0, 0], [], by decide, by decide, by decide⟩

/-- `FCGI_PARAMS` of another request, with two bytes of padding. -/
def sampleForeign : Record := ⟨1, 4, 512, 0, [7], [0, 0], by decide, by decide, by decide⟩

def sampleParams : Record := ⟨1, 4, 256, 0, [], [], by decide, by decide, by decide⟩

/-- The records cut inside the first header, after a would-block result and
before another one. -/
def sampleEvents : List ReadEvent :=
  [.again, .data [1, 1, 0], .again,
    .data [1, 0, 8, 0, 0, 0, 1, 0, 0, 0, 0, 0, 0, 1, 4, 0, 2, 0, 1, 2, 0, 7, 0, 0, 1, 4, 0, 1, 0, 0,
      0, 0]]

/-- The id of the request is known after its first record. -/
theorem readmsg_reassembles_run :
    ∃ rest, DeliversRecords [sampleBegin, sampleForeign, sampleParams]
        [⟨0, .expectBeginRequest⟩, ⟨0, .expectBeginRequest⟩, ⟨0, .expectBeginRequest⟩,
          ⟨256, .expectParams⟩, ⟨256, .done⟩]
        (session [⟨0, .expectBeginRequest⟩, ⟨0, .expectBeginRequest⟩, ⟨0, .expectBeginRequest⟩,
          ⟨256, .expectParams⟩, ⟨256, .done⟩] (fcgiCliInit ⟨sampleEvents, []⟩)) rest ∧
      rest = [] := by
  have hdelivers : ∀ event ∈ sampleEvents, event.Delivers := by
    simp [sampleEvents, ReadEvent.Delivers]
  obtain ⟨rest, delivers, -, hall⟩ := readmsg_reassembles
    [sampleBegin, sampleForeign, sampleParams] sampleEvents hdelivers (by decide)
    [⟨0, .expectBeginRequest⟩, ⟨0, .expectBeginRequest⟩, ⟨0, .expectBeginRequest⟩,
      ⟨256, .expectParams⟩, ⟨256, .done⟩]
  exact ⟨rest, delivers, hall (by decide)⟩

end Yans.Net.Fcgi
