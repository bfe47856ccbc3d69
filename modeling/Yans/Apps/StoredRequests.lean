import Yans.Apps.StoredClient
import Yans.Apps.StoredPaths

/-! The requests of a client and the answers that `stored` gives to them one at a
time. What a message asks for does not depend on where in the buffer it lies and
what lies behind it. -/
namespace Yans.Apps.Stored

open Library.Memory Library.Strings Util Util.Netstring Ycl

def messageOf (x : Bytes) : Message where
  storeReq := (yclMsgParseStoreReq (alone (encode x))).1
  storeEnteredReq := (yclMsgParseStoreEnteredReq (alone (encode x))).1

theorem storeReqOf_append_left {mem : Bytes} {r : List Slot}
    (h : ∀ slot ∈ r, slot.Inside msgbufAddr mem.length) (tail : Bytes) :
    storeReqOf (mem ++ tail) r = storeReqOf mem r := by
  unfold storeReqOf
  split
  · simp only [List.forall_mem_cons] at h
    rw [Slot.string_append_left h.1, Slot.string_append_left h.2.1,
      Slot.string_append_left h.2.2.1, Slot.string_append_left h.2.2.2.2.1]
  · rfl

theorem storeEnteredReqOf_append_left {mem : Bytes} {r : List Slot}
    (h : ∀ slot ∈ r, slot.Inside msgbufAddr mem.length) (tail : Bytes) :
    storeEnteredReqOf (mem ++ tail) r = storeEnteredReqOf mem r := by
  unfold storeEnteredReqOf
  split
  · simp only [List.forall_mem_cons] at h
    rw [Slot.string_append_left h.1, Slot.string_append_left h.2.1,
      Slot.string_append_left h.2.2.2.1, Slot.string_append_left h.2.2.2.2.1]
  · rfl

theorem parseMsg_front {Req : Type} {schema : Schema} {reqOf : Bytes → List Slot → Req}
    (hfields : schema.fields ≠ []) (hscalar : ∀ field ∈ schema.fields, field.typ.IsScalar)
    (hreqOf : ∀ {mem : Bytes} {r : List Slot}, (∀ slot ∈ r, slot.Inside msgbufAddr mem.length) →
      ∀ tail, reqOf (mem ++ tail) r = reqOf mem r)
    {msg : YclMsg} {x rest : Bytes} (hcontents : msg.buf.contents = encode x ++ rest)
    (hsize : msg.buf.len < 2 ^ 64) :
    (parseMsg schema reqOf msg).1 = (parseMsg schema reqOf (alone (encode x))).1 ∧
      (parseMsg schema reqOf msg).2.buf.contents.drop (encode x).length = rest ∧
      (parseMsg schema reqOf msg).2.buf.len = msg.buf.len ∧
      (parseMsg schema reqOf msg).2.nextoff = msg.nextoff := by
  have hlen : msg.buf.len = (encode x).length + rest.length := by
    rw [← Buf.length_contents, hcontents, List.length_append]
  obtain ⟨mem, r, hmem, hinside, hparse⟩ := @exists_yclMsgParse_front msgbufAddr 0 schema hfields
    hscalar x (by omega)
  have hown : (alone (encode x)).buf.contents = encode x ++ [] :=
    List.take_length.trans (List.append_nil _).symm
  have hparsed := hparse hcontents hsize
  have hparsedOwn := hparse hown (show (encode x).length < 2 ^ 64 by omega)
  unfold parseMsg
  simp only [hparsed, hparsedOwn, if_true]
  refine ⟨?_, ?_, rfl, trivial⟩
  · rw [hreqOf hinside, hreqOf hinside]
  · have hdata : msg.buf.data.length =
        (mem ++ (rest ++ msg.buf.data.drop msg.buf.len)).length := by
      have hle := msg.buf.len_le
      simp only [List.length_append, List.length_drop, hmem]
      omega
    have hwrite : write msg.buf.data 0 (mem ++ (rest ++ msg.buf.data.drop msg.buf.len)) =
        mem ++ (rest ++ msg.buf.data.drop msg.buf.len) := by
      unfold write
      rw [List.take_zero, List.nil_append, Nat.zero_add, ← hdata, List.drop_length,
        List.append_nil]
    unfold Buf.store Buf.contents
    dsimp only
    rw [hwrite, hlen, ← hmem, List.take_length_add_append, List.drop_left, List.take_left]

theorem scalar_storeReq : ∀ field ∈ yclMsgStoreReq.fields, field.typ.IsScalar := by
  unfold yclMsgStoreReq FieldType.IsScalar
  simp

theorem scalar_storeEnteredReq : ∀ field ∈ yclMsgStoreEnteredReq.fields, field.typ.IsScalar := by
  unfold yclMsgStoreEnteredReq FieldType.IsScalar
  simp

section Front

variable {msg : YclMsg} {x rest : Bytes} (hcontents : msg.buf.contents = encode x ++ rest)
  (hsize : msg.buf.len < 2 ^ 64)

include hcontents hsize

theorem yclMsgParseStoreReq_front :
    (yclMsgParseStoreReq msg).1 = (messageOf x).storeReq ∧
      (yclMsgParseStoreReq msg).2.buf.contents.drop (encode x).length = rest ∧
      (yclMsgParseStoreReq msg).2.buf.len = msg.buf.len ∧
      (yclMsgParseStoreReq msg).2.nextoff = msg.nextoff :=
  parseMsg_front (by decide) scalar_storeReq storeReqOf_append_left hcontents hsize

theorem yclMsgParseStoreEnteredReq_front :
    (yclMsgParseStoreEnteredReq msg).1 = (messageOf x).storeEnteredReq ∧
      (yclMsgParseStoreEnteredReq msg).2.buf.contents.drop (encode x).length = rest ∧
      (yclMsgParseStoreEnteredReq msg).2.buf.len = msg.buf.len ∧
      (yclMsgParseStoreEnteredReq msg).2.nextoff = msg.nextoff :=
  parseMsg_front (by decide) scalar_storeEnteredReq storeEnteredReqOf_append_left hcontents hsize

end Front

/-! Requests that a client makes -/

/-- A `store_req` as its sender fills it in; what is empty is left out. -/
def StoreReq.members (req : StoreReq) : Members yclMsgStoreReq.fields :=
  @Members.cons ⟨.data, ascii "action"⟩ _ (req.action.getD []) (@Members.cons
    ⟨.data, ascii "store_id"⟩ _ (req.storeId.getD []) (@Members.cons
    ⟨.data, ascii "list_must_match"⟩ _ (req.listMustMatch.getD []) (@Members.cons
    ⟨.long, ascii "index"⟩ _ req.index (@Members.cons ⟨.data, ascii "name"⟩ _ (req.name.getD [])
    (@Members.cons ⟨.long, ascii "indexed"⟩ _ req.indexed .nil)))))

def StoreEnteredReq.members (req : StoreEnteredReq) : Members yclMsgStoreEnteredReq.fields :=
  @Members.cons ⟨.data, ascii "action"⟩ _ (req.action.getD []) (@Members.cons
    ⟨.data, ascii "open_path"⟩ _ (req.openPath.getD []) (@Members.cons
    ⟨.long, ascii "open_flags"⟩ _ req.openFlags (@Members.cons
    ⟨.data, ascii "rename_from"⟩ _ (req.renameFrom.getD []) (@Members.cons
    ⟨.data, ascii "rename_to"⟩ _ (req.renameTo.getD []) .nil))))

/-- The request is one for `on_readreq`, with this action. -/
def AsksReq (action : String) (x : Bytes) : Prop :=
  ∃ req ∈ (messageOf x).storeReq, strEq req.action action

def AsksEntered (action : String) (x : Bytes) : Prop :=
  ∃ req ∈ (messageOf x).storeEnteredReq, strEq req.action action

def Asks : Phase → Bytes → Prop
  | .readreq, x => AsksReq "list" x ∨ AsksReq "enter" x
  | .readentered, x => AsksEntered "open" x ∨ AsksEntered "rename" x
  | .finished, _ => False

instance (action : String) (x : Bytes) : Decidable (AsksReq action x) :=
  inferInstanceAs (Decidable (∃ req ∈ _, strEq _ action))

instance (action : String) (x : Bytes) : Decidable (AsksEntered action x) :=
  inferInstanceAs (Decidable (∃ req ∈ _, strEq _ action))

instance : (phase : Phase) → (x : Bytes) → Decidable (Asks phase x)
  | .readreq, _ => inferInstanceAs (Decidable (_ ∨ _))
  | .readentered, _ => inferInstanceAs (Decidable (_ ∨ _))
  | .finished, _ => inferInstanceAs (Decidable False)

variable {World : Type} (out : Outside World)

/-- Lists, then an `enter`, and requests in the store if it is entered. -/
def WellFormed (s : State World) : List Bytes → Prop
  | [] => True
  | x :: xs => Asks s.phase x ∧ WellFormed (step out s (messageOf x)).2 xs

instance decidableWellFormed : (s : State World) → (xs : List Bytes) → Decidable (WellFormed out s xs)
  | _, [] => inferInstanceAs (Decidable True)
  | s, x :: xs =>
    have := decidableWellFormed (step out s (messageOf x)).2 xs
    inferInstanceAs (Decidable (_ ∧ _))

/-- The answers to requests that are each sent alone, when the one before it has
been answered. -/
def answers (s : State World) : List Bytes → List Response × State World
  | [] => ([], s)
  | x :: xs =>
    let answered := step out s (messageOf x)
    let others := answers answered.2 xs
    (answered.1.toList ++ others.1, others.2)

def Response.items : Response → List Item
  | .status okmsg errmsg =>
    (yclMsgCreateStatusResp okmsg errmsg yclMsgInit).buf.contents.map .byte
  | .list errmsg entries =>
    (yclMsgCreateStoreList errmsg entries yclMsgInit).buf.contents.map .byte
  | .fd openFd openErrno => [.fd openFd openErrno]

variable {out}

theorem answers_append (xs : List Bytes) {served : List Bytes} : ∀ {s : State World},
    answers out s (served ++ xs) =
      ((answers out s served).1 ++ (answers out (answers out s served).2 xs).1,
        (answers out (answers out s served).2 xs).2) := by
  induction served with
  | nil => exact fun {s} => rfl
  | cons x served ih =>
    intro s
    simp only [List.cons_append, answers, ih, List.append_assoc]

theorem lenOf_ne_zero_of_strEq {s : Option Bytes} {literal : String} (hliteral : ascii literal ≠ [])
    (hnul : ∀ byte ∈ ascii literal, byte ≠ 0) (h : strEq s literal) : lenOf s ≠ 0 := by
  intro hzero
  unfold strEq at h
  rw [strcmp_eq_zero_iff, List.length_eq_zero_iff.mp hzero, cstring_of_ne_zero hnul] at h
  exact hliteral h.symm

theorem not_strEq_of_strEq {s : Option Bytes} {left right : String}
    (h : cstring (ascii left) ≠ cstring (ascii right)) (hleft : strEq s left) : ¬ strEq s right := by
  intro hright
  unfold strEq at hleft hright
  rw [strcmp_eq_zero_iff] at hleft hright
  exact h (hleft.symm.trans hright)

inductive Answered (σ : State World) (x : Bytes) : Response → State World → Prop where
  | list {errmsg : Option Bytes} {entries : Bytes} {σ' : State World} (asks : AsksReq "list" x)
      (before : σ.phase = .readreq) (phase : σ'.phase = .readreq) (buf : σ'.cli.buf = []) :
      Answered σ x (.list errmsg entries) σ'
  | entered {okmsg : Option Bytes} {σ' : State World} (asks : AsksReq "enter" x)
      (before : σ.phase = .readreq) (phase : σ'.phase = .readentered) :
      Answered σ x (.status okmsg none) σ'
  | refused {errmsg : Option Bytes} {σ' : State World} (asks : AsksReq "enter" x)
      (before : σ.phase = .readreq) (phase : σ'.phase = .finished) :
      Answered σ x (.status none errmsg) σ'
  | opened {σ' : State World} (asks : AsksEntered "open" x) (before : σ.phase = .readentered)
      (phase : σ'.phase = .readentered) :
      Answered σ x (.fd σ'.cli.openFd σ'.cli.openErrno) σ'
  | renamed {errmsg : Option Bytes} {σ' : State World} (asks : AsksEntered "rename" x)
      (before : σ.phase = .readentered) (phase : σ'.phase = .readentered) :
      Answered σ x (.status none errmsg) σ'

theorem handleStoreList_eq (req : StoreReq) (σ : State World) :
    ∃ errmsg entries, handleStoreList out req σ =
      (.list errmsg entries, { σ with cli := { σ.cli with buf := [] } }) := by
  unfold handleStoreList
  dsimp only
  split
  · exact ⟨_, _, rfl⟩
  · split
    · exact ⟨_, _, rfl⟩
    · split <;> exact ⟨_, _, rfl⟩

theorem onReadreq_of_list {req : StoreReq} (h : strEq req.action "list") (σ : State World) :
    onReadreq out (some req) σ = handleStoreList out req σ := by
  have hlen := lenOf_ne_zero_of_strEq (by decide) (by decide) h
  unfold onReadreq
  dsimp only
  rw [if_neg hlen, if_neg (not_strEq_of_strEq (by decide) h),
    if_neg (not_strEq_of_strEq (by decide) h), if_pos h]

theorem onEntered_cases (req : StoreReq) (result : Bool × State World) :
    (∃ okmsg σ', onEntered out req result = (.status okmsg none, σ') ∧
      σ'.phase = .readentered) ∨
    ∃ errmsg σ', onEntered out req result = (.status none errmsg, σ') ∧
      σ'.phase = .finished := by
  obtain ⟨entered, σ⟩ := result
  unfold onEntered
  dsimp only
  split
  · right
    exact ⟨_, _, rfl, rfl⟩
  · left
    exact ⟨_, _, rfl, rfl⟩

theorem onReadreq_of_enter {req : StoreReq} (h : strEq req.action "enter") (σ : State World) :
    (∃ okmsg σ', onReadreq out (some req) σ = (.status okmsg none, σ') ∧
      σ'.phase = .readentered) ∨
    ∃ errmsg σ', onReadreq out (some req) σ = (.status none errmsg, σ') ∧
      σ'.phase = .finished := by
  have hlen := lenOf_ne_zero_of_strEq (by decide) (by decide) h
  unfold onReadreq
  dsimp only
  rw [if_neg hlen, if_pos h]
  unfold onEnter
  split
  · apply onEntered_cases
  · apply onEntered_cases

theorem onReadentered_of_open {req : StoreEnteredReq} (h : strEq req.action "open")
    (σ : State World) :
    ∃ openFd openErrno σ', onReadentered out (some req) σ = (.fd openFd openErrno, σ') ∧
      σ'.cli.openFd = openFd ∧ σ'.cli.openErrno = openErrno ∧ σ'.phase = σ.phase := by
  have hlen := lenOf_ne_zero_of_strEq (by decide) (by decide) h
  unfold onReadentered
  dsimp only
  rw [if_neg hlen, if_pos h]
  unfold handleStoreOpen
  dsimp only
  split
  · exact ⟨_, _, _, rfl, rfl, rfl, rfl⟩
  · split <;> exact ⟨_, _, _, rfl, rfl, rfl, rfl⟩

theorem onReadentered_of_rename {req : StoreEnteredReq} (h : strEq req.action "rename")
    (σ : State World) :
    ∃ errmsg σ', onReadentered out (some req) σ = (.status none errmsg, σ') ∧
      σ'.phase = σ.phase := by
  have hlen := lenOf_ne_zero_of_strEq (by decide) (by decide) h
  unfold onReadentered
  dsimp only
  rw [if_neg hlen, if_neg (not_strEq_of_strEq (by decide) h), if_pos h]
  unfold handleStoreRename
  split
  · exact ⟨_, _, rfl, rfl⟩
  · split <;> exact ⟨_, _, rfl, rfl⟩

theorem exists_answered {σ : State World} {x : Bytes} (h : Asks σ.phase x) :
    ∃ response σ', step out σ (messageOf x) = (some response, σ') ∧ Answered σ x response σ' := by
  cases hphase : σ.phase with
  | readreq =>
    rw [hphase] at h
    have hstep : ∀ {req response σ'}, (messageOf x).storeReq = some req →
        onReadreq out (some req) σ = (response, σ') →
        step out σ (messageOf x) = (some response, σ') := by
      intro req response σ' hreq hrun
      unfold step
      rw [hphase, hreq]
      rw [hrun]
      rfl
    obtain hlist | henter := h
    · obtain ⟨req, hreq, haction⟩ := hlist
      obtain ⟨errmsg, entries, hlist⟩ := @handleStoreList_eq _ out req σ
      have hrun := (onReadreq_of_list haction σ).trans hlist
      exact ⟨_, _, hstep hreq hrun, .list ⟨req, hreq, haction⟩ hphase hphase rfl⟩
    · obtain ⟨req, hreq, haction⟩ := henter
      obtain ⟨okmsg, σ', hrun, hafter⟩ | ⟨errmsg, σ', hrun, hafter⟩ :=
        @onReadreq_of_enter _ out req haction σ
      · exact ⟨_, _, hstep hreq hrun, .entered ⟨req, hreq, haction⟩ hphase hafter⟩
      · exact ⟨_, _, hstep hreq hrun, .refused ⟨req, hreq, haction⟩ hphase hafter⟩
  | readentered =>
    rw [hphase] at h
    have hstep : ∀ {req response σ'}, (messageOf x).storeEnteredReq = some req →
        onReadentered out (some req) σ = (response, σ') →
        step out σ (messageOf x) = (some response, σ') := by
      intro req response σ' hreq hrun
      unfold step
      rw [hphase, hreq]
      rw [hrun]
      rfl
    obtain hopen | hrename := h
    · obtain ⟨req, hreq, haction⟩ := hopen
      obtain ⟨_, _, σ', hrun, rfl, rfl, hafter⟩ := @onReadentered_of_open _ out req haction σ
      exact ⟨_, _, hstep hreq hrun, .opened ⟨req, hreq, haction⟩ hphase (hafter.trans hphase)⟩
    · obtain ⟨req, hreq, haction⟩ := hrename
      obtain ⟨errmsg, σ', hrun, hafter⟩ := @onReadentered_of_rename _ out req haction σ
      exact ⟨_, _, hstep hreq hrun, .renamed ⟨req, hreq, haction⟩ hphase (hafter.trans hphase)⟩
  | finished =>
    rw [hphase] at h
    exact absurd h id

theorem length_answers {xs : List Bytes} : ∀ {σ : State World}, WellFormed out σ xs →
    (answers out σ xs).1.length = xs.length := by
  induction xs with
  | nil => exact fun _ => rfl
  | cons x xs ih =>
    intro σ h
    obtain ⟨response, σ', hstep, -⟩ := @exists_answered _ out σ x h.1
    have hrest := ih h.2
    rw [hstep] at hrest
    simp only [answers, hstep, List.length_append, hrest, List.length_cons]
    exact Nat.add_comm 1 xs.length

end Yans.Apps.Stored

