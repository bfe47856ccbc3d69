import Yans.Library.Strings

/-! `apps/stored/store.c`: the daemon that keeps the stores and opens their
files for its clients. The file system, the index and the regular expressions
are a structure of functions on the state of the outside world. A request is
what the parser delivers; an answer is sent before the next request is read. -/
namespace Yans.Apps.Stored

open Library.Memory Library.Strings

structure StoreReq where
  action : Option Bytes
  storeId : Option Bytes
  listMustMatch : Option Bytes
  index : BitVec 64
  name : Option Bytes
  indexed : BitVec 64
deriving DecidableEq

structure StoreEnteredReq where
  action : Option Bytes
  openPath : Option Bytes
  openFlags : BitVec 64
  renameFrom : Option Bytes
  renameTo : Option Bytes
deriving DecidableEq

/-- What a client has sent, as each of the two parsers takes it; `none` is a
parse error. -/
structure Message where
  storeReq : Option StoreReq
  storeEnteredReq : Option StoreEnteredReq
deriving DecidableEq

def storeIdsz : ℕ := 20
def storePrefixsz : ℕ := 2
def storeMaxpath : ℕ := 128
def storeMaxdirpath : ℕ := storePrefixsz + 1 + storeIdsz + 1 + storeMaxpath + 1

def maxtriesGenstore : ℕ := 128

def enoent : ℤ := 2
def eacces : ℤ := 13
def eexist : ℤ := 17

def oCreat : BitVec 32 := 0x200#32

/-- A result is a descriptor or `errno`. -/
structure Outside (World : Type) where
  nullfd : ℤ
  prngHex : ℕ → World → Bytes × World
  mkdir : Bytes → World → Option ℤ × World
  openFile : Bytes → BitVec 32 → Option ℕ → World → Except ℤ ℤ × World
  rename : Bytes → Bytes → World → Option ℤ × World
  strerror : ℤ → Bytes
  openIndex : World → Except ℤ ℤ × World
  reinitIndex : World → World
  putIndex : Bytes → Bytes → BitVec 64 → World → World
  regcomp : Bytes → Bool
  listStoreContent : Bytes → Option Bytes → World → Bytes
  listStores : Option Bytes → World → Bytes

/-- A path that is given to the file system, with the name in the request it is
made for. -/
structure PathUse where
  name : Bytes
  path : Bytes
deriving DecidableEq

structure StoreCli where
  storePath : Bytes
  openFd : ℤ
  openErrno : ℤ
  buf : Bytes
deriving DecidableEq

/-- What is called when the client has sent something. -/
inductive Phase where
  | readreq
  | readentered
  | finished
deriving DecidableEq

/-- One client. The paths are those of `open` and `rename` so far. -/
structure State (World : Type) where
  phase : Phase
  cli : StoreCli
  uses : List PathUse
  world : World

inductive Response where
  | status (okmsg errmsg : Option Bytes)
  | list (errmsg : Option Bytes) (entries : Bytes)
  | fd (fd errno : ℤ)
deriving DecidableEq

def strEq (s : Option Bytes) (literal : String) : Prop := strcmp (s.getD []) (ascii literal) = 0

instance (s : Option Bytes) (literal : String) : Decidable (strEq s literal) :=
  inferInstanceAs (Decidable (_ = _))

/-- The `len` of a string in a request. -/
def lenOf (data : Option Bytes) : ℕ := (data.getD []).length

/-- What `snprintf` leaves in an array of `size` bytes, up to its end. -/
def snprintf (size : ℕ) (text : Bytes) : Bytes := text.take (size - 1)

def IsHex (ch : UInt8) : Prop := 48 ≤ ch ∧ ch ≤ 57 ∨ 97 ≤ ch ∧ ch ≤ 102

instance : DecidablePred IsHex := fun _ => inferInstanceAs (Decidable (_ ∨ _))

def IsValidStoreId (storeId : Bytes) : Prop := storeId.length = storeIdsz ∧ ∀ ch ∈ storeId, IsHex ch

instance : DecidablePred IsValidStoreId := fun _ => inferInstanceAs (Decidable (_ ∧ _))

/-- Neither a slash nor below 0x20, as a signed `char`. -/
def IsPathChar (ch : UInt8) : Prop := ch ≠ 47 ∧ 32 ≤ ch ∧ ch < 128

instance : DecidablePred IsPathChar := fun _ => inferInstanceAs (Decidable (_ ∧ _))

def IsValidPath (path : Option Bytes) : Prop :=
  ∃ name ∈ path, name.length < storeMaxpath ∧ ∀ ch ∈ name, IsPathChar ch

instance (path : Option Bytes) : Decidable (IsValidPath path) :=
  inferInstanceAs (Decidable (∃ name ∈ path, _))

def subdirOf (storeId : Bytes) : Bytes := cstring (storeId.drop (storeIdsz - storePrefixsz))

/-- The size of the array `store_path`. -/
def storePathSize : ℕ := storeIdsz + storePrefixsz + 2

def storePathOf (storeId : Bytes) : Bytes :=
  snprintf storePathSize
    ((subdirOf storeId).take storePrefixsz ++ 47 :: (cstring storeId).take storeIdsz)

/-- `STORE_ID` -/
def storeIdOf (cli : StoreCli) : Bytes := cli.storePath.drop (storePrefixsz + 1)

variable {World : Type} (out : Outside World)

def writeErrResponse (errmsg : String) (s : State World) : Response × State World :=
  (.status none (some (ascii errmsg)), { s with phase := .finished })

def enterStore (storeId : Bytes) (exclusive : Bool) (s : State World) : Bool × State World :=
  if ¬ IsValidStoreId storeId then (false, s)
  else
    let (err, world) := out.mkdir (subdirOf storeId) s.world
    let s := { s with world := world }
    if err.any (· ≠ eexist) then (false, s)
    else
      let s := { s with cli := { s.cli with storePath := storePathOf storeId } }
      let (err, world) := out.mkdir s.cli.storePath s.world
      let s := { s with world := world }
      (¬ err.any fun errno => exclusive ∨ errno ≠ eexist, s)

/-- The loop of `create_and_enter_store`. -/
def createAndEnterStore : ℕ → State World → Bool × State World
  | 0, s => (false, s)
  | tries + 1, s =>
    let (storeId, world) := out.prngHex storeIdsz s.world
    let (entered, s) := enterStore out storeId true { s with world := world }
    if entered then (true, s) else createAndEnterStore tries s

/-- The name in the index is the id unless another one is given. -/
def putIndex (storeId : Bytes) (name : Option Bytes) (indexed : BitVec 64) (s : State World) :
    State World :=
  { s with world := out.putIndex storeId (cstring (name.getD storeId)) indexed s.world }

def dirpath (cli : StoreCli) (name : Bytes) : PathUse :=
  ⟨name, snprintf storeMaxdirpath (cli.storePath ++ 47 :: cstring name)⟩

def handleStoreOpen (req : StoreEnteredReq) (s : State World) : Response × State World :=
  let s := { s with cli := { s.cli with openFd := out.nullfd, openErrno := eacces } }
  let name := req.openPath.getD []
  if cstring name = [] ∨ ¬ IsValidPath req.openPath then
    (.fd s.cli.openFd s.cli.openErrno, s)
  else
    let use := dirpath s.cli name
    let flags := req.openFlags.setWidth 32
    let mode := if flags &&& oCreat ≠ 0#32 then some 0o600 else none
    let (result, world) := out.openFile use.path flags mode s.world
    let s := { s with uses := s.uses ++ [use], world := world }
    match result with
    | .error errno =>
      let s := { s with cli := { s.cli with openErrno := errno } }
      (.fd s.cli.openFd s.cli.openErrno, s)
    | .ok openFd =>
      let s := { s with cli := { s.cli with openFd := openFd, openErrno := 0 } }
      (.fd s.cli.openFd s.cli.openErrno, s)

def handleStoreRename (req : StoreEnteredReq) (s : State World) : Response × State World :=
  if ¬ IsValidPath req.renameFrom then
    (.status none (some (ascii "rename: invalid 'from' path")), s)
  else if ¬ IsValidPath req.renameTo then
    (.status none (some (ascii "rename: invalid 'to' path")), s)
  else
    let fromPath := dirpath s.cli (req.renameFrom.getD [])
    let toPath := dirpath s.cli (req.renameTo.getD [])
    let (err, world) := out.rename fromPath.path toPath.path s.world
    let s := { s with uses := s.uses ++ [fromPath, toPath], world := world }
    (.status none (err.map fun errno =>
      snprintf storeMaxdirpath (ascii "rename: " ++ out.strerror errno)), s)

def onReadentered (req : Option StoreEnteredReq) (s : State World) : Response × State World :=
  match req with
  | none => writeErrResponse "open request parse error" s
  | some req =>
    if lenOf req.action = 0 then writeErrResponse "missing 'action' field in request" s
    else if strEq req.action "open" then handleStoreOpen out req s
    else if strEq req.action "rename" then handleStoreRename out req s
    else writeErrResponse "unknown 'action' field in request" s

def handleStoreList (req : StoreReq) (s : State World) : Response × State World :=
  let storeId := req.storeId.getD []
  let response (errmsg : Option Bytes) (buf : Bytes) : Response × State World :=
    (.list errmsg buf, { s with cli := { s.cli with buf := [] } })
  if lenOf req.storeId > 0 ∧ ¬ IsValidStoreId storeId then
    response (some (ascii "invalid store ID")) s.cli.buf
  else if lenOf req.listMustMatch > 0 ∧ ¬ out.regcomp (cstring (req.listMustMatch.getD [])) then
    response (some (ascii "failed to compile must-match ERE")) s.cli.buf
  else
    let mustMatch :=
      if lenOf req.listMustMatch > 0 then req.listMustMatch.map cstring else none
    if lenOf req.storeId > 0 then
      response none (out.listStoreContent
        (snprintf storeMaxdirpath (subdirOf storeId ++ 47 :: cstring storeId)) mustMatch s.world)
    else response none (out.listStores mustMatch s.world)

/-- What follows on the call that enters a store. -/
def onEntered (req : StoreReq) : Bool × State World → Response × State World
  | (entered, s) =>
    if ¬ entered then writeErrResponse "unable to enter store" s
    else
      let s :=
        if req.index ≠ 0 then putIndex out (storeIdOf s.cli) req.name req.indexed s else s
      (.status (some (storeIdOf s.cli)) none, { s with phase := .readentered })

/-- The branch of `on_readreq` for the action `enter`. -/
def onEnter (req : StoreReq) (s : State World) : Response × State World :=
  match req.storeId with
  | some storeId => onEntered out req (enterStore out storeId false s)
  | none => onEntered out req (createAndEnterStore out maxtriesGenstore s)

/-- The branch for the action `index`. -/
def onIndex (s : State World) : Response × State World :=
  let (result, world) :=
    match out.openIndex s.world with
    | (.error errno, world) =>
      if errno = enoent then out.openIndex (out.reinitIndex world) else (.error errno, world)
    | (.ok openFd, world) => (.ok openFd, world)
  let cli :=
    match result with
    | .error errno => { s.cli with openFd := out.nullfd, openErrno := errno }
    | .ok openFd => { s.cli with openFd := openFd, openErrno := 0 }
  (.fd cli.openFd cli.openErrno, { s with phase := .finished, cli := cli, world := world })

def onReadreq (req : Option StoreReq) (s : State World) : Response × State World :=
  match req with
  | none => writeErrResponse "store request parse error" s
  | some req =>
    if lenOf req.action = 0 then writeErrResponse "missing store action" s
    else if strEq req.action "enter" then onEnter out req s
    else if strEq req.action "index" then onIndex out s
    else if strEq req.action "list" then handleStoreList out req s
    else writeErrResponse "invalid store action" s

/-- One message of the client; without a callback it is not read. -/
def step (s : State World) (message : Message) : Option Response × State World :=
  match s.phase with
  | .readreq => (onReadreq out message.storeReq s).map some id
  | .readentered => (onReadentered out message.storeEnteredReq s).map some id
  | .finished => (none, s)

/-- `store_on_readable`: nothing of the client has been read. -/
def storeOnReadable (cli : StoreCli) (world : World) : State World := ⟨.readreq, cli, [], world⟩

def serve (s : State World) (messages : List Message) : State World :=
  messages.foldl (fun s message => (step out s message).2) s

end Yans.Apps.Stored
