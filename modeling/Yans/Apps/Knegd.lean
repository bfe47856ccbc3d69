import Mathlib.Data.Finset.Insert
import Yans.Library.Decimal
import Yans.Library.Strings
import Yans.Util.Buf
import Yans.Util.Str

/-! `apps/knegd/kng.c`: the daemon that runs jobs in a bounded number of slots.
What it reaches outside itself (the store, the clock, `fork`, the directory of
the persistent queue) is a structure of functions on the state of the outside
world. Integers are unbounded and `NULL` is `none`. -/
namespace Yans.Apps.Knegd

open Library.Memory Library.Strings Util

/-- A `knegd_req` as the parser delivers it. -/
structure KnegdReq where
  timeout : ℤ
  action : Option Bytes
  id : Option Bytes
  name : Option Bytes
  type : Option Bytes
deriving DecidableEq

/-- The `len` of a string in a request. -/
def lenOf (data : Option Bytes) : ℕ := (data.getD []).length

/-- The string is `NULL` or starts with its end. -/
def IsEmpty (data : Option Bytes) : Prop := cstring (data.getD []) = []

instance (data : Option Bytes) : Decidable (IsEmpty data) :=
  inferInstanceAs (Decidable (_ = _))

def strEq (s : Option Bytes) (literal : String) : Prop := strcmp (s.getD []) (ascii literal) = 0

instance (s : Option Bytes) (literal : String) : Decidable (strEq s literal) :=
  inferInstanceAs (Decidable (_ = _))

structure KngJob where
  sentSigterm : Bool
  stopped : Bool
  /-- The seconds of the monotonic clock at the start. -/
  started : ℤ
  timeout : ℤ
  pid : ℤ
  id : Bytes
deriving DecidableEq

/-- The options; `main` and `kng_set_timeout` only set positive numbers. -/
structure KngOpts where
  nqueueslots : ℤ
  timeout : ℤ
  nqueueslots_pos : 0 < nqueueslots
  timeout_pos : 0 < timeout

structure KngQueue where
  nslots : ℤ
  nrunning : ℤ
  lastQueuedFor : ℤ
deriving DecidableEq

/-- What can go wrong in `job_new`. -/
inductive StartError where
  | jobType | memory | storeConnection | yclMsgInit | enterSerialization | enterSend
  | enterReceive | enterParse | enterFailed | noStoreId | clock | openCreate | openSend
  | openLog | fork
deriving DecidableEq

def StartError.text : StartError → String
  | .jobType => "empty or invalid job type"
  | .memory => "insufficient memory"
  | .storeConnection => "store connection failure"
  | .yclMsgInit => "ycl msg initialization failure"
  | .enterSerialization => "enter request serialization error"
  | .enterSend => "failed to send enter request"
  | .enterReceive => "failed to receive enter response"
  | .enterParse => "failed to parse enter response"
  | .enterFailed => "enter request failed"
  | .noStoreId => "failed to receive store ID"
  | .clock => "clock_gettime failure"
  | .openCreate => "failed to create store open message"
  | .openSend => "failed to send store open message"
  | .openLog => "failed to open log file"
  | .fork => "fork failure"

/-- The answer of the store to an `enter` request. -/
structure StatusResp where
  errmsg : Option Bytes
  okmsg : Option Bytes

/-- The environment and the arguments of the program a job runs. -/
structure Exec where
  type : Bytes
  id : Bytes
  timeout : ℤ

/-- What `kngq_next` finds. -/
inductive Next where
  | failure
  | empty
  | entry (req : KnegdReq) (ctime : ℤ)

/-- The world outside the daemon. A function on the queue's directory gives
`none` where the assertion on the length of an id fails. -/
structure Outside (World : Type) where
  /-- The processes that were forked by the daemon and not yet reaped. -/
  children : World → Finset ℤ
  enter : Option Bytes → Option Bytes → World → Except StartError StatusResp × World
  clock : World → Option ℤ × World
  openLog : World → Option StartError × World
  fork : Exec → World → Option ℤ × World
  time : World → ℤ × World
  manifest : World → Option Bytes × World
  queueInit : World → Bool × World
  queuePut : KnegdReq → World → Option (Option Bytes × World)
  queueNext : World → Option (Next × World)
  queueContains : Bytes → World → Option (Bool × World)
  reap : ℤ → World → World

inductive Signal where
  | sigterm
  | sigkill
deriving DecidableEq

/-- The state of the daemon: its globals, the response buffer of each client,
and the calls of `kill` so far. -/
structure State (World : Type) where
  jobs : List KngJob
  kngq : KngQueue
  respbufs : ℤ → Option Buf
  signals : List (ℤ × Signal)
  world : World

inductive Response where
  | ok (msg : Bytes)
  | err (msg : Bytes)
deriving DecidableEq

def clamp (val low high : ℤ) : ℤ := if val < low then low else if val > high then high else val

def kngqNavailable (kngq : KngQueue) : ℤ := clamp (kngq.nslots - kngq.nrunning) 0 kngq.nslots

def kngqUpdateRunning (kngq : KngQueue) (diff : ℤ) : KngQueue :=
  { kngq with nrunning := kngq.nrunning + diff }

def kngqUpdateLastQueuedFor (kngq : KngQueue) (t : ℤ) : KngQueue :=
  { kngq with lastQueuedFor := t }

/-- `VALID_TYPECH`: a lower-case letter, a digit or a hyphen. -/
def IsValidTypech (ch : UInt8) : Prop := 97 ≤ ch ∧ ch ≤ 122 ∨ 48 ≤ ch ∧ ch ≤ 57 ∨ ch = 45

instance (ch : UInt8) : Decidable (IsValidTypech ch) := inferInstanceAs (Decidable (_ ∨ _))

def IsValidType (type : Option Bytes) : Prop :=
  ¬ IsEmpty type ∧ ∀ ch ∈ cstring (type.getD []), IsValidTypech ch

instance (type : Option Bytes) : Decidable (IsValidType type) :=
  inferInstanceAs (Decidable (_ ∧ _))

def idSize : ℕ := 48

variable {World : Type} (out : Outside World) (opts : KngOpts)

/-- `job_new` from the call of `clock_gettime` on. -/
def jobNewEntered (type : Option Bytes) (okmsg : Bytes) (timeoutSec : ℤ) (world : World) :
    Except StartError KngJob × World :=
  match out.clock world with
  | (none, world) => (.error .clock, world)
  | (some started, world) =>
    let timeout := if timeoutSec > 0 then timeoutSec else opts.timeout
    let id := (cstring okmsg).take (idSize - 1)
    match out.openLog world with
    | (some err, world) => (.error err, world)
    | (none, world) =>
      match out.fork ⟨cstring (type.getD []), id, timeout⟩ world with
      | (none, world) => (.error .fork, world)
      | (some pid, world) => (.ok ⟨false, false, started, timeout, pid, id⟩, world)

def jobNew (type id name : Option Bytes) (timeoutSec : ℤ) (world : World) :
    Except StartError KngJob × World :=
  if ¬ IsValidType type then (.error .jobType, world)
  else
    match out.enter id name world with
    | (.error err, world) => (.error err, world)
    | (.ok resp, world) =>
      if ¬ IsEmpty resp.errmsg then (.error .enterFailed, world)
      else if IsEmpty resp.okmsg then (.error .noStoreId, world)
      else jobNewEntered out opts type (resp.okmsg.getD []) timeoutSec world

def jobsFindById (jobs : List KngJob) (id : Bytes) : Option KngJob :=
  jobs.find? fun job => strcmp job.id id = 0

def jobsAdd (jobs : List KngJob) (job : KngJob) : List KngJob := job :: jobs

/-- `none` is the return value -1: there is no job with that pid. -/
def jobsRemove (jobs : List KngJob) (pid : ℤ) : Option (List KngJob) :=
  match jobs with
  | [] => none
  | job :: jobs => if job.pid = pid then some jobs else (jobsRemove jobs pid).map (job :: ·)

def jobsPid (jobs : List KngJob) (id : Bytes) : ℤ :=
  match jobsFindById jobs id with
  | some job => job.pid
  | none => -1

/-- `jobs_stop`: the first job with the id is stopped, with the signal that is
sent. -/
def jobsStop (jobs : List KngJob) (id : Bytes) : List KngJob × List (ℤ × Signal) :=
  match jobs with
  | [] => ([], [])
  | job :: jobs =>
    if strcmp job.id id = 0 then ({ job with stopped := true } :: jobs, [(job.pid, .sigterm)])
    else
      let (jobs, signals) := jobsStop jobs id
      (job :: jobs, signals)

/-- One job in the loop of `jobs_check_times`, with the signals it is sent. -/
def checkTime (now : ℤ) (job : KngJob) : KngJob × List (ℤ × Signal) :=
  if job.sentSigterm then (job, [(job.pid, .sigkill)])
  else if job.stopped then ({ job with sentSigterm := true }, [])
  else if now - job.started ≥ job.timeout then
    ({ job with sentSigterm := true }, [(job.pid, .sigterm)])
  else (job, [])

def jobsCheckTimes (jobs : List KngJob) (world : World) :
    List KngJob × List (ℤ × Signal) × World :=
  match out.clock world with
  | (none, world) => (jobs, [], world)
  | (some now, world) =>
    (jobs.map fun job => (checkTime now job).1, jobs.flatMap fun job => (checkTime now job).2, world)

def startKnegdJob (req : KnegdReq) (s : State World) : Except StartError KngJob × State World :=
  let timeout := if req.timeout > 0 then req.timeout else 0
  match jobNew out opts req.type req.id req.name timeout s.world with
  | (.error err, world) => (.error err, { s with world := world })
  | (.ok job, world) =>
    (.ok job,
      { s with
        jobs := jobsAdd s.jobs job
        kngq := kngqUpdateRunning s.kngq 1
        world := world })

/-- A number as `printf` prints it. -/
def printInt (n : ℤ) : Bytes :=
  if n < 0 then 45 :: Library.Decimal.numeral n.natAbs else Library.Decimal.numeral n.natAbs

def separate (buf : Buf) : Buf := if buf.len > 0 then buf.achar 32 else buf

def appendJobPid (jobs : List KngJob) (s : Bytes) (_len : ℕ) : StateM Buf ℤ := do
  modify separate
  modify fun buf => buf.adata (printInt (jobsPid jobs s))
  return 1

def appendJobPids (jobs : List KngJob) (buf : Buf) (s : Bytes) : Buf :=
  let (_, buf) := (Str.strMapField s [0] (appendJobPid jobs)).run buf
  buf.achar 0

def appendJobStatus (jobs : List KngJob) (s : Bytes) (_len : ℕ) :
    StateT (Buf × World) Option ℤ := do
  modify fun (buf, world) => (separate buf, world)
  let (buf, world) ← get
  if (jobsFindById jobs s).isSome then
    set (buf.adata (ascii "running"), world)
  else
    let (contains, world) ← out.queueContains s world
    set (buf.adata (ascii (if contains then "queued" else "n/a")), world)
  return 1

def appendJobStatuses (jobs : List KngJob) (buf : Buf) (s : Bytes) (world : World) :
    Option (Buf × World) := do
  let (_, buf, world) ← (Str.strMapField s [0] (appendJobStatus out jobs)).run (buf, world)
  return (buf.achar 0, world)

/-- `fgets` into an array of `size` bytes: at most `size - 1` bytes, up to and
with the first newline. -/
def fgets (size : ℕ) (file : Bytes) : Bytes × Bytes :=
  let line := file.take (size - 1)
  let len := min ((line.takeWhile (· ≠ 10)).length + 1) line.length
  (file.take len, file.drop len)

/-- The tokens that `strsep` finds between carriage returns, newlines, tabs and
spaces. -/
def tokens (line : Bytes) : List Bytes := line.splitOnP (· ∈ [13, 10, 9, 32])

def loadLine (buf : Buf) (line : Bytes) : Buf :=
  ((tokens ((cstring line).takeWhile (· ≠ 35))).filter (· ≠ [])).foldl
    (fun buf token => (buf.adata token).achar 10) buf

theorem fgets_shorter {file : Bytes} (h : file ≠ []) : (fgets 128 file).2.length < file.length := by
  have hpos : 0 < file.length := List.length_pos_iff.mpr h
  simp only [fgets, List.length_drop, List.length_take]
  omega

def loadLines (buf : Buf) (file : Bytes) : Buf :=
  if h : file = [] then buf
  else
    have := fgets_shorter h
    loadLines (loadLine buf (fgets 128 file).1) (fgets 128 file).2
termination_by file.length

def loadManifest (buf : Buf) (world : World) : Buf × World :=
  match out.manifest world with
  | (none, world) => (buf, world)
  | (some file, world) => (((loadLines buf file).shrink 1).achar 0, world)

def loadQueueinfo (buf : Buf) (kngq : KngQueue) : Buf :=
  buf.adata (printInt kngq.nrunning ++ 32 :: printInt kngq.nslots ++
    32 :: printInt kngq.lastQueuedFor ++ [0])

/-- What `ycl_recvmsg` and the parser make of what a client sent. -/
inductive Received where
  | again
  | failure
  | malformed
  | request (req : KnegdReq)

def writeErrResponse (errmsg : String) : Option Response := some (.err (ascii errmsg))

def writeOkResponse (msg : Bytes) : Option Response := some (.ok (cstring msg))

def setRespbuf (fd : ℤ) (buf : Buf) (s : State World) : State World :=
  { s with respbufs := Function.update s.respbufs fd (some buf) }

/-- The branch of `on_readreq` for the action `start`. -/
def onStart (fd : ℤ) (respbuf : Buf) (req : KnegdReq) (s : State World) :
    Option Response × State World :=
  match startKnegdJob out opts req s with
  | (.error err, s) => (writeErrResponse err.text, s)
  | (.ok job, s) =>
    let respbuf := respbuf.adata (job.id ++ [0])
    (writeOkResponse respbuf.data, setRespbuf fd respbuf s)

/-- The branch for the action `queue`. -/
def onQueue (req : KnegdReq) (s : State World) : Option (Option Response × State World) :=
  if ¬ IsValidType req.type then some (writeErrResponse "empty or invalid job type", s)
  else if lenOf req.id = 0 then some (writeErrResponse "missing id", s)
  else if 47 ∈ cstring (req.id.getD []) then some (writeErrResponse "invalid id", s)
  else if kngqNavailable s.kngq > 0 then
    match startKnegdJob out opts req s with
    | (.error err, s) => some (writeErrResponse err.text, s)
    | (.ok _, s) =>
      some (writeOkResponse (ascii "OK"), { s with kngq := kngqUpdateLastQueuedFor s.kngq 0 })
  else do
    let (errmsg, world) ← out.queuePut req s.world
    match errmsg with
    | some errmsg => return (some (.err (cstring errmsg)), { s with world := world })
    | none => return (writeOkResponse (ascii "OK"), { s with world := world })

def onIdAction (fd : ℤ) (respbuf : Buf) (req : KnegdReq) (s : State World) :
    Option (Option Response × State World) :=
  let id := req.id.getD []
  if strEq req.action "queue" then onQueue out opts req s
  else if strEq req.action "pids" then
    let respbuf := appendJobPids s.jobs respbuf id
    some (writeOkResponse respbuf.data, setRespbuf fd respbuf s)
  else if strEq req.action "status" then do
    let (respbuf, world) ← appendJobStatuses out s.jobs respbuf id s.world
    return (writeOkResponse respbuf.data, setRespbuf fd respbuf { s with world := world })
  else if strEq req.action "stop" then
    let (jobs, signals) := jobsStop s.jobs id
    some (writeOkResponse (ascii "OK"), { s with jobs := jobs, signals := s.signals ++ signals })
  else some (writeErrResponse "unknown action", s)

/-- `on_readreq` once the request is parsed. -/
def onRequest (fd : ℤ) (respbuf : Buf) (req : KnegdReq) (s : State World) :
    Option (Option Response × State World) :=
  if IsEmpty req.action then some (writeErrResponse "missing action", s)
  else if lenOf req.type > 0 ∧ strEq req.type "MANIFEST" then
    some (writeErrResponse "unable to execute MANIFEST", s)
  else if strEq req.action "start" then some (onStart out opts fd respbuf req s)
  else if strEq req.action "manifest" then
    let (respbuf, world) := loadManifest out respbuf s.world
    some (writeOkResponse respbuf.data, setRespbuf fd respbuf { s with world := world })
  else if strEq req.action "queueinfo" then
    let respbuf := loadQueueinfo respbuf s.kngq
    some (writeOkResponse respbuf.data, setRespbuf fd respbuf s)
  else if IsEmpty req.id then some (writeErrResponse "missing id", s)
  else onIdAction out opts fd respbuf req s

/-- `none` is a failed assertion. -/
def onReadreq (fd : ℤ) (respbuf : Buf) (received : Received) (s : State World) :
    Option (Option Response × State World) :=
  match received with
  | .again => some (none, s)
  | .failure => some (none, s)
  | .malformed => some (writeErrResponse "knegd request parse error", s)
  | .request req => onRequest out opts fd respbuf req s

/-- The loop of `dispatch_n_jobs`, at most `rounds` times; `none` if that is not
enough, or if an assertion fails. -/
def dispatchNJobs (rounds : ℕ) (n : ℤ) (s : State World) : Option (State World) :=
  if n > 0 then
    match rounds with
    | 0 => none
    | rounds + 1 =>
      match out.queueNext s.world with
      | none => none
      | some (.failure, world) => some { s with world := world }
      | some (.empty, world) => some { s with world := world }
      | some (.entry req ctime, world) =>
        let s := { s with world := world }
        if lenOf req.type = 0 ∨ lenOf req.id = 0 then dispatchNJobs rounds n s
        else
          match startKnegdJob out opts req s with
          | (.error _, s) => dispatchNJobs rounds n s
          | (.ok _, s) =>
            let (now, world) := out.time s.world
            dispatchNJobs rounds (n - 1)
              { s with kngq := kngqUpdateLastQueuedFor s.kngq (now - ctime), world := world }
  else some s

/-- The end of `kng_on_svc_reaped_child` and of `kng_mod_init`. -/
def dispatchAvailable (rounds : ℕ) (s : State World) : Option (State World) :=
  let navail := kngqNavailable s.kngq
  if navail > 0 then dispatchNJobs out opts rounds navail s else some s

def kngOnSvcReapedChild (rounds : ℕ) (pid : ℤ) (s : State World) : Option (State World) :=
  let s :=
    match jobsRemove s.jobs pid with
    | some jobs => { s with jobs := jobs, kngq := kngqUpdateRunning s.kngq (-1) }
    | none => s
  dispatchAvailable out opts rounds s

def kngOnTick (s : State World) : State World :=
  let (jobs, signals, world) := jobsCheckTimes out s.jobs s.world
  { s with jobs := jobs, signals := s.signals ++ signals, world := world }

def dflRespbufsz : ℕ := 1024

def kngOnReadable (fd : ℤ) (s : State World) : State World :=
  match s.respbufs fd with
  | some respbuf => setRespbuf fd respbuf.clear s
  | none => setRespbuf fd (Buf.init dflRespbufsz) s

def kngOnFinalize (fd : ℤ) (s : State World) : State World :=
  { s with respbufs := Function.update s.respbufs fd none }

/-- `none` also if the queue's directory cannot be made: the daemon does not
start. -/
def kngModInit (rounds : ℕ) (world : World) : Option (State World) :=
  match out.queueInit world with
  | (false, _) => none
  | (true, world) =>
    dispatchAvailable out opts rounds
      { jobs := [], kngq := ⟨opts.nqueueslots, 0, 0⟩, respbufs := fun _ => none, signals := [],
        world := world }

/-- What happens to the daemon. A child is reaped by the event loop right before
it calls `kng_on_svc_reaped_child`; `elapse` is a change outside the daemon. -/
inductive Event (World : Type) where
  | readable (fd : ℤ)
  | request (fd : ℤ) (received : Received)
  | finalize (fd : ℤ)
  | reapedChild (pid : ℤ)
  | tick
  | elapse (world : World)

/-- One event; `none` where it cannot happen or the daemon does not come back. -/
def step (rounds : ℕ) (s : State World) : Event World → Option (Option Response × State World)
  | .readable fd => some (none, kngOnReadable fd s)
  | .request fd received => do
    let respbuf ← s.respbufs fd
    onReadreq out opts fd respbuf received s
  | .finalize fd => some (none, kngOnFinalize fd s)
  | .reapedChild pid => do
    let s ← kngOnSvcReapedChild out opts rounds pid { s with world := out.reap pid s.world }
    return (none, s)
  | .tick => some (none, kngOnTick out s)
  | .elapse world =>
    if out.children world = out.children s.world then some (none, { s with world := world })
    else none

end Yans.Apps.Knegd
