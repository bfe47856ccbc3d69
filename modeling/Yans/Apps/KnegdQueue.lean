import Mathlib.Algebra.Ring.Int.Defs
import Yans.Apps.Knegd

/-! `apps/knegd/kng.c`: the directory of the persistent queue. An entry is a
file below a directory that is named after the time, and below `ids` there is a
link to it from the id of its request. System calls on paths are a structure of
functions on the state of the file system. -/
namespace Yans.Apps.Knegd

open Library.Memory Library.Strings Util

/-- Errors are values of `errno`. `create` opens a file to write it, `write` puts
the message of a request at its start, and `nextFile` is the walk over the files
of the queue. -/
structure Fs (World : Type) where
  time : World → ℤ × World
  mkdir : Bytes → World → Option ℤ × World
  create : Bytes → World → Option ℤ × World
  write : Bytes → KnegdReq → World → Option ℤ × World
  unlink : Bytes → World → Option ℤ × World
  symlink : Bytes → Bytes → World → Option ℤ × World
  stat : Bytes → World → Bool × World
  nextFile : World → Option (Bytes × ℤ) × World
  openFile : Bytes → World → Bool × World
  recvmsg : Bytes → World → Option KnegdReq × World
  strerror : ℤ → Bytes

def enoent : ℤ := 2
def e2big : ℤ := 7
def eexist : ℤ := 17

structure Kngq where
  basepath : Bytes
  err : ℤ
  seq : ℕ
deriving DecidableEq

/-- A path that was made from an id and given to a system call. -/
structure LinkUse where
  id : Bytes
  path : Bytes
deriving DecidableEq

/-- The queue, the paths made from ids so far, and the file system. -/
structure Queue (World : Type) where
  kngq : Kngq
  uses : List LinkUse
  world : World

def pathSize : ℕ := 512

/-- What `snprintf` leaves in an array of `size` bytes, up to its end. -/
def snprintf (size : ℕ) (text : Bytes) : Bytes := text.take (size - 1)

/-- The four bits of a number that start at the bit `4 * i`, as a digit. -/
def hexDigit (n i : ℕ) : UInt8 :=
  let digit := n / 16 ^ i % 16
  UInt8.ofNat (if digit < 10 then 48 + digit else 87 + digit)

/-- A `time_t` as `"%.08lx"` prints it. -/
def timestrOf (t : ℤ) : Bytes :=
  let digits := (List.range 16).reverse.map (hexDigit (t % 2 ^ 64).toNat)
  (digits.take 8).dropWhile (· = 48) ++ digits.drop 8

/-- The two digits that name the directory of an entry. -/
def subdirOf (timestr : Bytes) : Bytes := (timestr.drop (timestr.length - 4)).take 2

variable {World : Type} (fs : Fs World)

def setErr (err : ℤ) (q : Queue World) : Queue World := { q with kngq := { q.kngq with err := err } }

/-- `none` is the failed assertion that an id has more than two characters. -/
def kngqMklinkdirpath (kngq : Kngq) (id : Bytes) : Option Bytes :=
  if id.length > 2 then
    some (snprintf pathSize (kngq.basepath ++ ascii "/ids/" ++ id.drop (id.length - 2)))
  else none

def dstpathOf (dirpath id : Bytes) : Bytes := dirpath ++ 47 :: id

/-- `symlink`, with the path made from the id. -/
def symlinkId (srcpath id dstpath : Bytes) (q : Queue World) : Option ℤ × Queue World :=
  let (err, world) := fs.symlink srcpath dstpath q.world
  (err, { q with uses := q.uses ++ [⟨id, dstpath⟩], world := world })

def mkdir (path : Bytes) (q : Queue World) : Option ℤ × Queue World :=
  let (err, world) := fs.mkdir path q.world
  (err, { q with world := world })

/-- The directory of the link is made if it is missing. -/
def makeLink (srcpath dirpath id : Bytes) (q : Queue World) : Option ℤ × Queue World :=
  let (err, q) := symlinkId fs srcpath id (dstpathOf dirpath id) q
  if err = some enoent then
    symlinkId fs srcpath id (dstpathOf dirpath id) (mkdir fs dirpath q).2
  else (err, q)

def kngqLinkId (id srcpath : Bytes) (q : Queue World) : Option (Bool × Queue World) := do
  let dirpath ← kngqMklinkdirpath q.kngq id
  if (dstpathOf dirpath id).length > pathSize - 1 then return (false, setErr e2big q)
  else
    match makeLink fs srcpath dirpath id q with
    | (some err, q) => return (false, setErr err q)
    | (none, q) => return (true, q)

def kngqUnlinkId (id : Bytes) (q : Queue World) : Option (Bool × Queue World) := do
  let dirpath ← kngqMklinkdirpath q.kngq id
  let dstpath := dstpathOf dirpath id
  if dstpath.length > pathSize - 1 then return (false, setErr e2big q)
  else
    let (err, world) := fs.unlink dstpath q.world
    let q := { q with uses := q.uses ++ [⟨id, dstpath⟩], world := world }
    match err with
    | some err => return (false, setErr err q)
    | none => return (true, q)

def kngqContains (id : Bytes) (q : Queue World) : Option (Bool × Queue World) := do
  let dirpath ← kngqMklinkdirpath q.kngq id
  let dstpath := dstpathOf dirpath id
  if dstpath.length > pathSize - 1 then return (false, setErr e2big q)
  else
    let (found, world) := fs.stat dstpath q.world
    return (found, { q with uses := q.uses ++ [⟨id, dstpath⟩], world := world })

def unlink (path : Bytes) (q : Queue World) : Queue World :=
  { q with world := (fs.unlink path q.world).2 }

/-- The path of a new entry, which takes a number of the queue. -/
def entryPath (kngq : Kngq) (timestr : Bytes) : Bytes :=
  snprintf pathSize (kngq.basepath ++ 47 :: subdirOf timestr ++ 47 :: timestr ++
    45 :: Library.Decimal.numeral kngq.seq)

def relpathOf (path : Bytes) : Bytes := if path.head? = some 47 then path else ascii "../../../" ++ path

/-- `kngq_put` once the file of the entry is open. -/
def kngqPutOpened (req : KnegdReq) (path : Bytes) (q : Queue World) :
    Option (Bool × Queue World) := do
  let (err, world) := fs.write path req q.world
  let q := { q with world := world }
  match err with
  | some err => return (false, unlink fs path (setErr err q))
  | none =>
    if (relpathOf path).length > pathSize - 1 then return (false, unlink fs path (setErr e2big q))
    else
      let (linked, q) ← kngqLinkId fs (cstring (req.id.getD [])) (relpathOf path) q
      if linked then return (true, q) else return (false, unlink fs path q)

/-- `kngq_put` once the directory of the entry is there. -/
def kngqPutIn (req : KnegdReq) (timestr : Bytes) (q : Queue World) : Option (Bool × Queue World) :=
  let path := entryPath q.kngq timestr
  let q := { q with kngq := { q.kngq with seq := (q.kngq.seq + 1) % 2 ^ 64 } }
  match fs.create path q.world with
  | (some err, world) => some (false, setErr err { q with world := world })
  | (none, world) => kngqPutOpened fs req path { q with world := world }

def kngqPut (req : KnegdReq) (q : Queue World) : Option (Bool × Queue World) :=
  let (now, world) := fs.time q.world
  let timestr := timestrOf now
  let subdir := snprintf pathSize (q.kngq.basepath ++ 47 :: subdirOf timestr)
  match fs.mkdir subdir world with
  | (none, world) => kngqPutIn fs req timestr { q with world := world }
  | (some err, world) =>
    let q := { q with world := world }
    if err ≠ eexist then some (false, setErr err q) else kngqPutIn fs req timestr q

/-- `kngq_next` once the file of the entry is open. -/
def kngqNextOpened (path : Bytes) (ctime : ℤ) (q : Queue World) : Option (Next × Queue World) :=
  match fs.recvmsg path q.world with
  | (none, world) => some (.failure, unlink fs path { q with world := world })
  | (some req, world) => do
    let q := { q with world := world }
    let q ←
      match req.id with
      | some id => (kngqUnlinkId fs (cstring id) q).map Prod.snd
      | none => some q
    return (.entry req ctime, unlink fs path q)

def kngqNext (q : Queue World) : Option (Next × Queue World) :=
  match fs.nextFile q.world with
  | (none, world) => some (.empty, { q with world := world })
  | (some (path, ctime), world) =>
    let (opened, world) := fs.openFile path world
    let q := { q with world := world }
    if opened then kngqNextOpened fs path ctime q else some (.failure, unlink fs path q)

/-- The start of a daemon, with a new number for the entries. -/
def kngqInit (q : Queue World) : Bool × Queue World :=
  let q := { q with kngq := { q.kngq with err := 0, seq := 0 } }
  let (err, q) := mkdir fs q.kngq.basepath q
  if err.any (· ≠ eexist) then (false, q)
  else
    let (err, q) := mkdir fs (snprintf 256 (q.kngq.basepath ++ ascii "/ids")) q
    (¬ err.any (· ≠ eexist), q)

def kngqStrerror (kngq : Kngq) : Bytes :=
  if kngq.err = 0 then ascii "unknown error" else fs.strerror kngq.err

def Outside.withQueue (rest : Outside World) : Outside (Queue World) where
  children q := rest.children q.world
  enter id name q :=
    let (resp, world) := rest.enter id name q.world
    (resp, { q with world := world })
  clock q :=
    let (started, world) := rest.clock q.world
    (started, { q with world := world })
  openLog q :=
    let (err, world) := rest.openLog q.world
    (err, { q with world := world })
  fork exec q :=
    let (pid, world) := rest.fork exec q.world
    (pid, { q with world := world })
  time q :=
    let (now, world) := rest.time q.world
    (now, { q with world := world })
  manifest q :=
    let (file, world) := rest.manifest q.world
    (file, { q with world := world })
  queueInit := kngqInit fs
  queuePut req q := (kngqPut fs req q).map fun (put, q) =>
    (if put then none else some (kngqStrerror fs q.kngq), q)
  queueNext := kngqNext fs
  queueContains id := kngqContains fs (cstring id)
  reap pid q := { q with world := rest.reap pid q.world }

end Yans.Apps.Knegd
