import Yans.Library.RobinHood.Remove
import Yans.Library.Strings
import Yans.Util.TableSize

/-! `lib/util/objtbl.c`: a table of objects with a hash and a comparison
supplied by the caller. An entry is empty when its cached hash is zero, so a
computed hash of zero is stored as one. `none` for an object argument is the
null pointer; allocation is taken to succeed. -/
namespace Yans.Util.Objtbl

open Library.RobinHood TableSize

inductive ObjtblCode where
  | ok
  | enotfound
  | efull
  | einval
  | enoslot
  | enomem
deriving DecidableEq

structure ObjtblEntry (Obj : Type) where
  hash : UInt32
  distance : ℕ
  value : Obj
deriving DecidableEq

structure ObjtblOpts (Obj : Type) where
  hashseed : UInt32
  hashfunc : Obj → UInt32 → UInt32
  cmpfunc : Obj → Obj → ℤ

structure ObjtblHeader (Obj : Type) where
  cap : UInt32
  size : UInt32
  modmask : UInt32
  rehashLimit : UInt32
  opts : ObjtblOpts Obj

structure ObjtblCtx (Obj : Type) where
  header : ObjtblHeader Obj
  entries : List (ObjtblEntry Obj)

variable {Obj : Type} [Inhabited Obj]

def entryLayout : Layout (ObjtblEntry Obj) Obj where
  isEmpty entry := entry.hash == 0
  distance := ObjtblEntry.distance
  item := ObjtblEntry.value
  withDistance entry d := { entry with distance := d }
  zero := ⟨0, 0, default⟩
  isEmpty_zero := rfl
  isEmpty_withDistance _ _ := rfl
  distance_withDistance _ _ := rfl
  item_withDistance _ _ := rfl

def tableIndex (header : ObjtblHeader Obj) (val : UInt32) : UInt32 :=
  val &&& header.modmask

/-- `TABLE_INDEX` on a position, as the loops use it. -/
def nextIndex (header : ObjtblHeader Obj) (position : ℕ) : ℕ :=
  (tableIndex header (UInt32.ofNat position)).toNat

def calchash (opts : ObjtblOpts Obj) (keyobj : Obj) : UInt32 :=
  let h := opts.hashfunc keyobj opts.hashseed
  if h = 0 then h + 1 else h

def startPos (header : ObjtblHeader Obj) (keyobj : Obj) : ℕ :=
  (tableIndex header (calchash header.opts keyobj)).toNat

def initHeader (opts : ObjtblOpts Obj) (nslots : UInt32) : Option (ObjtblHeader Obj) :=
  let cap := roundUpPow2 nslots
  if cap < nslots then none
  else some
    { cap := cap
      size := 0
      modmask := cap - 1
      rehashLimit := TableSize.rehashLimit cap
      opts := opts }

def initTable (opts : ObjtblOpts Obj) (nslots : UInt32) : Option (ObjtblCtx Obj) := do
  let header ← initHeader opts nslots
  pure { header := header, entries := List.replicate header.cap.toNat entryLayout.zero }

/-- The test of `find_table_entry` at one slot: here the two reasons to stop
come before the comparison. -/
def findJudge (opts : ObjtblOpts Obj) (keyobj : Obj) (elem : ObjtblEntry Obj) (distance : ℕ) :
    Verdict :=
  if elem.hash = 0 ∨ elem.distance < distance then .stop
  else if opts.cmpfunc keyobj elem.value = 0 then .found
  else .next

def findTableEntry (tbl : ObjtblCtx Obj) : Option Obj → Option (Option ℕ)
  | none => some none
  | some keyobj =>
    let start := startPos tbl.header keyobj
    probe entryLayout (nextIndex tbl.header) (findJudge tbl.header.opts keyobj) tbl.entries start
      tbl.header.cap.toNat start 0

def objtblGet (tbl : ObjtblCtx Obj) (keyobj : Option Obj) :
    Option (ObjtblCode × Option Obj) := do
  match ← findTableEntry tbl keyobj with
  | none => pure (.enotfound, none)
  | some index => pure (.ok, some (entryLayout.entryAt tbl.entries index).value)

def objtblContains (tbl : ObjtblCtx Obj) (keyobj : Option Obj) : Option Bool := do
  match ← findTableEntry tbl keyobj with
  | none => pure false
  | some _ => pure true

def objtblRemove (tbl : ObjtblCtx Obj) (keyobj : Option Obj) :
    Option (ObjtblCode × ObjtblCtx Obj) := do
  match ← findTableEntry tbl keyobj with
  | none => pure (.enotfound, tbl)
  | some index =>
    let entries ← shift entryLayout (nextIndex tbl.header) tbl.header.cap.toNat tbl.entries
      index (nextIndex tbl.header (index + 1))
    pure (.ok, { header := { tbl.header with size := tbl.header.size - 1 }, entries := entries })

def setTableValue (tbl : ObjtblCtx Obj) : Option Obj → Option (ObjtblCode × ObjtblCtx Obj)
  | none => some (.einval, tbl)
  | some obj =>
    if tbl.header.size ≥ tbl.header.cap then some (.efull, tbl)
    else do
      let hash := calchash tbl.header.opts obj
      let start := startPos tbl.header obj
      -- the comparison is with the object given, also after a swap
      match ← place entryLayout (nextIndex tbl.header)
          (fun curr => tbl.header.opts.cmpfunc obj curr.value == 0) start
          tbl.header.cap.toNat tbl.entries ⟨hash, 0, obj⟩ start with
      | .filled entries =>
        pure (.ok, { header := { tbl.header with size := tbl.header.size + 1 }, entries := entries })
      | .hit entries position elem => pure (.ok, { tbl with entries := entries.set position elem })
      | .noSlot entries => pure (.enoslot, { tbl with entries := entries })

/-- One iteration of the reinsertion loop of `grow`. -/
def growStep (table : ObjtblCtx Obj) (entry : ObjtblEntry Obj) : Option (ObjtblCtx Obj) :=
  if entry.hash = 0 then some table
  else (setTableValue table (some entry.value)).map Prod.snd

def grow (tbl : ObjtblCtx Obj) : Option (ObjtblCode × ObjtblCtx Obj) :=
  let newCap := tbl.header.cap <<< 1
  if newCap < tbl.header.cap then some (.enomem, tbl)
  else match initTable tbl.header.opts newCap with
    | none => some (.enomem, tbl)
    | some table => do
      let table ← tbl.entries.foldlM growStep table
      pure (.ok, table)

def objtblInit (opts : ObjtblOpts Obj) (nslots : UInt32) : Option (ObjtblCtx Obj) :=
  let nslots := if nslots = 0 then 1 else nslots
  let cap := rehashRoundUp nslots
  if cap < nslots then none else initTable opts cap

def objtblInsert (tbl : ObjtblCtx Obj) (obj : Option Obj) :
    Option (ObjtblCode × ObjtblCtx Obj) := do
  if tbl.header.size ≥ tbl.header.rehashLimit then
    match ← grow tbl with
    | (.ok, tbl) => setTableValue tbl obj
    | (code, tbl) => pure (code, tbl)
  else setTableValue tbl obj

/-- `copy_table` duplicates the header and all `cap` entries. -/
def objtblCopy (src : ObjtblCtx Obj) : ObjtblCtx Obj :=
  { header := src.header, entries := src.entries.take src.header.cap.toNat }

/-- The loop of `objtbl_foreach` from some entry on. The callback threads its
own data and continues with a result of one. -/
def foreachLoop {Data : Type} (size : UInt32) (func : Data → Obj → ℤ × Data) :
    List (ObjtblEntry Obj) → UInt32 → Data → ℤ × Data
  | [], _, data => (0, data)
  | entry :: rest, nseen, data =>
    if nseen < size then
      if entry.hash = 0 then foreachLoop size func rest nseen data
      else
        let (ret, data) := func data entry.value
        if ret ≠ 1 then (ret, data) else foreachLoop size func rest (nseen + 1) data
    else (0, data)

def objtblForeach {Data : Type} (ctx : ObjtblCtx Obj) (func : Data → Obj → ℤ × Data)
    (data : Data) : ℤ × Data :=
  foreachLoop ctx.header.size func (ctx.entries.take ctx.header.cap.toNat) 0 data

/-- `objtbl_val`; an empty entry has the null pointer. -/
def objtblVal (tbl : ObjtblCtx Obj) (i : ℕ) : Option Obj :=
  let entry := entryLayout.entryAt tbl.entries i
  if entry.hash = 0 then none else some entry.value

/-- What `qsort_r` promises of a comparison that orders the given elements. The
order of elements that compare equal is open. -/
structure Qsort (α : Type) where
  sort : (α → α → ℤ) → List α → List α
  perm : ∀ cmp elems, (sort cmp elems).Perm elems
  sorted : ∀ cmp elems, (∀ a ∈ elems, ∀ b ∈ elems, cmp a b ≤ 0 ∨ cmp b a ≤ 0) →
    (∀ a ∈ elems, ∀ b ∈ elems, ∀ c ∈ elems, cmp a b ≤ 0 → cmp b c ≤ 0 → cmp a c ≤ 0) →
    (sort cmp elems).Pairwise fun a b => cmp a b ≤ 0

def keycmp (opts : ObjtblOpts Obj) (ent0 ent1 : ObjtblEntry Obj) : ℤ :=
  if ent0.hash = 0 ∧ ent1.hash = 0 then 0
  else if ent0.hash = 0 ∧ ent1.hash ≠ 0 then 1
  else if ent0.hash ≠ 0 ∧ ent1.hash = 0 then -1
  else -opts.cmpfunc ent0.value ent1.value

def objtblSort (qsort : Qsort (ObjtblEntry Obj)) (tbl : ObjtblCtx Obj) : ObjtblCtx Obj :=
  { tbl with entries := qsort.sort (keycmp tbl.header.opts) tbl.entries }

def fnv1aStep (hash : UInt32) (byte : UInt32) : UInt32 := (hash ^^^ byte) * 0x01000193

/-- The hash of a C string; the null pointer gives the seed back. -/
def objtblStrhash (str : Option (List UInt8)) (seed : UInt32) : UInt32 :=
  match str with
  | none => seed
  | some data =>
    let hash := fnv1aStep 0x811c9dc5 (seed &&& 0xff)
    let hash := fnv1aStep hash ((seed >>> 8) &&& 0xff)
    let hash := fnv1aStep hash ((seed >>> 16) &&& 0xff)
    let hash := fnv1aStep hash ((seed >>> 24) &&& 0xff)
    (data.takeWhile (· ≠ 0)).foldl (fun hash byte => fnv1aStep hash byte.toUInt32) hash

/-- `NULLCMP`, followed by a comparison of what two pointers lead to. -/
def nullcmp {α : Type} (cmp : α → α → ℤ) : Option α → Option α → ℤ
  | none, none => 0
  | none, some _ => 1
  | some _, none => -1
  | some left, some right => cmp left right

def objtblStrcmp (k e : Option (List UInt8)) : ℤ := nullcmp Library.Strings.strcmp k e

end Yans.Util.Objtbl
