import Yans.Library.RobinHood.Remove
import Yans.Util.TableSize

/-! `lib/util/idtbl.c`: a table from 32-bit ids to pointers. Keys are stored
incremented, so that a zeroed entry is an empty one. Allocation is taken to
succeed; the remaining source of `IDTBL_ENOMEM` is 32-bit capacity arithmetic.
A loop that does not end within one turn of the table is `none`. -/
namespace Yans.Util.Idtbl

open Library.RobinHood TableSize

inductive IdtblCode where
  | ok
  | enotfound
  | efull
  | einval
  | enoslot
  | enomem
deriving DecidableEq

/-- The `distance` is an `int32_t`, never negative and below the capacity; a
key of zero marks an empty slot. The default of `Value` is the null pointer. -/
structure IdtblEntry (Value : Type) where
  distance : ℕ
  key : UInt32
  value : Value
deriving DecidableEq

structure IdtblHeader where
  cap : UInt32
  size : UInt32
  hashseed : UInt32
  modmask : UInt32
  rehashLimit : UInt32
deriving DecidableEq

structure IdtblCtx (Value : Type) where
  header : IdtblHeader
  entries : List (IdtblEntry Value)
deriving DecidableEq

def uint32Max : UInt32 := 0xffffffff

def fnv1aOffset : UInt32 := 0x811c9dc5
def fnv1aPrime : UInt32 := 0x1000193

/-- One round of the loop in `hashfunc`, on the pair of hash and key. -/
def hashRound (state : UInt32 × UInt32) : UInt32 × UInt32 :=
  ((state.1 ^^^ (state.2 &&& 0xff)) * fnv1aPrime, state.2 >>> 8)

def hashfunc (key seed : UInt32) : UInt32 :=
  (hashRound^[4] (seed, key)).1

variable {Value : Type} [Inhabited Value]

def entryLayout : Layout (IdtblEntry Value) (UInt32 × Value) where
  isEmpty entry := entry.key == 0
  distance := IdtblEntry.distance
  item entry := (entry.key, entry.value)
  withDistance entry d := { entry with distance := d }
  zero := ⟨0, 0, default⟩
  isEmpty_zero := rfl
  isEmpty_withDistance _ _ := rfl
  distance_withDistance _ _ := rfl
  item_withDistance _ _ := rfl

def tableIndex (header : IdtblHeader) (val : UInt32) : UInt32 :=
  val &&& header.modmask

/-- `TABLE_INDEX` on a position, as the loops use it. -/
def nextIndex (header : IdtblHeader) (position : ℕ) : ℕ :=
  (tableIndex header (UInt32.ofNat position)).toNat

def startPos (header : IdtblHeader) (key : UInt32) : ℕ :=
  (tableIndex header (hashfunc key header.hashseed)).toNat

def initHeader (nslots seed : UInt32) : Option IdtblHeader :=
  let cap := roundUpPow2 nslots
  if cap < nslots then none
  else some
    { cap := cap
      size := 0
      hashseed := hashfunc seed fnv1aOffset
      modmask := cap - 1
      rehashLimit := TableSize.rehashLimit cap }

def initTable (nslots seed : UInt32) : Option (IdtblCtx Value) := do
  let header ← initHeader nslots seed
  pure { header := header, entries := List.replicate header.cap.toNat entryLayout.zero }

/-- The test of `find_table_entry` at one slot: the key first, then the two
reasons to stop. -/
def findJudge (key : UInt32) (elem : IdtblEntry Value) (distance : ℕ) : Verdict :=
  if elem.key = key then .found
  else if elem.key = 0 ∨ elem.distance < distance then .stop
  else .next

def findTableEntry (ctx : IdtblCtx Value) (key : UInt32) : Option (Option ℕ) :=
  let key := key + 1
  let start := startPos ctx.header key
  probe entryLayout (nextIndex ctx.header) (findJudge key) ctx.entries start
    ctx.header.cap.toNat start 0

def idtblGet (ctx : IdtblCtx Value) (key : UInt32) : Option (IdtblCode × Option Value) := do
  match ← findTableEntry ctx key with
  | none => pure (.enotfound, none)
  | some index => pure (.ok, some (entryLayout.entryAt ctx.entries index).value)

def idtblContains (ctx : IdtblCtx Value) (key : UInt32) : Option Bool := do
  match ← findTableEntry ctx key with
  | none => pure false
  | some _ => pure true

def idtblRemove (ctx : IdtblCtx Value) (key : UInt32) : Option (IdtblCode × IdtblCtx Value) := do
  match ← findTableEntry ctx key with
  | none => pure (.enotfound, ctx)
  | some index =>
    let entries ← shift entryLayout (nextIndex ctx.header) ctx.header.cap.toNat ctx.entries
      index (nextIndex ctx.header (index + 1))
    pure (.ok, { header := { ctx.header with size := ctx.header.size - 1 }, entries := entries })

def setTableValue (ctx : IdtblCtx Value) (key : UInt32) (value : Value) :
    Option (IdtblCode × IdtblCtx Value) :=
  if key = uint32Max then some (.einval, ctx)
  else if ctx.header.size ≥ ctx.header.cap then some (.efull, ctx)
  else do
    let key := key + 1
    let start := startPos ctx.header key
    match ← place entryLayout (nextIndex ctx.header) (fun curr => curr.key == key) start
        ctx.header.cap.toNat ctx.entries ⟨0, key, value⟩ start with
    | .filled entries =>
      pure (.ok, { header := { ctx.header with size := ctx.header.size + 1 }, entries := entries })
    | .hit entries position elem => pure (.ok, { ctx with entries := entries.set position elem })
    | .noSlot entries => pure (.enoslot, { ctx with entries := entries })

/-- One iteration of the reinsertion loop of `grow`; the result code of
`set_table_value` is not looked at. -/
def growStep (table : IdtblCtx Value) (entry : IdtblEntry Value) : Option (IdtblCtx Value) :=
  if entry.key = 0 then some table
  else (setTableValue table (entry.key - 1) entry.value).map Prod.snd

def grow (ctx : IdtblCtx Value) : Option (IdtblCode × IdtblCtx Value) :=
  let newCap := ctx.header.cap <<< 1
  if newCap < ctx.header.cap then some (.enomem, ctx)
  else match initTable newCap ctx.header.hashseed with
    | none => some (.enomem, ctx)
    | some table => do
      let table ← ctx.entries.foldlM growStep table
      pure (.ok, table)

def idtblInit (nslots seed : UInt32) : Option (IdtblCtx Value) :=
  let nslots := if nslots = 0 then 1 else nslots
  let cap := rehashRoundUp nslots
  if cap < nslots then none else initTable cap seed

def idtblInsert (ctx : IdtblCtx Value) (key : UInt32) (value : Value) :
    Option (IdtblCode × IdtblCtx Value) := do
  if ctx.header.size ≥ ctx.header.rehashLimit then
    match ← grow ctx with
    | (.ok, ctx) => setTableValue ctx key value
    | (code, ctx) => pure (code, ctx)
  else setTableValue ctx key value

/-- `copy_table` duplicates the header and all `cap` entries. -/
def idtblCopy (src : IdtblCtx Value) : IdtblCtx Value :=
  { header := src.header, entries := src.entries.take src.header.cap.toNat }

end Yans.Util.Idtbl
