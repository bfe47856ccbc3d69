import Yans.Util.ObjtblRefinement

/-! `lib/match/component.c`: a registry of software components and the services
they were seen on. Strings are the memory that their pointers lead to, up to a
zero; allocation is taken to succeed. -/
namespace Yans.Match.Component

open Library.Memory Library.Strings Util.Objtbl

/-- What the table reads of a `struct component_entry`. -/
structure ComponentEntry where
  id : ℕ
  name : Option Bytes
  version : Option Bytes
deriving DecidableEq, Inhabited

/-- The array of services of an entry, of which `services` are in use. -/
structure Services where
  services : List ℤ
  scap : ℕ
deriving DecidableEq

/-- The table holds pointers to the entries. Their services, which change while
the entries are in the table, are kept under the entries' ids. -/
structure ComponentCtx where
  sorted : Bool
  componentId : ℕ
  ctbl : ObjtblCtx ComponentEntry
  services : ℕ → Services

def ctblhash (e : ComponentEntry) (seed : UInt32) : UInt32 :=
  objtblStrhash e.version (objtblStrhash e.name seed)

def ctblcmp (l r : ComponentEntry) : ℤ :=
  nullcmp (fun lname rname =>
    let cmp := strcmp lname rname
    if cmp = 0 then nullcmp strcmp l.version r.version else cmp) l.name r.name

def componentEntryHasService (e : Services) (service : ℤ) : Bool :=
  e.services.any (· == service)

/-- The conversion of a number to `int`. -/
def toInt (n : ℤ) : ℤ := n.bmod (2 ^ 32)

def grow (e : Services) : Option Services :=
  let ncap := max (e.scap / 2) 8 + e.scap
  let nbytes := toInt (4 * ncap)
  if nbytes ≤ e.scap then none else some { e with scap := ncap }

/-- `none` if there is no room for another service. -/
def componentEntryAddService (e : Services) (service : ℤ) : Option Services := do
  let e ← if e.services.length = e.scap then grow e else pure e
  pure { e with services := e.services ++ [service] }

/-- `hashseed`, `hashfunc` and `cmpfunc` of `ctbl_opts`. -/
def ctblOpts : ObjtblOpts ComponentEntry := ⟨666, ctblhash, ctblcmp⟩

def initialCtblSize : UInt32 := 64

def componentInit : Option ComponentCtx := do
  let ctbl ← objtblInit ctblOpts initialCtblSize
  pure { sorted := false, componentId := 1, ctbl := ctbl, services := fun _ => ⟨[], 0⟩ }

/-- Add a service to an entry that does not have it; a failure is not looked at. -/
def registerService (c : ComponentCtx) (obj : ComponentEntry) (serviceId : ℤ) : ComponentCtx :=
  if componentEntryHasService (c.services obj.id) serviceId then c
  else
    match componentEntryAddService (c.services obj.id) serviceId with
    | none => c
    | some services => { c with services := Function.update c.services obj.id services }

/-- The result is zero or minus one; `none` is a call that does not return. -/
def componentRegister (c : ComponentCtx) (name version : Option Bytes) (serviceId : ℤ) :
    Option (ℤ × ComponentCtx) :=
  if c.sorted then some (-1, c)
  else do
    match ← objtblGet c.ctbl (some ⟨0, name, version⟩) with
    | (.enotfound, _) =>
      -- the strings are copied up to their ends
      let obj := ⟨c.componentId, name.map cstring, version.map cstring⟩
      match ← objtblInsert c.ctbl (some obj) with
      | (.ok, ctbl) =>
        let c :=
          { c with
            ctbl := ctbl
            componentId := c.componentId + 1
            services := Function.update c.services c.componentId ⟨[], 0⟩ }
        pure (0, registerService c obj serviceId)
      | (_, ctbl) => pure (-1, { c with ctbl := ctbl })
    | (_, some obj) => pure (0, registerService c obj serviceId)
    -- the object of an entry is never the null pointer
    | (_, none) => none

/-- The subtraction is one of `unsigned int`, and its result converted back. -/
def componentIdcmp (left right : ComponentEntry) : ℤ :=
  toInt (((right.id : ℤ) - 1) - ((left.id : ℤ) - 1))

def sortComponents (qsort : Qsort (ObjtblEntry ComponentEntry)) (c : ComponentCtx) :
    ComponentCtx :=
  if c.sorted then c
  else
    let header := { c.ctbl.header with opts := { c.ctbl.header.opts with cmpfunc := componentIdcmp } }
    { c with ctbl := objtblSort qsort { c.ctbl with header := header }, sorted := true }

/-- The callback gets its own data and an entry with its services. -/
def componentForeach {Data : Type} (qsort : Qsort (ObjtblEntry ComponentEntry)) (c : ComponentCtx)
    (func : Data → ComponentEntry × List ℤ → ℤ × Data) (data : Data) :
    (ℤ × Data) × ComponentCtx :=
  let c := sortComponents qsort c
  (objtblForeach c.ctbl (fun data e => func data (e, (c.services e.id).services)) data, c)

/-! What the comparison finds out -/

/-- Entries without a name are all the same to the comparison. -/
def ctblKey (e : ComponentEntry) : Option (Bytes × Option Bytes) :=
  e.name.map fun name => (cstring name, e.version.map cstring)

theorem ctblcmp_eq_zero_iff {l r : ComponentEntry} : ctblcmp l r = 0 ↔ ctblKey l = ctblKey r := by
  unfold ctblcmp ctblKey
  cases l.name with
  | none => cases r.name <;> simp [nullcmp]
  | some lname =>
    cases r.name with
    | none => simp [nullcmp]
    | some rname =>
      have hversions : nullcmp strcmp l.version r.version = 0 ↔
          l.version.map cstring = r.version.map cstring := objtblStrcmp_eq_zero_iff
      rw [nullcmp, Option.map_some, Option.map_some, Option.some.injEq, Prod.mk.injEq,
        ← hversions, ← strcmp_eq_zero_iff]
      dsimp only
      split
      · rename_i hzero
        exact (and_iff_right hzero).symm
      · rename_i hne
        exact iff_of_false hne fun h => hne h.1

theorem consistent_of_name : Consistent ctblhash ctblcmp (fun e => e.name.isSome) := by
  apply Consistent.of_key ctblKey fun _ _ _ _ => ctblcmp_eq_zero_iff
  intro a b ha hb h seed
  obtain ⟨name, hname⟩ := Option.isSome_iff_exists.mp ha
  obtain ⟨name', hname'⟩ := Option.isSome_iff_exists.mp hb
  rw [ctblKey, ctblKey, hname, hname', Option.map_some, Option.map_some, Option.some.injEq,
    Prod.mk.injEq] at h
  have hnames : a.name.map cstring = b.name.map cstring := by rw [hname, hname']; simpa using h.1
  rw [ctblhash, ctblhash, objtblStrhash_congr hnames, objtblStrhash_congr h.2]

end Yans.Match.Component
