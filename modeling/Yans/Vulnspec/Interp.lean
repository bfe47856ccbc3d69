import Yans.Util.Nalphaver
import Yans.Vulnspec.Validator

/-! The evaluator of `lib/vulnspec/interp.c`. It trusts the program it was
loaded with; `Access` records what it reads from there, so that the trust can
be stated. A read outside of the program gives zeros. -/
namespace Yans.Vulnspec

open Library.Memory Library.Walk Util.Vaguever Util.Nalphaver

/-- A string as C passes it around, without its terminating zero. -/
structure CString where
  bytes : Bytes
  no_zero : ∀ byte ∈ bytes, byte ≠ 0
deriving DecidableEq

/-- A read of the program: fields of a node, or a string up to its zero byte. -/
inductive Access where
  | node (offset size : ℕ)
  | string (offset : ℕ)
deriving DecidableEq

def Access.InBounds (data : Bytes) : Access → Prop
  | .node offset size => offset + size ≤ data.length
  | .string offset => Terminated data offset

/-- `struct vulnspec_cve_match`, with the scores as they are in the program. -/
structure CveMatch where
  id : Bytes
  cvss2Base : ℕ
  cvss3Base : ℕ
  desc : Bytes
deriving DecidableEq

/-- The callback is any function of the calls made before and of this one. -/
structure Params where
  cveOnMatch : Option (List CveMatch → CveMatch → ℤ)
  cveVendprod : Option CString
  cveVersion : Option CString
  cveVagueverVersion : VagueverVersion

structure Interp where
  params : Params
  data : Bytes

def vulnspecInit : Interp := ⟨⟨none, none, none, zeroVersion⟩, []⟩

def setCveOnMatch (interp : Interp) (onMatch : Option (List CveMatch → CveMatch → ℤ)) : Interp :=
  { interp with params := { interp.params with cveOnMatch := onMatch } }

def setCveVendprod (interp : Interp) (vendprod : Option CString) : Interp :=
  { interp with params := { interp.params with cveVendprod := vendprod } }

def setCveVersion (interp : Interp) (version : CString) : Interp :=
  { interp with
    params :=
      { interp.params with
        cveVersion := some version
        cveVagueverVersion := vagueverInit version.bytes } }

/-- A program that does not validate leaves the interpreter as it was. -/
def vulnspecLoad (interp : Interp) (data : Bytes) (fuel : ℕ) : Option (Except Code Interp) :=
  (validate data fuel).map fun result => result.map fun () => { interp with data := data }

/-- The parameters of an evaluation that takes place. -/
structure Query where
  vendprod : Bytes
  version : Bytes
  vague : VagueverVersion

/-- Nothing is evaluated without a vendprod and a version. -/
def Params.query (params : Params) : Option Query :=
  match params.cveVersion, params.cveVendprod with
  | some version, some vendprod =>
    if version.bytes = [] ∨ vendprod.bytes = [] then none
    else some ⟨vendprod.bytes, version.bytes, params.cveVagueverVersion⟩
  | _, _ => none

/-- The last switch of `ecompar`. -/
def comparHolds (type : Option NodeType) (cmp : ℤ) : Bool :=
  match type with
  | some .lt => cmp < 0
  | some .le => cmp ≤ 0
  | some .eq => cmp = 0
  | some .ge => cmp ≥ 0
  | some .gt => cmp > 0
  | _ => false

/-- `ecompar` after the node is fetched, with the strings it reads. -/
def ecomparNode (data : Bytes) (query : Query) (node : ComparNode) : Bool × List Cvalue :=
  if stringAt data node.vendprod.offset ≠ query.vendprod then (false, [node.vendprod])
  else
    match node.vtype with
    | .vvague => (comparHolds node.type (vagueverCmp query.vague node.vague), [node.vendprod])
    | .vnalpha =>
      (comparHolds node.type (nalphaverCmp query.version (stringAt data node.cval.offset)),
        [node.vendprod, node.cval])
    | .other _ => (false, [node.vendprod])

/-- The result of evaluating an expression: a truth value or the status to
return at once, with the reads up to there. -/
abbrev Eval := Option (Except Code Bool × List Access)

def Eval.after (accesses : List Access) (rest : Eval) : Eval :=
  rest.map fun (result, reads) => (result, accesses ++ reads)

def ecompar (data : Bytes) (query : Query) (offset : ℕ) : Eval :=
  let (ret, strings) := ecomparNode data query (comparAt data offset)
  some (.ok ret, .node offset comparSize :: strings.map fun cval => .string cval.offset)

mutual

def evulnexpr (data : Bytes) (query : Query) : ℕ → ℕ → Eval
  | 0, _ => none
  | fuel + 1, offset =>
    let access := [Access.node offset typeSize]
    match typeAt data offset with
    | some type =>
      if type.isCompar then (ecompar data query offset).after access
      else if type.isBoolean then (eboolean data query fuel offset false).after access
      else some (.error .einvalidNode, access)
    | none => some (.error .einvalidNode, access)

/-- The loop of `eboolean`, where `ret` is the value of the operand before. -/
def eboolean (data : Bytes) (query : Query) : ℕ → ℕ → Bool → Eval
  | 0, _, _ => none
  | fuel + 1, offset, ret =>
    if offset > 0 then
      let node := booleanAt data offset
      let access := [Access.node offset booleanSize]
      if node.type ≠ some .and ∧ node.type ≠ some .or then some (.error .einvalidNode, access)
      else
        match evulnexpr data query fuel node.value with
        | none => none
        | some (.error err, reads) => some (.error err, access ++ reads)
        | some (.ok ret, reads) =>
          if !ret ∧ node.type = some .and then some (.ok ret, access ++ reads)
          else if ret ∧ node.type = some .or then some (.ok ret, access ++ reads)
          else (eboolean data query fuel node.next ret).after (access ++ reads)
    else some (.ok ret, [])

end

/-- What `vulnspec_eval` returns, the calls of `cve_on_match` and the reads. -/
structure Evaluated where
  status : ℤ
  calls : List CveMatch
  reads : List Access

def Evaluated.after (accesses : List Access) (rest : Evaluated) : Evaluated :=
  { rest with reads := accesses ++ rest.reads }

/-- `longjmp` turns a value of zero into one. -/
def bailStatus (ret : ℤ) : ℤ := if ret = 0 then 1 else ret

def cveMatch (data : Bytes) (cve : CveNode) : CveMatch where
  id := stringAt data cve.id.offset
  cvss2Base := cve.cvss2Base
  cvss3Base := cve.cvss3Base
  desc := stringAt data cve.description.offset

def enodes (data : Bytes) (params : Params) : ℕ → ℕ → List CveMatch → Option Evaluated
  | 0, _, _ => none
  | fuel + 1, offset, calls =>
    if offset > 0 then
      let cve := cveAt data offset
      let access := [Access.node offset cveSize]
      if cve.type ≠ some .cve then some ⟨Code.einvalidNode.toInt, calls, access⟩
      else
        match params.query with
        | none => some ⟨0, calls, access⟩
        | some query =>
          match evulnexpr data query fuel cve.vulnexpr, params.cveOnMatch with
          | none, _ => none
          | some (.error err, reads), _ => some ⟨err.toInt, calls, access ++ reads⟩
          | some (.ok true, reads), some onMatch =>
            let m := cveMatch data cve
            let strings := [Access.string cve.id.offset, .string cve.description.offset]
            let ret := onMatch calls m
            if ret ≤ 0 then some ⟨bailStatus ret, calls ++ [m], access ++ reads ++ strings⟩
            else
              (enodes data params fuel cve.next (calls ++ [m])).map
                (Evaluated.after (access ++ reads ++ strings))
          | some (.ok _, reads), _ =>
            (enodes data params fuel cve.next calls).map (Evaluated.after (access ++ reads))
    else some ⟨0, calls, []⟩

/-- Without a program nothing is done, and that is no error. -/
def vulnspecEval (interp : Interp) (fuel : ℕ) : Option Evaluated :=
  if interp.data.length ≤ headerSize + typeSize then some ⟨0, [], []⟩
  else enodes interp.data interp.params fuel headerSize []

end Yans.Vulnspec
