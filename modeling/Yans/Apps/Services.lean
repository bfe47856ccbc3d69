import Yans.Apps.Collate
import Yans.Library.Decimal
import Yans.Net.TcpprotoTypes
import Yans.Util.Csv
import Yans.Util.Nalphaver

/-! `apps/scan/collate.c`: services are collated from banners and printed as
CSV, and a later stage looks up the services of the same banners in what was
printed. The certificate chains, which neither of the two reads, are left out.
`none` is a failed assertion, an access through the null pointer, or a call that
does not return. -/
namespace Yans.Apps.Services

open Library.Memory Library.Strings Net.TcpprotoTypes Util Util.Csv Util.Objtbl Collate

/-- What is read of a `struct ycl_msg_banner`. An address that is missing has
no bytes; a name is an object in memory. -/
structure Banner where
  addr : Bytes
  name : Option Bytes
  mpid : ℤ
  fpid : ℤ
  size_lt : (name.getD []).length < 2 ^ 63

/-- The numeric results of `getnameinfo`, which are strings. -/
structure Numeric where
  text : Bytes → Option (Bytes × Bytes)
  ne_zero : ∀ addr host serv, text addr = some (host, serv) →
    (∀ ch ∈ host, ch ≠ 0) ∧ ∀ ch ∈ serv, ch ≠ 0

/-- `getnameinfo` with `NI_NUMERICHOST | NI_NUMERICSERV`; it fails when a result
and its terminator do not fit. -/
def getnameinfo (numeric : Numeric) (addr : Bytes) (hostlen servlen : ℕ) : Option (Bytes × Bytes) :=
  match numeric.text addr with
  | none => none
  | some (host, serv) =>
    if host.length < hostlen ∧ serv.length < servlen then some (host, serv) else none

def maxMpids : ℕ := 4

/-- What is not read by the table of services. `serviceIds` are those that were
assigned so far. -/
structure ServiceData where
  serviceIds : List UInt32
  mpids : List ℕ
  fpid : ℕ
deriving DecidableEq

/-- The tables, and the services in the order of their allocation. -/
structure CollateCtx where
  nametbl : ObjtblCtx Bytes
  addrtbl : ObjtblCtx Bytes
  svctbl : ObjtblCtx CollateService
  services : List ServiceData

def nametblOpts (hashseed : UInt32) : ObjtblOpts Bytes :=
  ⟨hashseed, fun name => objtblStrhash (some name), fun a b => objtblStrcmp (some a) (some b)⟩

def addrtblOpts (hashseed : UInt32) : ObjtblOpts Bytes :=
  ⟨hashseed, fun addr => addrhash (some addr), fun a b => addrcmp (some a) (some b)⟩

def svctblOpts (hashseed : UInt32) : ObjtblOpts CollateService := ⟨hashseed, svchash, svccmp⟩

def nmembName : UInt32 := 1024
def nmembAddr : UInt32 := 4096
def nmembSvcs : UInt32 := 4096

/-- The tables at the start of `banners`, with one seed for all. -/
def tablesInit (hashseed : UInt32) : Option CollateCtx := do
  let addrtbl ← objtblInit (addrtblOpts hashseed) nmembAddr
  let nametbl ← objtblInit (nametblOpts hashseed) nmembName
  let svctbl ← objtblInit (svctblOpts hashseed) nmembSvcs
  pure { nametbl := nametbl, addrtbl := addrtbl, svctbl := svctbl, services := [] }

/-- Get an object that compares equal, or else insert this one; whether that
fails is not looked at. -/
def upsert {Obj : Type} [Inhabited Obj] (tbl : ObjtblCtx Obj) (obj : Obj) :
    Option (Option Obj × ObjtblCtx Obj) := do
  match ← objtblGet tbl (some obj) with
  | (.enotfound, _) =>
    let (_, tbl) ← objtblInsert tbl (some obj)
    pure (some obj, tbl)
  | (_, val) => pure (val, tbl)

def upsertName (name : Option Bytes) (st : CollateCtx) : Option (Option Bytes × CollateCtx) :=
  match name with
  | none => some (none, st)
  | some name =>
    if name.length = 0 then some (none, st)
    else do
      let (res, nametbl) ← upsert st.nametbl name
      pure (res, { st with nametbl := nametbl })

def upsertAddr (saddr : Bytes) (st : CollateCtx) : Option (Option Bytes × CollateCtx) :=
  if ¬ AddrAccepted saddr then some (none, st)
  else do
    let (res, addrtbl) ← upsert st.addrtbl saddr
    pure (res, { st with addrtbl := addrtbl })

/-- The loop over the matched protocols of a service, which are `unsigned
short`: the first place that is unknown or has this one already is set. -/
def noteMpid (mpids : List ℕ) (mpid : ℤ) : List ℕ :=
  if mpid = 0 then mpids
  else
    let i := (mpids.takeWhile fun m : ℕ => m ≠ 0 ∧ (m : ℤ) ≠ mpid).length
    if i < maxMpids then mpids.set i (mpid % 2 ^ 16).toNat else mpids

def newService (fpid : ℤ) : ServiceData := ⟨[], List.replicate maxMpids 0, (fpid % 2 ^ 14).toNat⟩

def upsertService (addr name : Option Bytes) (fpid : ℤ) (st : CollateCtx) :
    Option (ℕ × CollateCtx) := do
  let key := ⟨addr, name, st.services.length⟩
  match ← objtblGet st.svctbl (some key) with
  | (.enotfound, _) =>
    let (_, svctbl) ← objtblInsert st.svctbl (some key)
    pure (st.services.length,
      { st with svctbl := svctbl, services := st.services ++ [newService fpid] })
  | (_, some res) => pure (res.index, st)
  -- the object of an entry is never the null pointer
  | (_, none) => none

/-- The service of the banner; the second `none` is a banner that is not
accepted. -/
def processBanner (banner : Banner) (st : CollateCtx) : Option (Option ℕ × CollateCtx) := do
  let (name, st) ← upsertName banner.name st
  let (addr, st) ← upsertAddr banner.addr st
  if addr.isNone then pure (none, st)
  else
    let (index, st) ← upsertService addr name banner.fpid st
    let services := st.services.modify index fun svc =>
      { svc with mpids := noteMpid svc.mpids banner.mpid }
    pure (some index, { st with services := services })

/-- The places that the loops over the matched protocols visit: the first one,
and then up to one that is unknown. -/
def visited (mpids : List ℕ) : List ℕ := mpids.take 1 ++ (mpids.drop 1).takeWhile (· ≠ 0)

def assignIds (serviceid : UInt32) : List ℕ → List UInt32 × UInt32
  | [] => ([], serviceid)
  | _ :: mpids =>
    let (ids, last) := assignIds (serviceid + 1) mpids
    ((serviceid + 1) :: ids, last)

def postprocessService (svc : ServiceData) (serviceid : UInt32) : ServiceData × UInt32 :=
  let mpids := if svc.mpids.headD 0 = 0 then svc.mpids.set 0 svc.fpid else svc.mpids
  let (serviceIds, serviceid) := assignIds serviceid (visited mpids)
  ({ svc with mpids := mpids, serviceIds := serviceIds }, serviceid)

/-- One service in the loop of `postprocess_services`. -/
def postprocessStep (svctbl : ObjtblCtx CollateService) (st : List ServiceData × UInt32)
    (svcIndex : ℕ) : Option (List ServiceData × UInt32) := do
  let svc ← objtblVal svctbl svcIndex
  let data ← st.1[svc.index]?
  let (data, serviceid) := postprocessService data st.2
  pure (st.1.set svc.index data, serviceid)

def postprocessServices (svctbl : ObjtblCtx CollateService) (services : List ServiceData)
    (serviceid : UInt32) : Option (List ServiceData × UInt32) :=
  (List.range svctbl.header.size.toNat).foldlM (postprocessStep svctbl) (services, serviceid)

/-- The columns of a service under one of its protocols. -/
def serviceFields (svc : CollateService) (addrbuf portbuf : Bytes) (serviceId : UInt32)
    (mpid : ℕ) : List (Option Bytes) :=
  [some (Library.Decimal.numeral serviceId.toNat), svc.name.map cstring, some addrbuf,
    some (ascii "tcp"), some portbuf, some (tcpprotoTypeToString mpid)]

/-- The buffer and what has been written of each output. -/
def printRow (st : Buf × Bytes) (fields : List (Option Bytes)) : Buf × Bytes :=
  let buf := csvEncode st.1.clear fields
  (buf, st.2 ++ buf.contents)

/-- One service in the loop of `print_services_csv`. -/
def printStep (numeric : Numeric) (svctbl : ObjtblCtx CollateService) (services : List ServiceData)
    (st : Buf × Bytes) (svcIx : ℕ) : Option (Buf × Bytes) := do
  let svc ← objtblVal svctbl svcIx
  let addr ← svc.addr
  let data ← services[svc.index]?
  match getnameinfo numeric (addr.take (saddrLen addr)) 128 8 with
  | none => pure st
  | some (addrbuf, portbuf) =>
    pure ((List.zipWith (serviceFields svc addrbuf portbuf) data.serviceIds
      (visited data.mpids)).foldl printRow st)

def printServicesCsv (numeric : Numeric) (svctbl : ObjtblCtx CollateService)
    (services : List ServiceData) : Option Bytes := do
  let (_, output) ← (List.range svctbl.header.size.toNat).foldlM (printStep numeric svctbl services)
    (Buf.init 2048, [])
  pure output

/-- The services after `banners`, and the services CSV. -/
structure Collated where
  svctbl : ObjtblCtx CollateService
  services : List ServiceData
  csv : Bytes

/-- `banners` up to `print_services_csv`. -/
def collateBanners (qsort : Qsort (ObjtblEntry CollateService)) (hashseed : UInt32)
    (numeric : Numeric) (banners : List Banner) : Option Collated := do
  let st ← tablesInit hashseed
  let st ← banners.foldlM (fun st banner => (processBanner banner st).map Prod.snd) st
  let svctbl := objtblSort qsort st.svctbl
  let (services, _) ← postprocessServices svctbl st.services 0
  let csv ← printServicesCsv numeric svctbl services
  pure { svctbl := svctbl, services := services, csv := csv }

/-- The options of the table; its seed is left out and zero. -/
def svclutOpts : ObjtblOpts SvclutEntry := ⟨0, svcluthash, svclutcmp⟩

def csvReaderElemString (r : CsvReader) (i : ℕ) : Option Bytes :=
  (csvReaderElem r i).map (stringAt r.data.data)

/-- `strdup` does not take the null pointer. -/
def mksvclut (serviceId hostname addr transport port service : Option Bytes) :
    Option SvclutEntry := do
  let serviceId ← serviceId
  let hostname ← hostname
  let addr ← addr
  let transport ← transport
  let port ← port
  let service ← service
  pure ⟨some serviceId, some hostname, some addr, some transport, some port, some service⟩

/-- A row that starts with a digit is inserted; whether that fails only matters
for the memory of the entry. -/
def loadRow (svclut : ObjtblCtx SvclutEntry) (r : CsvReader) : Option (ObjtblCtx SvclutEntry) :=
  let serviceIdstr := csvReaderElemString r 0
  let first := (serviceIdstr.getD []).headD 0
  if serviceIdstr.isNone ∨ first < 48 ∨ first > 57 then some svclut
  else do
    let e ← mksvclut serviceIdstr (csvReaderElemString r 1) (csvReaderElemString r 2)
      (csvReaderElemString r 3) (csvReaderElemString r 4) (csvReaderElemString r 5)
    let (_, svclut) ← objtblInsert svclut (some e)
    pure svclut

/-- The loop over the rows of a file, which ends a row behind the last byte: at
the end of the file a row without columns is read. -/
def loadFile (r : CsvReader) (svclut : ObjtblCtx SvclutEntry) (input : Bytes) :
    Option (CsvReader × ObjtblCtx SvclutEntry) := do
  let svclut ← loadRow svclut (csvReadRow r input).1
  if h : input = [] then pure ((csvReadRow r input).1, svclut)
  else
    have := length_csvReadRow_lt r h
    loadFile (csvReadRow r input).1 svclut (csvReadRow r input).2
termination_by input.length

def loadSvclut (svclut : ObjtblCtx SvclutEntry) (files : List Bytes) :
    Option (ObjtblCtx SvclutEntry) := do
  let (_, svclut) ← files.foldlM (fun st input => loadFile st.1 st.2 input) (csvReaderInit, svclut)
  pure svclut

/-- The table as `matches` makes it from one services CSV. -/
def loadServices (csv : Bytes) : Option (ObjtblCtx SvclutEntry) := do
  let svclut ← objtblInit svclutOpts nmembSvcs
  loadSvclut svclut [csv]

/-- `strtol` in base ten, with `long` of 64 bits. -/
def strtol (nptr : Bytes) : ℤ × Bytes :=
  let negative := (nptr.dropWhile Nalphaver.isSpace).head? = some 45
  let unsigned := Nalphaver.unsignedPart nptr
  let digits := unsigned.takeWhile (Library.Decimal.IsDigit ·)
  if digits = [] then (0, nptr)
  else
    let n : ℤ := Library.Decimal.value 0 digits
    let l := if negative then max (-n) (-2 ^ 63) else min n (2 ^ 63 - 1)
    (l, unsigned.dropWhile (Library.Decimal.IsDigit ·))

def Banner.protocol (banner : Banner) : ℤ := if banner.mpid = 0 then banner.fpid else banner.mpid

def svclutKeyOf (numeric : Numeric) (banner : Banner) : SvclutEntry :=
  let names := getnameinfo numeric banner.addr 128 64
  { serviceId := none
    hostname := banner.name
    addr := names.map Prod.fst
    transport := some (ascii "tcp")
    port := names.map Prod.snd
    service := some (tcpprotoTypeToString (toTcpprotoType banner.protocol)) }

/-- The result is an `int`. -/
def getSvcId (numeric : Numeric) (svclut : ObjtblCtx SvclutEntry) (banner : Banner) : Option ℤ := do
  match ← objtblGet svclut (some (svclutKeyOf numeric banner)) with
  | (.ok, some e) =>
    let serviceId := cstring (e.serviceId.getD [])
    if serviceId = [] then pure (-1)
    else
      let (val, ptr) := strtol serviceId
      if ptr ≠ [] then pure (-1) else pure (val.bmod (2 ^ 32))
  | _ => pure (-1)

end Yans.Apps.Services
