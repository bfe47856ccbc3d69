import Yans.Apps.ServiceTables

/-! The rows of the services CSV, and what they are loaded as. -/
namespace Yans.Apps.Services

open Library.Memory Library.Strings Library.Decimal Net.TcpprotoTypes
open Util Util.Csv Util.Objtbl Util.TableSize Collate

/-- The places of a service once its fallback is in use. -/
def filled (svc : ServiceData) : List ℕ :=
  if svc.mpids.headD 0 = 0 then svc.mpids.set 0 svc.fpid else svc.mpids

theorem visited_filled (group : List Banner) : visited (filled (dataOf group)) = protocols group := by
  have hkept := kept_keptMpids group
  unfold protocols filled dataOf
  cases hcases : keptMpids group with
  | nil => rfl
  | cons m kept =>
    rw [hcases] at hkept
    have hm : m ≠ 0 := hkept.ne_zero m List.mem_cons_self
    have hhead : (places (m :: kept)).headD 0 = m := rfl
    have hzeros : ∀ n, (List.replicate n 0).takeWhile (fun x : ℕ => decide (x ≠ 0)) = [] := by
      intro n
      cases n <;> simp
    rw [hhead, if_neg hm, if_neg (List.cons_ne_nil _ _)]
    change m :: (kept ++ List.replicate _ 0).takeWhile _ = _
    rw [List.takeWhile_append_of_pos (by
      intro x hx
      exact decide_eq_true (hkept.ne_zero x (List.mem_cons_of_mem _ hx))), hzeros, List.append_nil]

theorem assignIds_spec (places : List ℕ) : ∀ serviceid : UInt32,
    serviceid.toNat + places.length < 2 ^ 32 →
      (assignIds serviceid places).1.length = places.length ∧
      (assignIds serviceid places).2.toNat = serviceid.toNat + places.length ∧
      ∀ id ∈ (assignIds serviceid places).1, id.toNat ≤ serviceid.toNat + places.length := by
  induction places with
  | nil => exact fun _ _ => ⟨rfl, rfl, by simp [assignIds]⟩
  | cons place places ih =>
    intro serviceid hroom
    rw [List.length_cons] at hroom
    have hnext : (serviceid + 1).toNat = serviceid.toNat + 1 := by
      rw [UInt32.toNat_add]
      exact Nat.mod_eq_of_lt (by change _ + 1 < _; omega)
    obtain ⟨hlength, hlast, hids⟩ := ih (serviceid + 1) (by omega)
    unfold assignIds
    dsimp only
    rw [List.length_cons, List.length_cons, hlength]
    refine ⟨rfl, by omega, ?_⟩
    intro id hid
    cases List.mem_cons.mp hid with
    | inl hfirst =>
      rw [hfirst]
      omega
    | inr hrest =>
      have hle := hids id hrest
      omega

theorem foldlM_range' {α σ : Type} (f : σ → α → Option σ) (elems : List α) :
    ∀ (before : List α) (init : σ),
      (List.range' before.length elems.length).foldlM
        (fun st i => (before ++ elems)[i]?.bind (f st)) init = elems.foldlM f init := by
  induction elems with
  | nil => exact fun _ _ => rfl
  | cons a elems ih =>
    intro before init
    have hmore : before ++ a :: elems = before ++ [a] ++ elems := by
      rw [List.append_assoc, List.singleton_append]
    have hlength : before.length + 1 = (before ++ [a]).length := by
      rw [List.length_append, List.length_singleton]
    have hhere : (before ++ a :: elems)[before.length]? = some a := by
      rw [List.getElem?_append_right (Nat.le_refl _), Nat.sub_self]
      rfl
    rw [List.length_cons, List.range'_succ, List.foldlM_cons, List.foldlM_cons, hhere]
    dsimp only [Option.bind_some]
    congr 1
    funext st
    rw [hmore, hlength]
    exact ih (before ++ [a]) st

theorem foldlM_range {α σ : Type} (f : σ → α → Option σ) (elems : List α) (init : σ) :
    (List.range elems.length).foldlM (fun st i => elems[i]?.bind (f st)) init =
      elems.foldlM f init := by
  rw [List.range_eq_range']
  exact foldlM_range' f elems [] init

structure Listing (svcs : List CollateService) (services : List ServiceData) : Prop where
  nodup : (svcs.map CollateService.index).Nodup
  lt : ∀ svc ∈ svcs, svc.index < services.length

def placesOf (services : List ServiceData) (svc : CollateService) : List ℕ :=
  visited (filled (services.getD svc.index (newService 0)))

/-- One service in the loop of `postprocess_services`, once its object is there. -/
def postprocessObject (st : List ServiceData × UInt32) (svc : CollateService) :
    Option (List ServiceData × UInt32) := do
  let data ← st.1[svc.index]?
  let (data, serviceid) := postprocessService data st.2
  pure (st.1.set svc.index data, serviceid)

structure Assigned (before after : ServiceData) (bound : ℕ) : Prop where
  mpids_eq : after.mpids = filled before
  length_eq : after.serviceIds.length = (visited (filled before)).length
  le_bound : ∀ id ∈ after.serviceIds, id.toNat ≤ bound

theorem Assigned.mono {before after : ServiceData} {bound bound' : ℕ}
    (h : Assigned before after bound) (hle : bound ≤ bound') : Assigned before after bound' :=
  ⟨h.mpids_eq, h.length_eq, fun id hid => (h.le_bound id hid).trans hle⟩

theorem postprocessService_spec (data : ServiceData) {serviceid : UInt32}
    (hroom : serviceid.toNat + (visited (filled data)).length < 2 ^ 32) :
    (postprocessService data serviceid).2.toNat =
        serviceid.toNat + (visited (filled data)).length ∧
      Assigned data (postprocessService data serviceid).1
        (serviceid.toNat + (visited (filled data)).length) := by
  obtain ⟨hlength, hlast, hids⟩ := assignIds_spec (visited (filled data)) serviceid hroom
  exact ⟨hlast, rfl, hlength, hids⟩

theorem postprocess_spec (svcs : List CollateService) : ∀ {services : List ServiceData}
    {serviceid : UInt32}, Listing svcs services →
      serviceid.toNat + (svcs.map fun svc => (placesOf services svc).length).sum < 2 ^ 32 →
      ∃ after last, svcs.foldlM postprocessObject (services, serviceid) = some (after, last) ∧
        (∀ i, i ∉ svcs.map CollateService.index → after[i]? = services[i]?) ∧
        ∀ svc ∈ svcs, ∃ data assigned, services[svc.index]? = some data ∧
          after[svc.index]? = some assigned ∧ Assigned data assigned
            (serviceid.toNat + (svcs.map fun svc => (placesOf services svc).length).sum) := by
  induction svcs with
  | nil => exact fun _ _ => ⟨_, _, rfl, fun _ _ => rfl, by simp⟩
  | cons svc svcs ih =>
    intro services serviceid hlisting hroom
    simp only [List.map_cons, List.sum_cons] at hroom ⊢
    obtain ⟨hhead, htail⟩ := List.nodup_cons.mp hlisting.nodup
    have hlt := hlisting.lt svc List.mem_cons_self
    obtain ⟨data, hdata⟩ : ∃ data, services[svc.index]? = some data :=
      ⟨_, List.getElem?_eq_getElem hlt⟩
    have hplaces : placesOf services svc = visited (filled data) := by
      rw [placesOf, List.getD_eq_getElem?_getD, hdata]
      rfl
    rw [hplaces] at hroom
    simp only [hplaces]
    obtain ⟨hlast, hassigned⟩ := @postprocessService_spec data serviceid (by omega)
    have hsame : ∀ other ∈ svcs, (services.set svc.index
        (postprocessService data serviceid).1)[other.index]? = services[other.index]? := by
      intro other hother
      have hne : svc.index ≠ other.index := fun heq => hhead (heq ▸ List.mem_map_of_mem hother)
      rw [List.getElem?_set_ne hne]
    have hsum : (svcs.map fun other => (placesOf (services.set svc.index
        (postprocessService data serviceid).1) other).length) =
          svcs.map fun other => (placesOf services other).length := by
      apply List.map_congr_left
      intro other hother
      rw [placesOf, placesOf, List.getD_eq_getElem?_getD, List.getD_eq_getElem?_getD,
        hsame other hother]
    have hrest : Listing svcs (services.set svc.index (postprocessService data serviceid).1) :=
      ⟨htail, fun other hother => by
        rw [List.length_set]
        exact hlisting.lt other (List.mem_cons_of_mem _ hother)⟩
    obtain ⟨after, last, hrun, hothers, hall⟩ := ih hrest (by rw [hsum, hlast]; omega)
    rw [hsum, hlast] at hall
    refine ⟨after, last, ?_, ?_, ?_⟩
    · rw [List.foldlM_cons]
      unfold postprocessObject
      rw [hdata]
      exact hrun
    · intro i hi
      rw [List.mem_cons, not_or] at hi
      rw [hothers i hi.2, List.getElem?_set_ne fun heq => hi.1 heq.symm]
    · intro other hother
      cases List.mem_cons.mp hother with
      | inl hfirst =>
        rw [hfirst]
        refine ⟨data, _, hdata, ?_, hassigned.mono (by omega)⟩
        rw [hothers _ hhead, List.getElem?_set_self hlt]
      | inr hother =>
        obtain ⟨data', assigned, hdata', hafter, hassigned'⟩ := hall other hother
        rw [hsame other hother] at hdata'
        exact ⟨data', assigned, hdata', hafter, hassigned'.mono (by omega)⟩

/-- The columns that stand for a service under one of its protocols, as strings. -/
structure ServiceRow where
  id : UInt32
  name : Option Bytes
  host : Bytes
  serv : Bytes
  mpid : ℕ
  host_ne_zero : ∀ ch ∈ host, ch ≠ 0
  serv_ne_zero : ∀ ch ∈ serv, ch ≠ 0

namespace ServiceRow

def fields (row : ServiceRow) : List (Option Bytes) :=
  [some (numeral row.id.toNat), row.name.map cstring, some row.host, some (ascii "tcp"),
    some row.serv, some (tcpprotoTypeToString row.mpid)]

theorem numeral_ne_zero (n : ℕ) : ∀ ch ∈ numeral n, ch ≠ 0 := by
  intro ch hch hzero
  have hdigit := isDigit_of_mem_numeral n ch hch
  rw [hzero] at hdigit
  exact absurd hdigit (by decide)

def csvRow (row : ServiceRow) : Row where
  cols := row.fields
  ne_nil := List.cons_ne_nil _ _
  ne_zero := by
    have htcp : ∀ ch ∈ ascii "tcp", ch ≠ 0 := by decide
    intro col hcol s hs
    subst hs
    simp only [fields, List.mem_cons, List.not_mem_nil, or_false, Option.some.injEq] at hcol
    obtain rfl | hname | rfl | rfl | rfl | rfl := hcol
    · exact numeral_ne_zero _
    · obtain ⟨name, -, rfl⟩ := Option.map_eq_some_iff.mp hname.symm
      exact fun ch => ne_zero_of_mem_cstring
    · exact row.host_ne_zero
    · exact htcp
    · exact row.serv_ne_zero
    · exact (tcpprotoTypeToString_string _).1
  ne_blank := by
    constructor <;> intro h <;> simp [fields] at h

def text (row : ServiceRow) : Bytes := rowText row.csvRow.strings

end ServiceRow

theorem printRow_fields (st : Buf × Bytes) (row : ServiceRow) :
    (printRow st row.fields).2 = st.2 ++ row.text := by
  have hcontents := @contents_csvEncode st.1.clear row.fields row.csvRow.ne_zero
  rw [Buf.contents_clear, List.nil_append] at hcontents
  unfold printRow
  dsimp only
  rw [hcontents]
  rfl

theorem foldl_printRow (rows : List ServiceRow) : ∀ st : Buf × Bytes,
    ((rows.map ServiceRow.fields).foldl printRow st).2 = st.2 ++ rows.flatMap ServiceRow.text := by
  induction rows with
  | nil => exact fun _ => (List.append_nil _).symm
  | cons row rows ih =>
    intro st
    rw [List.map_cons, List.foldl_cons, ih, printRow_fields, List.append_assoc, List.flatMap_cons]

structure Resolved (numeric : Numeric) (addr host serv : Bytes) : Prop where
  text_eq : numeric.text addr = some (host, serv)
  host_lt : host.length < 128
  serv_lt : serv.length < 8

variable {numeric : Numeric} {host serv : Bytes}

theorem Resolved.getnameinfo_eq {addr : Bytes}
    (h : Resolved numeric addr host serv) {servlen : ℕ} (hlen : 8 ≤ servlen) :
    getnameinfo numeric addr 128 servlen = some (host, serv) := by
  have hserv := h.serv_lt
  unfold getnameinfo
  rw [h.text_eq]
  exact if_pos ⟨h.host_lt, by omega⟩

theorem take_saddrLen {addr : Bytes} (h : AddrAccepted addr) : addr.take (saddrLen addr) = addr := by
  have hne : afInet ≠ afInet6 := by decide
  unfold saddrLen
  obtain ⟨hfamily, hlength⟩ | ⟨hfamily, hlength⟩ := h
  · rw [hfamily, if_neg hne]
    exact List.take_of_length_le hlength.le
  · rw [hfamily, if_pos rfl]
    exact List.take_of_length_le hlength.le

structure Printable (numeric : Numeric) (services : List ServiceData) (svc : CollateService)
    (data : ServiceData) (host serv : Bytes) : Prop where
  addr : ∃ addr, svc.addr = some addr ∧ AddrAccepted addr ∧ Resolved numeric addr host serv
  data : services[svc.index]? = some data

variable {services : List ServiceData} {svc : CollateService} {data : ServiceData}

theorem Printable.ne_zero (h : Printable numeric services svc data host serv) :
    (∀ ch ∈ host, ch ≠ 0) ∧ ∀ ch ∈ serv, ch ≠ 0 := by
  obtain ⟨addr, -, -, hresolved⟩ := h.addr
  exact numeric.ne_zero _ _ _ hresolved.text_eq

def Printable.rows {numeric : Numeric} {services : List ServiceData} {svc : CollateService}
    {data : ServiceData} {host serv : Bytes} (h : Printable numeric services svc data host serv) :
    List ServiceRow :=
  List.zipWith (fun id mpid => ⟨id, svc.name, host, serv, mpid, h.ne_zero.1, h.ne_zero.2⟩)
    data.serviceIds (visited data.mpids)

/-- One service in the loop of `print_services_csv`, once its object is there. -/
def printObject (numeric : Numeric) (services : List ServiceData) (st : Buf × Bytes)
    (svc : CollateService) : Option (Buf × Bytes) := do
  let addr ← svc.addr
  let data ← services[svc.index]?
  match getnameinfo numeric (addr.take (saddrLen addr)) 128 8 with
  | none => pure st
  | some (addrbuf, portbuf) =>
    pure ((List.zipWith (serviceFields svc addrbuf portbuf) data.serviceIds
      (visited data.mpids)).foldl printRow st)

theorem Printable.printObject
    (h : Printable numeric services svc data host serv) (st : Buf × Bytes) :
    ∃ buf, printObject numeric services st svc =
      some (buf, st.2 ++ h.rows.flatMap ServiceRow.text) := by
  obtain ⟨addr, haddr, haccepted, hresolved⟩ := h.addr
  have hrows : List.zipWith (serviceFields svc host serv) data.serviceIds (visited data.mpids) =
      h.rows.map ServiceRow.fields := by
    rw [Printable.rows, List.map_zipWith]
    rfl
  refine ⟨((h.rows.map ServiceRow.fields).foldl printRow st).1, ?_⟩
  unfold Services.printObject
  rw [haddr, h.data]
  change (match getnameinfo numeric (addr.take (saddrLen addr)) 128 8 with
    | none => pure st
    | some (addrbuf, portbuf) => _) = _
  rw [take_saddrLen haccepted, hresolved.getnameinfo_eq (Nat.le_refl 8)]
  dsimp only
  rw [hrows, ← foldl_printRow]
  rfl

def IsRowOf (numeric : Numeric) (services : List ServiceData) (svcs : List CollateService)
    (row : ServiceRow) : Prop :=
  ∃ svc ∈ svcs, ∃ (data : ServiceData) (host serv : Bytes)
    (h : Printable numeric services svc data host serv), row ∈ h.rows

theorem length_rows_le (h : Printable numeric services svc data host serv) :
    h.rows.length ≤ (visited data.mpids).length := by
  rw [Printable.rows, List.length_zipWith]
  exact Nat.min_le_right _ _

theorem printAll (svcs : List CollateService) :
    (∀ svc ∈ svcs, ∃ data host serv, Printable numeric services svc data host serv) →
      ∀ st : Buf × Bytes, ∃ (buf : Buf) (rows : List ServiceRow),
        svcs.foldlM (printObject numeric services) st =
          some (buf, st.2 ++ rows.flatMap ServiceRow.text) ∧
        (∀ row, row ∈ rows ↔ IsRowOf numeric services svcs row) ∧
        rows.length ≤ (svcs.map fun svc =>
          (visited (services.getD svc.index (newService 0)).mpids).length).sum := by
  induction svcs with
  | nil =>
    intro _ st
    refine ⟨st.1, [], by simp, fun row => ?_, Nat.le_refl 0⟩
    constructor
    · intro hrow
      cases hrow
    · rintro ⟨svc, hsvc, -⟩
      cases hsvc
  | cons svc svcs ih =>
    intro hall st
    obtain ⟨data, host, serv, h⟩ := hall svc List.mem_cons_self
    obtain ⟨buf, hprint⟩ := h.printObject st
    obtain ⟨last, rows, hrun, hmem, hlength⟩ := ih
      (fun other hother => hall other (List.mem_cons_of_mem _ hother))
      (buf, st.2 ++ h.rows.flatMap ServiceRow.text)
    refine ⟨last, h.rows ++ rows, ?_, fun row => ?_, ?_⟩
    · rw [List.foldlM_cons, hprint]
      change svcs.foldlM (Services.printObject numeric services) _ = _
      rw [hrun, List.flatMap_append, List.append_assoc]
    · rw [List.mem_append, hmem]
      constructor
      · rintro (hrow | ⟨other, hother, hrest⟩)
        · exact ⟨svc, List.mem_cons_self, data, host, serv, h, hrow⟩
        · exact ⟨other, List.mem_cons_of_mem _ hother, hrest⟩
      · rintro ⟨other, hother, data', host', serv', h', hrow⟩
        cases List.mem_cons.mp hother with
        | inl hfirst =>
          subst hfirst
          -- a service is printed in one way
          obtain rfl : data = data' := Option.some.inj (h.data.symm.trans h'.data)
          obtain ⟨addr, haddr, -, hresolved⟩ := h.addr
          obtain ⟨addr', haddr', -, hresolved'⟩ := h'.addr
          obtain rfl : addr = addr' := Option.some.inj (haddr.symm.trans haddr')
          have hsame := hresolved.text_eq.symm.trans hresolved'.text_eq
          simp only [Option.some.injEq, Prod.mk.injEq] at hsame
          obtain ⟨rfl, rfl⟩ := hsame
          exact Or.inl hrow
        | inr hrest => exact Or.inr ⟨other, hrest, data', host', serv', h', hrow⟩
    · have hle := length_rows_le h
      rw [List.length_append, List.map_cons, List.sum_cons, List.getD_eq_getElem?_getD, h.data,
        Option.getD_some]
      omega

def ServiceRow.entry (row : ServiceRow) : SvclutEntry where
  serviceId := some (numeral row.id.toNat)
  hostname := some ((row.name.map cstring).getD [])
  addr := some row.host
  transport := some (ascii "tcp")
  port := some row.serv
  service := some (tcpprotoTypeToString row.mpid)

def svclutHashing : Hashing SvclutEntry := TableConsistency.consistent_svclut.hashing

theorem csvReaderElemString_of_holds {r : CsvReader} {cols : List Bytes} (h : Csv.Holds r cols)
    (hcols : ∀ col ∈ cols, ∀ ch ∈ col, ch ≠ 0) (hsize : (stored cols).length < 2 ^ 64)
    {i : ℕ} {col : Bytes} (hcol : cols[i]? = some col) :
    csvReaderElemString r i = some col := by
  have hi := (List.getElem?_eq_some_iff.mp hcol).1
  rw [csvReaderElemString, h.elem hsize hi, Option.map_some, h.string hcols hcol]

structure ServiceRow.Fits (row : ServiceRow) : Prop where
  name_lt : ((row.name.map cstring).getD []).length < 2 ^ 63
  host_lt : row.host.length < 128
  serv_lt : row.serv.length < 8

theorem ServiceRow.Fits.length_stored {row : ServiceRow} (h : row.Fits) :
    (stored row.csvRow.strings).length < 2 ^ 64 := by
  have hid : (numeral row.id.toNat).length ≤ 10 := by
    apply length_numeral_lt 9
    have hlt := row.id.toNat_lt
    omega
  have hproto := (tcpprotoTypeToString_string row.mpid).2
  have htcp : (ascii "tcp").length = 3 := by decide
  have hname := h.name_lt
  have hhost := h.host_lt
  have hserv := h.serv_lt
  simp only [Row.strings, ServiceRow.csvRow, ServiceRow.fields, stored, List.map_cons, List.map_nil,
    Option.getD_some, List.flatMap_cons, List.flatMap_nil, List.length_append, List.length_cons,
    List.length_nil, htcp]
  omega

theorem loadRow_spec {svclut : ObjtblCtx SvclutEntry} {live : List SvclutEntry}
    (rep : Represents svclutHashing svclut live) {row : ServiceRow} (hfits : row.Fits)
    (hroom : live.length < maxKeys) {r : CsvReader} (h : Csv.Holds r row.csvRow.strings) :
    ∃ after, loadRow svclut r = some after ∧
      Represents svclutHashing after (svclutHashing.liveInsert row.entry live) := by
  have hstring : ∀ (i : ℕ) (col : Bytes), row.csvRow.strings[i]? = some col →
      csvReaderElemString r i = some col := fun i col =>
    csvReaderElemString_of_holds h row.csvRow.strings_ne_zero hfits.length_stored
  obtain ⟨digit, digits, hnumeral⟩ := List.exists_cons_of_ne_nil (numeral_ne_nil row.id.toNat)
  have hdigit : 48 ≤ digit ∧ digit ≤ 57 :=
    isDigit_of_mem_numeral row.id.toNat digit (hnumeral ▸ List.mem_cons_self)
  obtain ⟨hfull, -⟩ | ⟨-, after, hinsert, hafter⟩ :=
    @Represents.objtblInsert_spec _ _ _ _ _ rep row.entry trivial
  · omega
  · refine ⟨after, ?_, hafter⟩
    unfold loadRow
    rw [hstring 0 _ rfl, hstring 1 _ rfl, hstring 2 _ rfl, hstring 3 _ rfl, hstring 4 _ rfl,
      hstring 5 _ rfl]
    have hfirst : ((some (numeral row.id.toNat)).getD []).headD 0 = digit := by
      rw [Option.getD_some, hnumeral]
      rfl
    rw [if_neg]
    · change (objtblInsert svclut (some row.entry)).bind _ = _
      rw [hinsert]
      rfl
    · change ¬ (_ ∨ ((some (numeral row.id.toNat)).getD []).headD 0 < 48 ∨
        ((some (numeral row.id.toNat)).getD []).headD 0 > 57)
      rw [hfirst]
      rintro (hnone | hlow | hhigh)
      · cases hnone
      · exact absurd hdigit.1 (UInt8.not_le.mpr hlow)
      · exact absurd hdigit.2 (UInt8.not_le.mpr hhigh)

/-- A table that has been given these entries: it has some of them, and one for
each key. -/
structure StandsFor (entries live : List SvclutEntry) : Prop where
  mem : ∀ e ∈ live, e ∈ entries
  covers : ∀ e ∈ entries, ∃ e' ∈ live, svclutKey e' = svclutKey e
  length_le : live.length ≤ entries.length

theorem StandsFor.insert {entries live : List SvclutEntry} (h : StandsFor entries live)
    (e : SvclutEntry) : StandsFor (entries ++ [e]) (svclutHashing.liveInsert e live) where
  mem other hother := by
    cases List.mem_cons.mp hother with
    | inl heq => exact heq ▸ List.mem_concat_self
    | inr hold => exact List.mem_append_left _ (h.mem other (List.mem_of_mem_filter hold))
  covers other hother := by
    by_cases hsame : svclutKey e = svclutKey other
    · exact ⟨e, List.mem_cons_self, hsame⟩
    · have hold : other ∈ entries := by
        cases List.mem_append.mp hother with
        | inl hold => exact hold
        | inr hnew => exact absurd (List.mem_singleton.mp hnew ▸ rfl) hsame
      obtain ⟨e', he', hkey⟩ := h.covers other hold
      refine ⟨e', List.mem_cons_of_mem _ (List.mem_filter.mpr ⟨he', ?_⟩), hkey⟩
      have hdiffers : svclutcmp e e' ≠ 0 := fun hzero =>
        hsame ((svclutcmp_eq_zero_iff.mp hzero).trans hkey)
      have hne : svclutHashing.same e e' = false := beq_eq_false_iff_ne.mpr hdiffers
      rw [hne]
      rfl
  length_le := by
    have hfilter := List.length_filter_le (fun other => !svclutHashing.same e other) live
    have hle := h.length_le
    simp only [Hashing.liveInsert, List.length_cons, List.length_append, List.length_nil]
    omega

theorem csvReadRow_nil (r : CsvReader) : csvReaderElemString (csvReadRow r []).1 0 = none := by
  have hempty : csvReadRow r [] = (⟨r.data.clear, r.cols.clear⟩, []) := by
    rw [csvReadRow, rowLoop]
    rfl
  have hnelems : csvReaderNelems ⟨r.data.clear, r.cols.clear⟩ = 0 := Nat.zero_div 8
  rw [hempty, csvReaderElemString, csvReaderElem, if_pos (Nat.le_of_eq hnelems)]
  rfl

theorem ServiceRow.text_ne_nil (row : ServiceRow) : row.text ≠ [] := by
  have hlt := length_stored_le_rowText row.csvRow.strings
  intro hnil
  have hlength : (rowText row.csvRow.strings).length = 0 := by
    rw [← ServiceRow.text, hnil]
    rfl
  rw [hlength] at hlt
  exact absurd hlt (by simp [Row.strings, ServiceRow.csvRow, ServiceRow.fields, stored])

/-- The induction follows the rows; the last round reads none. -/
theorem loadFile_spec (rows : List ServiceRow) :
    ∀ {r : CsvReader} {svclut : ObjtblCtx SvclutEntry} {entries live : List SvclutEntry},
      Represents svclutHashing svclut live → StandsFor entries live →
      (∀ row ∈ rows, row.Fits) → entries.length + rows.length ≤ maxKeys →
      ∃ r' after live', loadFile r svclut (rows.flatMap ServiceRow.text) = some (r', after) ∧
        Represents svclutHashing after live' ∧
        StandsFor (entries ++ rows.map ServiceRow.entry) live' := by
  induction rows with
  | nil =>
    intro r svclut entries live rep hstands _ _
    refine ⟨(csvReadRow r []).1, svclut, live, ?_, rep, by rwa [List.map_nil, List.append_nil]⟩
    rw [List.flatMap_nil, loadFile, loadRow, csvReadRow_nil]
    rfl
  | cons row rows ih =>
    intro r svclut entries live rep hstands hfits hroom
    rw [List.length_cons] at hroom
    have hle := hstands.length_le
    obtain ⟨read, hread, hholds⟩ := csvReadRow_row row.csvRow r (rows.flatMap ServiceRow.text)
    obtain ⟨mid, hload, hmid⟩ :=
      loadRow_spec rep (hfits row List.mem_cons_self) (by omega) hholds
    obtain ⟨r', after, live', hrun, hafter, hstands'⟩ := @ih read mid _ _ hmid
      (hstands.insert row.entry) (fun other hother => hfits other (List.mem_cons_of_mem _ hother))
      (by rw [List.length_append, List.length_singleton]; omega)
    refine ⟨r', after, live', ?_, hafter, ?_⟩
    · have hne : row.text ++ rows.flatMap ServiceRow.text ≠ [] := by
        simp [row.text_ne_nil]
      have htext : csvReadRow r (row.text ++ rows.flatMap ServiceRow.text) =
          (read, rows.flatMap ServiceRow.text) := hread
      rw [List.flatMap_cons, loadFile]
      simp only [htext, hload, dif_neg hne, Option.bind_eq_bind, Option.bind_some]
      exact hrun
    · rwa [List.append_assoc, List.singleton_append] at hstands'

theorem loadServices_spec {rows : List ServiceRow} (hfits : ∀ row ∈ rows, row.Fits)
    (hroom : rows.length ≤ maxKeys) :
    ∃ svclut live, loadServices (rows.flatMap ServiceRow.text) = some svclut ∧
      Represents svclutHashing svclut live ∧ StandsFor (rows.map ServiceRow.entry) live := by
  obtain ⟨hbig, -⟩ | ⟨-, svclut, hinit, rep⟩ := @objtblInit_spec _ svclutHashing _ nmembSvcs 0
  · exact absurd hbig (by decide)
  · have hempty : StandsFor [] [] := ⟨by simp, by simp, Nat.le_refl 0⟩
    obtain ⟨r', after, live, hload, hafter, hstands⟩ :=
      @loadFile_spec rows csvReaderInit _ _ _ rep hempty hfits (by simpa using hroom)
    refine ⟨after, live, ?_, hafter, hstands⟩
    have hopts : svclutHashing.opts 0 = svclutOpts := rfl
    rw [hopts] at hinit
    unfold loadServices loadSvclut
    rw [hinit]
    change ((loadFile csvReaderInit svclut (rows.flatMap ServiceRow.text)).bind pure).bind _ = _
    rw [hload]
    rfl

theorem isSpace_of_isDigit {ch : UInt8} (h : IsDigit ch) : Nalphaver.isSpace ch = false := by
  obtain ⟨hlow, hhigh⟩ := isDigit_iff.mp h
  unfold Nalphaver.isSpace
  simp only [decide_eq_false_iff_not, UInt8.le_iff_toNat_le, ← UInt8.toNat_inj]
  change ¬ (ch.toNat = 32 ∨ 9 ≤ ch.toNat ∧ ch.toNat ≤ 13)
  omega

theorem strtol_numeral {n : ℕ} (hn : n < 2 ^ 63) : strtol (numeral n) = ((n : ℤ), []) := by
  have hdigits := isDigit_of_mem_numeral n
  have hall : (numeral n).takeWhile (fun c => decide (IsDigit c)) = numeral n := by
    rw [List.takeWhile_eq_self_iff]
    exact fun c hc => decide_eq_true (hdigits c hc)
  have hdrop : (numeral n).dropWhile (fun c => decide (IsDigit c)) = [] := by
    rw [List.dropWhile_eq_nil_iff]
    exact fun c hc => decide_eq_true (hdigits c hc)
  obtain ⟨digit, digits, hnumeral⟩ := List.exists_cons_of_ne_nil (numeral_ne_nil n)
  have hdigit := hdigits digit (hnumeral ▸ List.mem_cons_self)
  have htrim : (numeral n).dropWhile Nalphaver.isSpace = numeral n := by
    rw [hnumeral, List.dropWhile_cons, if_neg (by simp [isSpace_of_isDigit hdigit])]
  have hhead : (numeral n).head? = some digit := by rw [hnumeral]; rfl
  obtain ⟨hlow, -⟩ := isDigit_iff.mp hdigit
  have hminus : (numeral n).head? ≠ some 45 := by
    rw [hhead]
    rintro ⟨⟩
    exact absurd hlow (by decide)
  have hplus : (numeral n).head? ≠ some 43 := by
    rw [hhead]
    rintro ⟨⟩
    exact absurd hlow (by decide)
  have hunsigned : Nalphaver.unsignedPart (numeral n) = numeral n := by
    unfold Nalphaver.unsignedPart
    rw [htrim, if_neg (not_or.mpr ⟨hminus, hplus⟩)]
  unfold strtol
  dsimp only
  rw [hunsigned, htrim, hall, hdrop, if_neg (numeral_ne_nil n), if_neg hminus, value_numeral]
  have hmin : min (n : ℤ) (2 ^ 63 - 1) = n := by omega
  rw [hmin]

end Yans.Apps.Services
