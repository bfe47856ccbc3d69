import Yans.Apps.ServiceRows

/-! The ids that banners are found under in the services CSV that was printed of
them. -/
namespace Yans.Apps.Services

open Library.Memory Library.Strings Library.Decimal Net.TcpprotoTypes
open Util Util.Csv Util.Objtbl Util.TableSize Collate

/-- The numeric results of the addresses: there are some, and they tell
addresses apart. -/
structure Answers (numeric : Numeric) (banners : List Banner) : Prop where
  resolved : ∀ b ∈ banners, ∃ host serv, Resolved numeric b.addr host serv
  injective : ∀ b ∈ banners, ∀ b' ∈ banners,
    numeric.text b.addr = numeric.text b'.addr → addrKey b.addr = addrKey b'.addr

/-- The rows that all the services of banners have. -/
def rowCount (banners : List Banner) : ℕ :=
  ((keysOf banners).map fun key => (protocols (groupOf banners key)).length).sum

structure IsData (group : List Banner) (data : ServiceData) : Prop where
  visited_eq : visited data.mpids = protocols group
  length_eq : data.serviceIds.length = (protocols group).length
  id_le : ∀ id ∈ data.serviceIds, id.toNat ≤ maxKeys

structure Emits (numeric : Numeric) (banners : List Banner) (c : Collated)
    (rows : List ServiceRow) : Prop where
  csv_eq : c.csv = rows.flatMap ServiceRow.text
  length_le : rows.length ≤ maxKeys
  mem_iff : ∀ row, row ∈ rows ↔
    IsRowOf numeric c.services (storedObjects c.svctbl.entries) row
  covers : ∀ b ∈ banners, ∃ svc ∈ storedObjects c.svctbl.entries,
    svcKey svc = Prod.map id some b.service
  sound : ∀ svc ∈ storedObjects c.svctbl.entries, ∃ b ∈ banners, svc.addr = some b.addr ∧
    svcKey svc = Prod.map id some b.service ∧
    ∃ data, c.services[svc.index]? = some data ∧ IsData (groupOf banners b.service) data

variable {numeric : Numeric} {banners : List Banner}

theorem length_protocols_pos (group : List Banner) : 1 ≤ (protocols group).length := by
  unfold protocols
  split
  · exact Nat.le_refl 1
  · rename_i hkept
    exact List.length_pos_iff.mpr hkept

theorem length_keysOf_le_rowCount : (keysOf banners).length ≤ rowCount banners := by
  unfold rowCount
  induction keysOf banners with
  | nil => exact Nat.zero_le _
  | cons key keys ih =>
    have hpos := length_protocols_pos (groupOf banners key)
    rw [List.length_cons, List.map_cons, List.sum_cons]
    omega

theorem svcKey_injective : Function.Injective (Prod.map id some : ServiceKey → _) :=
  Function.injective_id.prodMap (Option.some_injective _)

structure Gathered (h : Regular banners) (st : CollateCtx) (svcs : List CollateService) : Prop where
  rep : Represents (svcHashing h) st.svctbl svcs.reverse
  keys_eq : svcs.map svcKey = (keysOf banners).map (Prod.map id some)
  index_eq : ∀ (i : ℕ) (svc : CollateService), svcs[i]? = some svc → svc.index = i
  services_eq : st.services = servicesOf banners

namespace Gathered

variable {h : Regular banners} {st : CollateCtx} {svcs : List CollateService}

section

variable (g : Gathered h st svcs)

include g

theorem perm : (storedObjects st.svctbl.entries).Perm svcs := by
  have hitems := g.rep.items_eq
  rw [← coe_storedObjects] at hitems
  exact (Multiset.coe_eq_coe.mp hitems).trans (List.reverse_perm svcs)

theorem length_eq : svcs.length = (keysOf banners).length := by
  have hmap := congrArg List.length g.keys_eq
  rwa [List.length_map, List.length_map] at hmap

theorem orders :
    Orders st.svctbl.header.opts.cmpfunc (storedObjects st.svctbl.entries) := by
  rw [g.rep.cmpfunc_eq]
  apply orders_svcs h
  intro svc hsvc
  apply g.rep.live_valid
  rw [List.mem_reverse]
  exact g.perm.mem_iff.mp hsvc

theorem sound {svc : CollateService} (hsvc : svc ∈ svcs) :
    ∃ b ∈ banners, svc.addr = some b.addr ∧ svcKey svc = Prod.map id some b.service ∧
      st.services[svc.index]? = some (dataOf (groupOf banners b.service)) := by
  obtain ⟨i, hi⟩ := List.mem_iff_getElem?.mp hsvc
  have hkey : (svcs.map svcKey)[i]? = some (svcKey svc) := by rw [List.getElem?_map, hi]; rfl
  rw [g.keys_eq, List.getElem?_map] at hkey
  obtain ⟨key, hget, hsame⟩ := Option.map_eq_some_iff.mp hkey
  obtain ⟨b, hb, rfl⟩ := exists_of_mem_keysOf (List.mem_of_getElem? hget)
  obtain ⟨b', hb', haddr⟩ := g.rep.live_valid svc (List.mem_reverse.mpr hsvc)
  have hparts : addrKey b'.addr = addrKey b.addr := by
    have hsnd := congrArg Prod.snd hsame
    rw [svcKey, haddr] at hsnd
    exact (Option.some.inj hsnd).symm
  refine ⟨b, hb, ?_, hsame.symm, ?_⟩
  · rw [haddr, h.separate b' hb' b hb hparts]
  · rw [g.index_eq i svc hi, g.services_eq, servicesOf, List.getElem?_map, hget]
    rfl

theorem covers {b : Banner} (hb : b ∈ banners) :
    ∃ svc ∈ svcs, svcKey svc = Prod.map id some b.service := by
  have hkey : b.service ∈ keysOf banners := by
    rw [keysOf, List.mem_eraseDups]
    exact List.mem_map_of_mem hb
  have hmem : Prod.map id some b.service ∈ svcs.map svcKey := by
    rw [g.keys_eq]
    exact List.mem_map_of_mem hkey
  exact List.mem_map.mp hmem

theorem index_eq_range :
    svcs.map CollateService.index = List.range svcs.length := by
  apply List.ext_getElem?
  intro i
  rw [List.getElem?_map]
  by_cases hi : i < svcs.length
  · rw [List.getElem?_range hi, List.getElem?_eq_getElem hi, Option.map_some,
      g.index_eq i _ (List.getElem?_eq_getElem hi)]
  · rw [List.getElem?_eq_none (not_lt.mp hi), List.getElem?_eq_none (by simpa using hi)]
    rfl

theorem listing {sorted : List CollateService}
    (hperm : sorted.Perm svcs) : Listing sorted st.services where
  nodup := by
    rw [(hperm.map _).nodup_iff, g.index_eq_range]
    exact List.nodup_range
  lt svc hsvc := by
    have hindex := List.mem_map_of_mem (f := CollateService.index) (hperm.mem_iff.mp hsvc)
    rw [g.index_eq_range, List.mem_range, g.length_eq] at hindex
    rwa [g.services_eq, length_servicesOf]

theorem sum_places {sorted : List CollateService}
    (hperm : sorted.Perm svcs) :
    (sorted.map fun svc => (placesOf st.services svc).length).sum = rowCount banners := by
  rw [(hperm.map _).sum_eq, rowCount]
  congr 1
  apply List.ext_getElem?
  intro i
  rw [List.getElem?_map, List.getElem?_map]
  by_cases hi : i < svcs.length
  · obtain ⟨svc, hsvc⟩ : ∃ svc, svcs[i]? = some svc := ⟨_, List.getElem?_eq_getElem hi⟩
    obtain ⟨key, hkey⟩ : ∃ key, (keysOf banners)[i]? = some key :=
      ⟨_, List.getElem?_eq_getElem (g.length_eq ▸ hi)⟩
    have hdata : st.services[svc.index]? = some (dataOf (groupOf banners key)) := by
      rw [g.index_eq i svc hsvc, g.services_eq, servicesOf, List.getElem?_map, hkey]
      rfl
    rw [hsvc, hkey, Option.map_some, Option.map_some, placesOf, List.getD_eq_getElem?_getD, hdata,
      Option.getD_some, visited_filled]
  · rw [List.getElem?_eq_none (not_lt.mp hi),
      List.getElem?_eq_none (g.length_eq ▸ not_lt.mp hi)]
    rfl

end

end Gathered

theorem exists_gathered (h : Regular banners) (hashseed : UInt32)
    (hroom : (keysOf banners).length ≤ maxKeys) :
    ∃ init st svcs, tablesInit hashseed = some init ∧
      banners.foldlM (fun st banner => (processBanner banner st).map Prod.snd) init = some st ∧
      Gathered h st svcs := by
  obtain ⟨init, hinit, hempty⟩ := collects_init h hashseed
  obtain ⟨st, hrun, hst⟩ := hempty.processAll (fun _ hb => hb) hroom
  obtain ⟨svcs, rep, hkeys, hindex⟩ := hst.svcs
  exact ⟨init, st, svcs, hinit, hrun, ⟨rep, hkeys, hindex, hst.services⟩⟩

theorem Gathered.size_objtblSort {h : Regular banners} {st : CollateCtx}
    {svcs : List CollateService} (g : Gathered h st svcs)
    (qsort : Qsort (ObjtblEntry CollateService)) :
    (objtblSort qsort st.svctbl).header.size.toNat =
      (storedObjects (objtblSort qsort st.svctbl).entries).length := by
  obtain ⟨hheader, -, hperm, -⟩ := objtblSort_spec qsort st.svctbl g.orders
  rw [hheader, hperm.length_eq, g.perm.length_eq, g.rep.size_toNat, List.length_reverse]

theorem Gathered.postprocessServices_eq {h : Regular banners} {st : CollateCtx}
    {svcs : List CollateService} (g : Gathered h st svcs)
    (qsort : Qsort (ObjtblEntry CollateService)) (services : List ServiceData)
    (serviceid : UInt32) :
    postprocessServices (objtblSort qsort st.svctbl) services serviceid =
      (storedObjects (objtblSort qsort st.svctbl).entries).foldlM postprocessObject
        (services, serviceid) := by
  have hstep : postprocessStep (objtblSort qsort st.svctbl) = fun st' i =>
      (storedObjects (objtblSort qsort st.svctbl).entries)[i]?.bind (postprocessObject st') := by
    funext st' i
    rw [← objtblVal_objtblSort qsort st.svctbl g.orders i]
    rfl
  rw [postprocessServices, g.size_objtblSort, hstep, foldlM_range]

theorem Gathered.printServicesCsv_eq {h : Regular banners} {st : CollateCtx}
    {svcs : List CollateService} (g : Gathered h st svcs)
    (qsort : Qsort (ObjtblEntry CollateService)) (services : List ServiceData) :
    printServicesCsv numeric (objtblSort qsort st.svctbl) services =
      ((storedObjects (objtblSort qsort st.svctbl).entries).foldlM
        (printObject numeric services) (Buf.init 2048, [])).map Prod.snd := by
  have hstep : printStep numeric (objtblSort qsort st.svctbl) services = fun st' i =>
      (storedObjects (objtblSort qsort st.svctbl).entries)[i]?.bind
        (printObject numeric services st') := by
    funext st' i
    rw [← objtblVal_objtblSort qsort st.svctbl g.orders i]
    rfl
  rw [printServicesCsv, g.size_objtblSort, hstep, foldlM_range]
  cases (storedObjects (objtblSort qsort st.svctbl).entries).foldlM
    (printObject numeric services) (Buf.init 2048, []) <;> rfl

theorem collateBanners_spec (h : Regular banners) (hanswers : Answers numeric banners)
    (hroom : rowCount banners ≤ maxKeys) (qsort : Qsort (ObjtblEntry CollateService))
    (hashseed : UInt32) :
    ∃ c rows, collateBanners qsort hashseed numeric banners = some c ∧
      Emits numeric banners c rows := by
  obtain ⟨init, st, svcs, hinit, hrun, g⟩ :=
    exists_gathered h hashseed (length_keysOf_le_rowCount.trans hroom)
  obtain ⟨-, -, hsorted, -⟩ := objtblSort_spec qsort st.svctbl g.orders
  set sorted := storedObjects (objtblSort qsort st.svctbl).entries with hsortedEq
  have hperm : sorted.Perm svcs := hsorted.trans g.perm
  have hmax : maxKeys < 2 ^ 31 := by decide
  have hsum := g.sum_places hperm
  have hzero : (0 : UInt32).toNat = 0 := rfl
  obtain ⟨services, last, hpost, -, hall⟩ := @postprocess_spec sorted st.services 0
    (g.listing hperm) (by rw [hsum, hzero]; omega)
  rw [hsum, hzero, Nat.zero_add] at hall
  have hsound : ∀ svc ∈ sorted, ∃ b ∈ banners, svc.addr = some b.addr ∧
      svcKey svc = Prod.map id some b.service ∧
      ∃ data, services[svc.index]? = some data ∧ IsData (groupOf banners b.service) data := by
    intro svc hsvc
    obtain ⟨b, hb, haddr, hkey, hbefore⟩ := g.sound (hperm.mem_iff.mp hsvc)
    obtain ⟨data, assigned, hdata, hassigned, hspec⟩ := hall svc hsvc
    obtain rfl : data = dataOf (groupOf banners b.service) :=
      Option.some.inj (hdata.symm.trans hbefore)
    refine ⟨b, hb, haddr, hkey, assigned, hassigned, ?_, ?_, ?_⟩
    · rw [hspec.mpids_eq, visited_filled]
    · rw [hspec.length_eq, visited_filled]
    · exact fun id hid => (hspec.le_bound id hid).trans hroom
  have hprintable : ∀ svc ∈ sorted, ∃ data host serv,
      Printable numeric services svc data host serv := by
    intro svc hsvc
    obtain ⟨b, hb, haddr, -, data, hdata, -⟩ := hsound svc hsvc
    obtain ⟨host, serv, hresolved⟩ := hanswers.resolved b hb
    exact ⟨data, host, serv, ⟨b.addr, haddr, h.accepted b hb, hresolved⟩, hdata⟩
  obtain ⟨buf, rows, hprint, hmem, hlength⟩ := printAll sorted hprintable (Buf.init 2048, [])
  have hplaces : (sorted.map fun svc =>
      (visited (services.getD svc.index (newService 0)).mpids).length).sum = rowCount banners := by
    rw [← hsum]
    congr 1
    apply List.map_congr_left
    intro svc hsvc
    obtain ⟨data, assigned, hdata, hassigned, hspec⟩ := hall svc hsvc
    rw [List.getD_eq_getElem?_getD, hassigned, placesOf, List.getD_eq_getElem?_getD, hdata,
      Option.getD_some, Option.getD_some, hspec.mpids_eq]
  refine ⟨⟨objtblSort qsort st.svctbl, services, rows.flatMap ServiceRow.text⟩, rows, ?_,
    ⟨rfl, by omega, hmem, fun b hb => ?_, hsound⟩⟩
  · unfold collateBanners
    rw [hinit]
    change (banners.foldlM (fun st banner => (processBanner banner st).map Prod.snd) init).bind _ = _
    rw [hrun]
    dsimp only [Option.bind_some]
    rw [g.postprocessServices_eq, ← hsortedEq, hpost]
    change (printServicesCsv numeric (objtblSort qsort st.svctbl) services).bind _ = _
    rw [g.printServicesCsv_eq, ← hsortedEq, hprint]
    rfl
  · obtain ⟨svc, hsvc, hkey⟩ := g.covers hb
    exact ⟨svc, hperm.mem_iff.mpr hsvc, hkey⟩

theorem getD_nameKey (name : Option Bytes) : (nameKey name).getD [] = cstring (name.getD []) := by
  cases name with
  | none => rfl
  | some name =>
    unfold nameKey
    dsimp only
    by_cases hempty : name.length = 0
    · rw [if_pos hempty, List.length_eq_zero_iff.mp hempty]
      rfl
    · rw [if_neg hempty]
      rfl

/-- The service has the name and the address of the banner, where no name is the
empty name. -/
def BelongsTo (b : Banner) (svc : CollateService) : Prop :=
  cstring (svc.name.getD []) = cstring (b.name.getD []) ∧
    svc.addr.map addrKey = some (addrKey b.addr)

def IdsAgree (qsort : Qsort (ObjtblEntry CollateService)) (hashseed : UInt32) (numeric : Numeric)
    (banners : List Banner) : Prop :=
  ∃ c svclut, collateBanners qsort hashseed numeric banners = some c ∧
    loadServices c.csv = some svclut ∧
    ∀ b ∈ banners, ∃ svc ∈ storedObjects c.svctbl.entries, BelongsTo b svc ∧
      ∃ data, c.services[svc.index]? = some data ∧
        ∃ id ∈ data.serviceIds, getSvcId numeric svclut b = some (id.toNat : ℤ)

/-- The banner has a name, and its protocol is, by its name, one that a service
with its name and address is listed with. -/
def Listed (banners : List Banner) (b : Banner) : Prop :=
  b.name ≠ none ∧ ∃ b' ∈ banners, cstring (b'.name.getD []) = cstring (b.name.getD []) ∧
    addrKey b'.addr = addrKey b.addr ∧
    tcpprotoTypeToString (toTcpprotoType b.protocol) ∈
      (protocols (groupOf banners b'.service)).map tcpprotoTypeToString

theorem svclutKey_entry (row : ServiceRow) :
    svclutKey row.entry = [some ((row.name.map cstring).getD []), some row.host,
      some (ascii "tcp"), some row.serv, some (tcpprotoTypeToString row.mpid)] := by
  have hname : cstring ((row.name.map cstring).getD []) = (row.name.map cstring).getD [] := by
    cases row.name with
    | none => rfl
    | some name => exact cstring_cstring name
  have htcp : cstring (ascii "tcp") = ascii "tcp" := by decide
  simp only [svclutKey, ServiceRow.entry, List.map_cons, List.map_nil, Option.map_some, hname, htcp,
    cstring_of_ne_zero row.host_ne_zero, cstring_of_ne_zero row.serv_ne_zero,
    cstring_of_ne_zero (tcpprotoTypeToString_string row.mpid).1]

variable {b : Banner}

theorem svclutKey_svclutKeyOf {host serv : Bytes}
    (h : Resolved numeric b.addr host serv) :
    svclutKey (svclutKeyOf numeric b) = [b.name.map cstring, some host, some (ascii "tcp"),
      some serv, some (tcpprotoTypeToString (toTcpprotoType b.protocol))] := by
  have hne := numeric.ne_zero _ _ _ h.text_eq
  have htcp : cstring (ascii "tcp") = ascii "tcp" := by decide
  rw [svclutKeyOf, h.getnameinfo_eq (by decide)]
  simp only [svclutKey, List.map_cons, List.map_nil, Option.map_some, htcp,
    cstring_of_ne_zero hne.1, cstring_of_ne_zero hne.2,
    cstring_of_ne_zero (tcpprotoTypeToString_string _).1]

def Matches (numeric : Numeric) (b : Banner) (row : ServiceRow) : Prop :=
  svclutKey row.entry = svclutKey (svclutKeyOf numeric b)

theorem matches_iff {host serv : Bytes} (h : Resolved numeric b.addr host serv)
    (row : ServiceRow) :
    Matches numeric b row ↔
      b.name ≠ none ∧ (row.name.map cstring).getD [] = cstring (b.name.getD []) ∧
        row.host = host ∧ row.serv = serv ∧
        tcpprotoTypeToString row.mpid = tcpprotoTypeToString (toTcpprotoType b.protocol) := by
  rw [Matches, svclutKey_entry, svclutKey_svclutKeyOf h]
  cases b.name with
  | none => simp
  | some name => simp

theorem getSvcId_spec {svclut : ObjtblCtx SvclutEntry} {live : List SvclutEntry}
    (rep : Represents svclutHashing svclut live) {rows : List ServiceRow}
    (hstands : StandsFor (rows.map ServiceRow.entry) live)
    (hids : ∀ row ∈ rows, row.id.toNat ≤ maxKeys) (b : Banner) :
    (∃ row ∈ rows, Matches numeric b row ∧
      getSvcId numeric svclut b = some (row.id.toNat : ℤ)) ∨
    (∀ row ∈ rows, ¬ Matches numeric b row) ∧ getSvcId numeric svclut b = some (-1) := by
  have hget := @Represents.objtblGet_spec _ _ (svclutKeyOf numeric b) _ _ _ rep trivial
  unfold getSvcId
  rw [hget]
  cases hfind : svclutHashing.liveGet (svclutKeyOf numeric b) live with
  | none =>
    right
    refine ⟨fun row hrow hmatches => ?_, rfl⟩
    obtain ⟨e, he, hkey⟩ := hstands.covers row.entry (List.mem_map_of_mem hrow)
    have hdiffers := List.find?_eq_none.mp hfind e he
    apply hdiffers
    exact beq_iff_eq.mpr (svclutcmp_eq_zero_iff.mpr (hkey.trans hmatches).symm)
  | some e =>
    left
    have hequal : svclutHashing.same (svclutKeyOf numeric b) e = true := List.find?_some hfind
    have hsame : svclutKey (svclutKeyOf numeric b) = svclutKey e :=
      svclutcmp_eq_zero_iff.mp (beq_iff_eq.mp hequal)
    obtain ⟨row, hrow, rfl⟩ :=
      List.mem_map.mp (hstands.mem e (List.mem_of_find?_eq_some hfind))
    have hmax : maxKeys < 2 ^ 31 := by decide
    have hid := hids row hrow
    have hcstring : cstring (row.entry.serviceId.getD []) = numeral row.id.toNat :=
      cstring_of_ne_zero (ServiceRow.numeral_ne_zero _)
    have hbmod : (row.id.toNat : ℤ).bmod (2 ^ 32) = row.id.toNat :=
      Int.bmod_eq_of_le (by omega) (by omega)
    refine ⟨row, hrow, hsame.symm, ?_⟩
    have hstrtol := @strtol_numeral row.id.toNat (by omega)
    simp only [Option.isSome_some, if_true, Option.bind_eq_bind, Option.bind_some, hcstring,
      numeral_ne_nil, if_false, hstrtol, ne_eq, not_true_eq_false, hbmod]
    rfl

namespace Emits

variable {c : Collated} {rows : List ServiceRow}

variable {row : ServiceRow}

section

variable (hemits : Emits numeric banners c rows)

include hemits

theorem row_spec (hrow : row ∈ rows) :
    ∃ svc ∈ storedObjects c.svctbl.entries, ∃ b ∈ banners, ∃ data,
      c.services[svc.index]? = some data ∧ svc.addr = some b.addr ∧
      svc.name.map cstring = nameKey b.name ∧ Resolved numeric b.addr row.host row.serv ∧
      row.name = svc.name ∧ row.id ∈ data.serviceIds ∧ row.id.toNat ≤ maxKeys ∧
      row.mpid ∈ protocols (groupOf banners b.service) := by
  obtain ⟨svc, hsvc, data, host, serv, h, hmem⟩ := (hemits.mem_iff row).mp hrow
  obtain ⟨b, hb, haddr, hkey, data', hdata', hisData⟩ := hemits.sound svc hsvc
  obtain rfl : data = data' := Option.some.inj (h.data.symm.trans hdata')
  obtain ⟨addr, haddr', -, hresolved⟩ := h.addr
  obtain rfl : addr = b.addr := Option.some.inj (haddr'.symm.trans haddr)
  obtain ⟨id, mpid, hpair, rfl⟩ : ∃ id mpid, (id, mpid) ∈ data.serviceIds.zip (visited data.mpids) ∧
      (⟨id, svc.name, host, serv, mpid, h.ne_zero.1, h.ne_zero.2⟩ : ServiceRow) = row := by
    rw [Printable.rows, ← List.map_uncurry_zip_eq_zipWith] at hmem
    obtain ⟨⟨id, mpid⟩, hpair, heq⟩ := List.mem_map.mp hmem
    exact ⟨id, mpid, hpair, heq⟩
  have hparts := List.of_mem_zip hpair
  refine ⟨svc, hsvc, b, hb, data, hdata', haddr, congrArg Prod.fst hkey, hresolved, rfl, hparts.1,
    hisData.id_le id hparts.1, ?_⟩
  rw [← hisData.visited_eq]
  exact hparts.2

theorem id_le (hrow : row ∈ rows) :
    row.id.toNat ≤ maxKeys := by
  obtain ⟨svc, hsvc, b, hb, data, hdata, haddr, hname, hresolved, hrowName, hid, hle, hmpid⟩ :=
    hemits.row_spec hrow
  exact hle

theorem fits (hrow : row ∈ rows) :
    row.Fits := by
  obtain ⟨svc, hsvc, b, hb, data, hdata, haddr, hname, hresolved, hrowName, hid, hle, hmpid⟩ :=
    hemits.row_spec hrow
  refine ⟨?_, hresolved.host_lt, hresolved.serv_lt⟩
  have hprefix := (List.takeWhile_prefix (l := b.name.getD []) (· ≠ 0)).length_le
  rw [hrowName, hname, getD_nameKey]
  exact lt_of_le_of_lt hprefix b.size_lt

theorem listed_of_matches (hanswers : Answers numeric banners) {b : Banner} (hb : b ∈ banners)
    (hrow : row ∈ rows) (hmatches : Matches numeric b row) :
    Listed banners b ∧ ∃ svc ∈ storedObjects c.svctbl.entries, BelongsTo b svc ∧
      ∃ data, c.services[svc.index]? = some data ∧ row.id ∈ data.serviceIds := by
  obtain ⟨host, serv, hresolved⟩ := hanswers.resolved b hb
  obtain ⟨hnamed, hname, hhost, hserv, hproto⟩ := (matches_iff hresolved row).mp hmatches
  obtain ⟨svc, hsvc, b', hb', data, hdata, haddr, hsvcName, hresolved', hrowName, hid, -, hmpid⟩ :=
    hemits.row_spec hrow
  have hsameName : cstring (b'.name.getD []) = cstring (b.name.getD []) := by
    rw [← getD_nameKey, ← hsvcName, ← hrowName, hname]
  have hsameAddr : addrKey b'.addr = addrKey b.addr := by
    apply hanswers.injective b' hb' b hb
    rw [hresolved'.text_eq, hresolved.text_eq, hhost, hserv]
  refine ⟨⟨hnamed, b', hb', hsameName, hsameAddr, ?_⟩, svc, hsvc, ⟨?_, ?_⟩, data, hdata, hid⟩
  · exact List.mem_map.mpr ⟨row.mpid, hmpid, hproto⟩
  · rw [hrowName] at hname
    cases hcases : svc.name with
    | none =>
      rw [hcases] at hname
      exact hname
    | some name =>
      rw [hcases] at hname
      exact hname
  · rw [haddr, Option.map_some, hsameAddr]

theorem exists_row (hregular : Regular banners)
    (hanswers : Answers numeric banners) {b : Banner} (hb : b ∈ banners)
    (hlisted : Listed banners b) : ∃ row ∈ rows, Matches numeric b row := by
  obtain ⟨hnamed, b', hb', hsameName, hsameAddr, hproto⟩ := hlisted
  obtain ⟨mpid, hmpid, hstring⟩ := List.mem_map.mp hproto
  obtain ⟨host, serv, hresolved⟩ := hanswers.resolved b hb
  obtain ⟨svc, hsvc, hkey⟩ := hemits.covers b' hb'
  obtain ⟨b'', hb'', haddr, hkey', data, hdata, hisData⟩ := hemits.sound svc hsvc
  have hservice : b''.service = b'.service := svcKey_injective (hkey'.symm.trans hkey)
  have haddrEq : b''.addr = b.addr := by
    apply hregular.separate b'' hb'' b hb
    exact (congrArg Prod.snd hservice).trans hsameAddr
  have hprintable : Printable numeric c.services svc data host serv := by
    refine ⟨⟨b.addr, ?_, hregular.accepted b hb, hresolved⟩, hdata⟩
    rw [haddr, haddrEq]
  rw [← hservice, ← hisData.visited_eq] at hmpid
  obtain ⟨j, hj⟩ := List.mem_iff_getElem?.mp hmpid
  have hlt : j < data.serviceIds.length := by
    rw [hisData.length_eq, ← hisData.visited_eq]
    exact (List.getElem?_eq_some_iff.mp hj).1
  set row : ServiceRow := ⟨data.serviceIds[j], svc.name, host, serv, mpid, hprintable.ne_zero.1,
    hprintable.ne_zero.2⟩ with hrow
  have hmem : row ∈ hprintable.rows := by
    apply List.mem_iff_getElem?.mpr
    refine ⟨j, ?_⟩
    rw [Printable.rows, List.getElem?_zipWith, hj, List.getElem?_eq_getElem hlt]
  refine ⟨row, (hemits.mem_iff row).mpr ⟨svc, hsvc, data, host, serv, hprintable, hmem⟩, ?_⟩
  rw [matches_iff hresolved]
  refine ⟨hnamed, ?_, rfl, rfl, hstring⟩
  have hsvcName : svc.name.map cstring = nameKey b'.name := congrArg Prod.fst hkey
  rw [hrow, hsvcName, getD_nameKey, hsameName]

end

end Emits

theorem exists_lookup (hregular : Regular banners) (hanswers : Answers numeric banners)
    (hroom : rowCount banners ≤ maxKeys) (qsort : Qsort (ObjtblEntry CollateService))
    (hashseed : UInt32) :
    ∃ c rows svclut, collateBanners qsort hashseed numeric banners = some c ∧
      loadServices c.csv = some svclut ∧ Emits numeric banners c rows ∧
      ∀ b, (∃ row ∈ rows, Matches numeric b row ∧
          getSvcId numeric svclut b = some (row.id.toNat : ℤ)) ∨
        (∀ row ∈ rows, ¬ Matches numeric b row) ∧ getSvcId numeric svclut b = some (-1) := by
  obtain ⟨c, rows, hcollate, hemits⟩ :=
    collateBanners_spec hregular hanswers hroom qsort hashseed
  obtain ⟨svclut, live, hload, rep, hstands⟩ :=
    @loadServices_spec rows (fun _ hrow => hemits.fits hrow) hemits.length_le
  rw [← hemits.csv_eq] at hload
  exact ⟨c, rows, svclut, hcollate, hload, hemits,
    getSvcId_spec rep hstands fun _ hrow => hemits.id_le hrow⟩

theorem not_idsAgree_of_nameless (hregular : Regular banners) (hanswers : Answers numeric banners)
    (hroom : rowCount banners ≤ maxKeys) (qsort : Qsort (ObjtblEntry CollateService))
    (hashseed : UInt32) (hb : b ∈ banners) (hname : b.name = none) :
    ¬ IdsAgree qsort hashseed numeric banners := by
  obtain ⟨c, rows, svclut, hcollate, hload, -, hfound⟩ :=
    exists_lookup hregular hanswers hroom qsort hashseed
  rintro ⟨c', svclut', hcollate', hload', hall⟩
  obtain rfl : c = c' := Option.some.inj (hcollate.symm.trans hcollate')
  obtain rfl : svclut = svclut' := Option.some.inj (hload.symm.trans hload')
  obtain ⟨svc, -, -, data, -, id, -, hid⟩ := hall b hb
  obtain ⟨row, hrow, hmatches, -⟩ | ⟨-, hmissing⟩ := hfound b
  · obtain ⟨host, serv, hresolved⟩ := hanswers.resolved b hb
    exact ((matches_iff hresolved row).mp hmatches).1 hname
  · rw [hmissing, Option.some.injEq] at hid
    omega

/-! One banner of an HTTP server -/

def sampleAddr : Bytes := [16, 2, 0, 80, 127, 0, 0, 1, 0, 0, 0, 0, 0, 0, 0, 0]

def sampleBanner (name : Option Bytes) (h : (name.getD []).length < 2 ^ 63) : Banner :=
  ⟨sampleAddr, name, 4, 0, h⟩

def sampleNumeric : Numeric where
  text addr := if addr = sampleAddr then some (ascii "127.0.0.1", ascii "80") else none
  ne_zero addr host serv h := by
    split at h
    · simp only [Option.some.injEq, Prod.mk.injEq] at h
      obtain ⟨rfl, rfl⟩ := h
      decide
    · cases h

theorem regular_sample (b : Banner) (haddr : b.addr = sampleAddr) : Regular [b] where
  accepted b' hb' := by
    rw [List.mem_singleton.mp hb', haddr]
    decide
  separate b' hb' b'' hb'' _ := by rw [List.mem_singleton.mp hb', List.mem_singleton.mp hb'']

theorem answers_sample (b : Banner) (haddr : b.addr = sampleAddr) : Answers sampleNumeric [b] where
  resolved b' hb' := by
    refine ⟨ascii "127.0.0.1", ascii "80", ?_, by decide, by decide⟩
    rw [List.mem_singleton.mp hb', haddr]
    rfl
  injective b' hb' b'' hb'' _ := by rw [List.mem_singleton.mp hb', List.mem_singleton.mp hb'']

/-- A banner that was found by its address only is not found again. -/
theorem nameless_banner_lost :
    Regular [sampleBanner none (by decide)] ∧
      Answers sampleNumeric [sampleBanner none (by decide)] ∧
      ¬ IdsAgree (Qsort.mergeSort _) 0 sampleNumeric [sampleBanner none (by decide)] := by
  have hregular := regular_sample (sampleBanner none (by decide)) rfl
  have hanswers := answers_sample (sampleBanner none (by decide)) rfl
  refine ⟨hregular, hanswers, ?_⟩
  exact not_idsAgree_of_nameless hregular hanswers (by decide) _ _ List.mem_cons_self rfl

/-- The stages agree on the ids of the services exactly when every banner is
listed. -/
theorem idsAgree_iff (hregular : Regular banners) (hanswers : Answers numeric banners)
    (hroom : rowCount banners ≤ maxKeys) (qsort : Qsort (ObjtblEntry CollateService))
    (hashseed : UInt32) :
    IdsAgree qsort hashseed numeric banners ↔ ∀ b ∈ banners, Listed banners b := by
  obtain ⟨c, rows, svclut, hcollate, hload, hemits, hfound⟩ :=
    exists_lookup hregular hanswers hroom qsort hashseed
  constructor
  · rintro ⟨c', svclut', hcollate', hload', hall⟩ b hb
    obtain rfl : c = c' := Option.some.inj (hcollate.symm.trans hcollate')
    obtain rfl : svclut = svclut' := Option.some.inj (hload.symm.trans hload')
    obtain ⟨svc, -, -, data, -, id, -, hid⟩ := hall b hb
    obtain ⟨row, hrow, hmatches, -⟩ | ⟨-, hmissing⟩ := hfound b
    · exact (hemits.listed_of_matches hanswers hb hrow hmatches).1
    · rw [hmissing, Option.some.injEq] at hid
      omega
  · intro hlisted
    refine ⟨c, svclut, hcollate, hload, fun b hb => ?_⟩
    obtain ⟨row, hrow, hmatches, hid⟩ | ⟨hnone, -⟩ := hfound b
    · obtain ⟨-, svc, hsvc, hbelongs, data, hdata, hmem⟩ :=
        hemits.listed_of_matches hanswers hb hrow hmatches
      exact ⟨svc, hsvc, hbelongs, data, hdata, row.id, hmem, hid⟩
    · obtain ⟨row, hrow, hmatches⟩ := hemits.exists_row hregular hanswers hb (hlisted b hb)
      exact absurd hmatches (hnone row hrow)

/-- The banner with a name is found. -/
theorem idsAgree_iff_sample :
    IdsAgree (Qsort.mergeSort _) 0 sampleNumeric
      [sampleBanner (some (ascii "a.se")) (by decide)] := by
  apply (idsAgree_iff (regular_sample _ rfl) (answers_sample _ rfl) (by decide) _ _).mpr
  intro b hb
  rw [List.mem_singleton.mp hb]
  exact ⟨by decide, _, List.mem_cons_self, rfl, rfl, by decide⟩

end Yans.Apps.Services
