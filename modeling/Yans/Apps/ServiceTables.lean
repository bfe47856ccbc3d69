import Yans.Apps.Services
import Yans.Apps.TableConsistency
import Yans.Library.Comparisons
import Yans.Library.FirstOccurrences
import Yans.Util.ObjtblSort

/-! The services that banners are collated into: one for each name and address,
in the order of their first banners, with the protocols of its banners. -/
namespace Yans.Apps.Services

open Library.Memory Library.Strings Library.FirstOccurrences Library.Comparisons
open Util Util.Objtbl Util.TableSize Collate

def nameKey : Option Bytes → Option Bytes
  | none => none
  | some name => if name.length = 0 then none else some (cstring name)

abbrev ServiceKey := Option Bytes × (UInt8 × Bytes × Bytes)

def Banner.service (banner : Banner) : ServiceKey := (nameKey banner.name, addrKey banner.addr)

/-- Another matched protocol, unless it is kept already or there are enough. -/
def keep (kept : List ℕ) (mpid : ℤ) : List ℕ :=
  if mpid = 0 ∨ (∃ m ∈ kept, (m : ℤ) = mpid) ∨ maxMpids ≤ kept.length ∨ mpid % 2 ^ 16 = 0 then kept
  else kept ++ [(mpid % 2 ^ 16).toNat]

/-- The matched protocols that a service keeps of its banners. -/
def keptMpids (group : List Banner) : List ℕ := (group.map Banner.mpid).foldl keep []

def fallback (group : List Banner) : ℕ := ((group.map Banner.fpid).headD 0 % 2 ^ 14).toNat

def protocols (group : List Banner) : List ℕ :=
  if keptMpids group = [] then [fallback group] else keptMpids group

def keysOf (banners : List Banner) : List ServiceKey := (banners.map Banner.service).eraseDups

def groupOf (banners : List Banner) (key : ServiceKey) : List Banner :=
  banners.filter (·.service = key)

def places (kept : List ℕ) : List ℕ := kept ++ List.replicate (maxMpids - kept.length) 0

def dataOf (group : List Banner) : ServiceData := ⟨[], places (keptMpids group), fallback group⟩

def servicesOf (banners : List Banner) : List ServiceData :=
  (keysOf banners).map fun key => dataOf (groupOf banners key)

structure Regular (banners : List Banner) : Prop where
  accepted : ∀ b ∈ banners, AddrAccepted b.addr
  separate : ∀ b ∈ banners, ∀ b' ∈ banners, addrKey b.addr = addrKey b'.addr → b.addr = b'.addr

structure Kept (kept : List ℕ) : Prop where
  length_le : kept.length ≤ maxMpids
  ne_zero : ∀ m ∈ kept, m ≠ 0
  lt : ∀ m ∈ kept, m < 2 ^ 16

variable {kept : List ℕ}

theorem Kept.keep (h : Kept kept) (mpid : ℤ) : Kept (Services.keep kept mpid) := by
  unfold Services.keep
  split
  · exact h
  · rename_i hnew
    simp only [not_or, not_le] at hnew
    constructor
    · rw [List.length_append, List.length_singleton]
      exact hnew.2.2.1
    · intro m hm
      cases List.mem_append.mp hm with
      | inl hm => exact h.ne_zero m hm
      | inr hm =>
        rw [List.mem_singleton] at hm
        omega
    · intro m hm
      cases List.mem_append.mp hm with
      | inl hm => exact h.lt m hm
      | inr hm =>
        rw [List.mem_singleton] at hm
        omega

theorem kept_foldl (h : Kept kept) (mpids : List ℤ) :
    Kept (mpids.foldl Services.keep kept) := by
  induction mpids generalizing kept with
  | nil => exact h
  | cons mpid mpids ih => exact ih (h.keep mpid)

theorem kept_keptMpids (group : List Banner) : Kept (keptMpids group) :=
  kept_foldl ⟨Nat.zero_le _, by simp, by simp⟩ _

theorem takeWhile_places (h : Kept kept) (mpid : ℤ) :
    ((places kept).takeWhile fun m : ℕ => m ≠ 0 ∧ (m : ℤ) ≠ mpid) =
      kept.takeWhile fun m : ℕ => (m : ℤ) ≠ mpid := by
  obtain ⟨n, hn⟩ : ∃ n, n = maxMpids - kept.length := ⟨_, rfl⟩
  rw [places, ← hn]
  clear hn
  have hne := h.ne_zero
  clear h
  induction kept with
  | nil => cases n <;> simp
  | cons m kept ih =>
    have hm := hne m List.mem_cons_self
    have hrest := ih fun m hm => hne m (List.mem_cons_of_mem _ hm)
    rw [List.cons_append, List.takeWhile_cons, List.takeWhile_cons, hrest]
    simp [hm]

variable {α : Type}

theorem set_takeWhile {p : α → Bool} {elems : List α} {v : α}
    (h : ∀ a ∈ elems, p a = false → a = v) : elems.set (elems.takeWhile p).length v = elems := by
  induction elems with
  | nil => rfl
  | cons a elems ih =>
    rw [List.takeWhile_cons]
    cases ha : p a with
    | true =>
      rw [if_pos rfl, List.length_cons, List.set_cons_succ,
        ih fun b hb => h b (List.mem_cons_of_mem a hb)]
    | false =>
      rw [if_neg Bool.false_ne_true, List.length_nil, List.set_cons_zero,
        h a List.mem_cons_self ha]

theorem length_takeWhile_lt {p : α → Bool} {elems : List α}
    (h : ∃ a ∈ elems, p a = false) : (elems.takeWhile p).length < elems.length := by
  refine lt_of_le_of_ne (List.takeWhile_prefix p).length_le fun heq => ?_
  obtain ⟨a, ha, hfalse⟩ := h
  have hall := (List.takeWhile_prefix p).eq_of_length heq
  rw [List.takeWhile_eq_self_iff] at hall
  rw [hall a ha] at hfalse
  cases hfalse

theorem noteMpid_places (h : Kept kept) (mpid : ℤ) :
    noteMpid (places kept) mpid = places (Services.keep kept mpid) := by
  unfold noteMpid Services.keep
  by_cases hzero : mpid = 0
  · rw [if_pos hzero, if_pos (Or.inl hzero)]
  · rw [if_neg hzero, takeWhile_places h]
    have hlength := h.length_le
    by_cases hmem : ∃ m ∈ kept, (m : ℤ) = mpid
    · -- the place that has the protocol already is set to what it is
      have hlt := @length_takeWhile_lt _ (fun m : ℕ => decide ((m : ℤ) ≠ mpid)) kept
        (hmem.imp fun m hm => ⟨hm.1, by simp [hm.2]⟩)
      have hset := @set_takeWhile _ (fun m : ℕ => decide ((m : ℤ) ≠ mpid)) kept
        (mpid % 2 ^ 16).toNat (fun m hm hfalse => by
          have heq : (m : ℤ) = mpid := by simpa using hfalse
          have hbound := h.lt m hm
          omega)
      rw [if_pos (Or.inr (Or.inl hmem)), if_pos (by omega), places, List.set_append_left _ _ hlt,
        hset]
    · have hall : kept.takeWhile (fun m : ℕ => decide ((m : ℤ) ≠ mpid)) = kept := by
        rw [List.takeWhile_eq_self_iff]
        intro m hm
        exact decide_eq_true fun h => hmem ⟨m, hm, h⟩
      rw [hall]
      by_cases hfull : maxMpids ≤ kept.length
      · rw [if_neg (by omega), if_pos (Or.inr (Or.inr (Or.inl hfull)))]
      · obtain ⟨n, hn⟩ : ∃ n, maxMpids - kept.length = n + 1 :=
          ⟨maxMpids - kept.length - 1, by omega⟩
        have hset : (places kept).set kept.length (mpid % 2 ^ 16).toNat =
            kept ++ (mpid % 2 ^ 16).toNat :: List.replicate n 0 := by
          rw [places, hn, List.set_append_right _ _ (Nat.le_refl _), Nat.sub_self,
            List.replicate_succ, List.set_cons_zero]
        rw [if_pos (by omega), hset]
        by_cases hcut : mpid % 2 ^ 16 = 0
        · rw [if_pos (Or.inr (Or.inr (Or.inr hcut))), places, hn, hcut]
          rfl
        · rw [if_neg (by simp only [not_or]; exact ⟨hzero, hmem, hfull, hcut⟩), places,
            List.length_append, List.length_singleton, List.append_assoc]
          rw [show maxMpids - (kept.length + 1) = n by omega]
          rfl

theorem dataOf_concat (group : List Banner) (b : Banner) (hgroup : group ≠ []) :
    dataOf (group ++ [b]) =
      { dataOf group with mpids := noteMpid (dataOf group).mpids b.mpid } := by
  obtain ⟨first, rest, rfl⟩ := List.exists_cons_of_ne_nil hgroup
  have hkept : keptMpids (first :: rest ++ [b]) = Services.keep (keptMpids (first :: rest)) b.mpid := by
    rw [keptMpids, List.map_append, List.foldl_append]
    rfl
  unfold dataOf
  rw [hkept, noteMpid_places (kept_keptMpids _)]
  rfl

theorem dataOf_singleton (b : Banner) :
    dataOf [b] = { newService b.fpid with mpids := noteMpid (newService b.fpid).mpids b.mpid } := by
  have hnew : (newService b.fpid).mpids = places [] := rfl
  rw [hnew, noteMpid_places ⟨Nat.zero_le _, by simp, by simp⟩]
  rfl

theorem consistent_names : Consistent (fun name => objtblStrhash (some name))
    (fun a b => objtblStrcmp (some a) (some b)) fun _ => True := by
  apply Consistent.of_key (fun name => (some name).map cstring) fun _ _ _ _ => objtblStrcmp_eq_zero_iff
  exact fun a b _ _ h seed => objtblStrhash_congr h seed

def nameHashing : Hashing Bytes := consistent_names.hashing

variable {banners : List Banner}

theorem consistent_addrs (h : Regular banners) : Consistent (fun addr => addrhash (some addr))
    (fun a b => addrcmp (some a) (some b)) fun addr => ∃ b ∈ banners, b.addr = addr := by
  apply TableConsistency.consistent_addr
  · rintro addr ⟨b, hb, rfl⟩
    exact h.accepted b hb
  · rintro addr addr' ⟨b, hb, rfl⟩ ⟨b', hb', rfl⟩ hkey
    exact h.separate b hb b' hb' hkey

def addrHashing (h : Regular banners) : Hashing Bytes := (consistent_addrs h).hashing

theorem consistent_svcs (h : Regular banners) : Consistent svchash svccmp fun svc =>
    ∃ b ∈ banners, svc.addr = some b.addr := by
  apply TableConsistency.consistent_svc
  · rintro svc ⟨b, hb, haddr⟩
    exact ⟨b.addr, haddr, h.accepted b hb⟩
  · rintro svc svc' ⟨b, hb, haddr⟩ ⟨b', hb', haddr'⟩ hkey
    have hsame := congrArg Prod.snd hkey
    rw [svcKey, svcKey, haddr, haddr', Option.map_some, Option.map_some, Option.some.injEq] at hsame
    rw [haddr, haddr', h.separate b hb b' hb' hsame]

def svcHashing (h : Regular banners) : Hashing CollateService := (consistent_svcs h).hashing

theorem upsert_spec {Obj : Type} [Inhabited Obj] {H : Hashing Obj} {tbl : ObjtblCtx Obj}
    {live : List Obj} (rep : Represents H tbl live) {obj : Obj} (hvalid : H.Valid obj) :
    ∃ res after live', upsert tbl obj = some (some res, after) ∧ Represents H after live' ∧
      H.Valid res ∧ H.cmpfunc obj res = 0 := by
  unfold upsert
  rw [rep.objtblGet_spec hvalid]
  cases hget : H.liveGet obj live with
  | some res =>
    refine ⟨res, tbl, live, rfl, rep, rep.live_valid res (List.mem_of_find?_eq_some hget), ?_⟩
    have hsame : H.same obj res = true := List.find?_some hget
    exact beq_iff_eq.mp hsame
  | none =>
    obtain ⟨-, hinsert⟩ | ⟨-, after, hinsert, hafter⟩ := rep.objtblInsert_spec hvalid
    · refine ⟨obj, tbl, live, ?_, rep, hvalid, H.refl obj hvalid⟩
      simp [hinsert]
    · refine ⟨obj, after, _, ?_, hafter, hvalid, H.refl obj hvalid⟩
      simp [hinsert]

structure Collects (h : Regular banners) (seen : List Banner) (st : CollateCtx) : Prop where
  names : ∃ live, Represents nameHashing st.nametbl live
  addrs : ∃ live, Represents (addrHashing h) st.addrtbl live
  svcs : ∃ svcs : List CollateService, Represents (svcHashing h) st.svctbl svcs.reverse ∧
    svcs.map svcKey = (keysOf seen).map (Prod.map id some) ∧
    ∀ (i : ℕ) (svc : CollateService), svcs[i]? = some svc → svc.index = i
  services : st.services = servicesOf seen

variable {h : Regular banners} {seen : List Banner} {st : CollateCtx}

theorem Collects.upsertName (hst : Collects h seen st) (name : Option Bytes) :
    ∃ res after, upsertName name st = some (res, after) ∧ Collects h seen after ∧
      after.services = st.services ∧ res.map cstring = nameKey name := by
  cases name with
  | none => exact ⟨none, st, rfl, hst, rfl, rfl⟩
  | some name =>
    unfold Services.upsertName nameKey
    by_cases hempty : name.length = 0
    · refine ⟨none, st, ?_, hst, rfl, ?_⟩
      · simp [hempty]
      · simp [hempty]
    · obtain ⟨live, rep⟩ := hst.names
      obtain ⟨res, after, live', hrun, hafter, -, hcmp⟩ := upsert_spec rep trivial
      have hkey : (some name).map cstring = (some res).map cstring :=
        objtblStrcmp_eq_zero_iff.mp hcmp
      refine ⟨some res, { st with nametbl := after }, ?_,
        ⟨⟨live', hafter⟩, hst.addrs, hst.svcs, hst.services⟩, rfl, ?_⟩
      · simp [hempty, hrun]
      · simp only [if_neg hempty]
        exact hkey.symm

variable {b : Banner}

theorem Collects.upsertAddr (hst : Collects h seen st) (hb : b ∈ banners) :
    ∃ after, upsertAddr b.addr st = some (some b.addr, after) ∧ Collects h seen after ∧
      after.services = st.services := by
  obtain ⟨live, rep⟩ := hst.addrs
  have haccepted := h.accepted b hb
  obtain ⟨res, after, live', hrun, hafter, ⟨b', hb', hres⟩, hcmp⟩ :=
    @upsert_spec _ _ _ _ _ rep b.addr ⟨b, hb, rfl⟩
  have hkey : addrKey b.addr = addrKey res :=
    (addrcmp_eq_zero_iff haccepted (hres ▸ h.accepted b' hb')).mp hcmp
  have hsame : b.addr = res := by
    rw [← hres] at hkey ⊢
    exact h.separate b hb b' hb' hkey
  refine ⟨{ st with addrtbl := after }, ?_, ⟨hst.names, ⟨live', hafter⟩, hst.svcs, hst.services⟩,
    rfl⟩
  unfold Services.upsertAddr
  rw [if_neg (not_not.mpr haccepted), hrun, ← hsame]
  rfl

theorem keysOf_concat (seen : List Banner) (b : Banner) :
    keysOf (seen ++ [b]) =
      if b.service ∈ keysOf seen then keysOf seen else keysOf seen ++ [b.service] := by
  unfold keysOf
  rw [List.map_append, List.map_singleton, eraseDups_concat]
  simp only [List.mem_eraseDups]

theorem groupOf_concat_self (seen : List Banner) (b : Banner) :
    groupOf (seen ++ [b]) b.service = groupOf seen b.service ++ [b] := by
  rw [groupOf, List.filter_append, List.filter_cons_of_pos (by simp), List.filter_nil]
  rfl

variable {key : ServiceKey}

theorem groupOf_concat_of_ne (seen : List Banner)
    (hne : b.service ≠ key) : groupOf (seen ++ [b]) key = groupOf seen key := by
  rw [groupOf, List.filter_append, List.filter_cons_of_neg (by simpa using hne), List.filter_nil,
    List.append_nil]
  rfl

theorem exists_of_mem_keysOf (hkey : key ∈ keysOf seen) :
    ∃ b ∈ seen, b.service = key :=
  List.mem_map.mp (List.mem_eraseDups.mp hkey)

theorem groupOf_ne_nil (hkey : key ∈ keysOf seen) :
    groupOf seen key ≠ [] := by
  obtain ⟨b, hb, hservice⟩ := exists_of_mem_keysOf hkey
  exact List.ne_nil_of_mem (List.mem_filter.mpr ⟨hb, by simpa using hservice⟩)

theorem groupOf_eq_nil (hkey : key ∉ keysOf seen) :
    groupOf seen key = [] := by
  rw [groupOf, List.filter_eq_nil_iff]
  intro b hb hservice
  apply hkey
  rw [keysOf, List.mem_eraseDups, List.mem_map]
  exact ⟨b, hb, by simpa using hservice⟩

theorem servicesOf_known {i : ℕ}
    (hi : (keysOf seen)[i]? = some b.service) :
    servicesOf (seen ++ [b]) = (servicesOf seen).modify i fun svc =>
      { svc with mpids := noteMpid svc.mpids b.mpid } := by
  have hmem := List.mem_of_getElem? hi
  have hkeys : keysOf (seen ++ [b]) = keysOf seen := by rw [keysOf_concat, if_pos hmem]
  unfold servicesOf
  rw [hkeys]
  apply List.ext_getElem?
  intro j
  rw [List.getElem?_modify, List.getElem?_map, List.getElem?_map]
  cases hj : (keysOf seen)[j]? with
  | none => rfl
  | some key =>
    by_cases hij : i = j
    · subst hij
      obtain rfl : key = b.service := Option.some.inj (hj.symm.trans hi)
      change some (dataOf _) = some (if i = i then _ else dataOf (groupOf seen b.service))
      rw [if_pos rfl, groupOf_concat_self, dataOf_concat _ _ (groupOf_ne_nil hmem)]
    · have hne : b.service ≠ key := by
        rintro rfl
        have hlt := (List.getElem?_eq_some_iff.mp hi).1
        exact hij ((List.getElem?_inj hlt (nodup_eraseDups _)).mp (hi.trans hj.symm))
      change some (dataOf _) = some (if i = j then _ else _)
      rw [if_neg hij, groupOf_concat_of_ne _ hne]

theorem modify_concat (elems : List α) (a : α) (f : α → α) :
    (elems ++ [a]).modify elems.length f = elems ++ [f a] := by
  induction elems with
  | nil => rfl
  | cons b elems ih => rw [List.cons_append, List.length_cons, List.modify_succ_cons, ih]; rfl

theorem servicesOf_new (hnew : b.service ∉ keysOf seen) :
    servicesOf (seen ++ [b]) = servicesOf seen ++ [dataOf [b]] := by
  unfold servicesOf
  rw [keysOf_concat, if_neg hnew, List.map_append, List.map_singleton, groupOf_concat_self,
    groupOf_eq_nil hnew, List.nil_append]
  congr 1
  apply List.map_congr_left
  intro key hkey
  have hne : b.service ≠ key := fun heq => hnew (heq ▸ hkey)
  rw [groupOf_concat_of_ne _ hne]

theorem length_servicesOf (seen : List Banner) : (servicesOf seen).length = (keysOf seen).length :=
  List.length_map _

theorem length_keysOf_le_concat (seen : List Banner) (b : Banner) :
    (keysOf seen).length ≤ (keysOf (seen ++ [b])).length := by
  rw [keysOf_concat]
  split
  · exact Nat.le_refl _
  · rw [List.length_append]
    exact Nat.le_add_right _ _

theorem svcKey_of_banner {name : Option Bytes} (hname : name.map cstring = nameKey b.name)
    (index : ℕ) : svcKey ⟨some b.addr, name, index⟩ = Prod.map id some b.service := by
  rw [svcKey, hname]
  rfl

theorem Collects.upsertService (hst : Collects h seen st) (hb : b ∈ banners) {name : Option Bytes}
    (hname : name.map cstring = nameKey b.name)
    (hroom : (keysOf (seen ++ [b])).length ≤ maxKeys) :
    ∃ index svctbl services,
      upsertService (some b.addr) name b.fpid st =
        some (index, { st with svctbl := svctbl, services := services }) ∧
      (∃ svcs : List CollateService, Represents (svcHashing h) svctbl svcs.reverse ∧
        svcs.map svcKey = (keysOf (seen ++ [b])).map (Prod.map id some) ∧
        ∀ (i : ℕ) (svc : CollateService), svcs[i]? = some svc → svc.index = i) ∧
      services.modify index (fun svc => { svc with mpids := noteMpid svc.mpids b.mpid }) =
        servicesOf (seen ++ [b]) := by
  obtain ⟨svcs, rep, hkeys, hindex⟩ := hst.svcs
  have hinj : Function.Injective (Prod.map id some : ServiceKey → _) :=
    Function.injective_id.prodMap (Option.some_injective _)
  have hlength : svcs.length = (keysOf seen).length := by
    have hmap := congrArg List.length hkeys
    rwa [List.length_map, List.length_map] at hmap
  have hcount : st.services.length = svcs.length := by
    rw [hst.services, length_servicesOf, hlength]
  set key : CollateService := ⟨some b.addr, name, st.services.length⟩ with hkey
  have hvalid : (svcHashing h).Valid key := ⟨b, hb, rfl⟩
  have hsvcKey : svcKey key = Prod.map id some b.service := svcKey_of_banner hname _
  have hcmp : ∀ svc : CollateService, (svcHashing h).Valid svc →
      ((svcHashing h).keyOf svc = (svcHashing h).keyOf key ↔ svcKey svc = svcKey key) := by
    intro svc hsvc
    rw [Hashing.keyOf_eq hsvc hvalid]
    obtain ⟨b', hb', haddr⟩ := hsvc
    exact svccmp_eq_zero_iff ⟨b'.addr, haddr, h.accepted b' hb'⟩ ⟨b.addr, rfl, h.accepted b hb⟩
  unfold Services.upsertService
  dsimp only
  rw [← hkey]
  by_cases hknown : b.service ∈ keysOf seen
  · obtain ⟨i, hi⟩ := List.mem_iff_getElem?.mp hknown
    have hstored : (svcs.map svcKey)[i]? = some (svcKey key) := by
      rw [hkeys, List.getElem?_map, hi, hsvcKey]
      rfl
    rw [List.getElem?_map] at hstored
    obtain ⟨svc, hsvc, hsame⟩ := Option.map_eq_some_iff.mp hstored
    have hmem : svc ∈ svcs.reverse := List.mem_reverse.mpr (List.mem_of_getElem? hsvc)
    have hget := Hashing.liveGet_eq_some rep.live_valid hvalid rep.distinct hmem
      ((hcmp svc (rep.live_valid svc hmem)).mpr hsame)
    refine ⟨i, st.svctbl, st.services, ?_, ⟨svcs, rep, ?_, hindex⟩, ?_⟩
    · rw [rep.objtblGet_spec hvalid, hget, ← hindex i svc hsvc]
      rfl
    · rw [keysOf_concat, if_pos hknown, hkeys]
    · rw [hst.services, servicesOf_known hi]
  · have hmiss : (svcHashing h).keyOf key ∉
        (svcs.reverse : Multiset CollateService).map (svcHashing h).keyOf := by
      intro hmem
      obtain ⟨svc, hsvc, hsame⟩ := Multiset.mem_map.mp hmem
      have hlive := Multiset.mem_coe.mp hsvc
      have heq := (hcmp svc (rep.live_valid svc hlive)).mp hsame
      have hin := List.mem_map_of_mem (f := svcKey) (List.mem_reverse.mp hlive)
      rw [hkeys, heq, hsvcKey] at hin
      exact hknown ((List.mem_map_of_injective hinj).mp hin)
    have hget := Hashing.liveGet_eq_none rep.live_valid hvalid hmiss
    have hlive : (svcHashing h).liveInsert key svcs.reverse = (svcs ++ [key]).reverse := by
      have hremove := Hashing.liveRemove_of_not_mem rep.live_valid hvalid hmiss
      change key :: (svcHashing h).liveRemove key svcs.reverse = _
      rw [hremove, List.reverse_append]
      rfl
    rw [keysOf_concat, if_neg hknown] at hroom ⊢
    obtain ⟨hfull, -⟩ | ⟨-, svctbl, hinsert, hafter⟩ := rep.objtblInsert_spec hvalid
    · rw [List.length_reverse, hlength] at hfull
      rw [List.length_append, List.length_singleton] at hroom
      omega
    · rw [hlive] at hafter
      refine ⟨st.services.length, svctbl, st.services ++ [newService b.fpid], ?_,
        ⟨svcs ++ [key], hafter, ?_, ?_⟩, ?_⟩
      · rw [rep.objtblGet_spec hvalid, hget]
        rw [hinsert]
        rfl
      · rw [List.map_append, List.map_append, hkeys, List.map_singleton, List.map_singleton,
          hsvcKey]
      · intro i svc hi
        by_cases hlast : i = svcs.length
        · subst hlast
          rw [List.getElem?_concat_length, Option.some.injEq] at hi
          rw [← hi]
          exact hcount
        · have hlt : i < svcs.length := by
            have hle := (List.getElem?_eq_some_iff.mp hi).1
            rw [List.length_append, List.length_singleton] at hle
            omega
          rw [List.getElem?_append_left hlt] at hi
          exact hindex i svc hi
      · rw [servicesOf_new hknown, dataOf_singleton, hst.services]
        exact modify_concat _ _ _

theorem Collects.processBanner (hst : Collects h seen st) (hb : b ∈ banners)
    (hroom : (keysOf (seen ++ [b])).length ≤ maxKeys) :
    ∃ index after, processBanner b st = some (some index, after) ∧
      Collects h (seen ++ [b]) after := by
  obtain ⟨name, named, hname, hnamed, -, hkey⟩ := hst.upsertName b.name
  obtain ⟨addressed, haddr, haddressed, -⟩ := hnamed.upsertAddr hb
  obtain ⟨index, svctbl, services, hservice, hsvcs, hservices⟩ :=
    haddressed.upsertService hb hkey hroom
  refine ⟨index, { addressed with svctbl := svctbl, services := _ }, ?_,
    ⟨haddressed.names, haddressed.addrs, hsvcs, hservices⟩⟩
  unfold Services.processBanner
  rw [hname]
  change (Services.upsertAddr b.addr named).bind _ = _
  rw [haddr]
  change (Services.upsertService (some b.addr) name b.fpid addressed).bind _ = _
  rw [hservice]
  rfl

theorem Collects.processAll
    (hst : Collects h seen st) {rest : List Banner} (hrest : ∀ b ∈ rest, b ∈ banners)
    (hroom : (keysOf (seen ++ rest)).length ≤ maxKeys) :
    ∃ after,
      rest.foldlM (fun st banner => (Services.processBanner banner st).map Prod.snd) st =
        some after ∧
      Collects h (seen ++ rest) after := by
  induction rest generalizing seen st with
  | nil => exact ⟨st, rfl, by rwa [List.append_nil]⟩
  | cons b rest ih =>
    rw [List.append_cons] at hroom ⊢
    have hmore : ∀ rest, (keysOf (seen ++ [b])).length ≤ (keysOf (seen ++ [b] ++ rest)).length := by
      intro rest
      induction rest using List.reverseRecOn with
      | nil => rw [List.append_nil]
      | append_singleton rest last ih =>
        rw [← List.append_assoc]
        exact ih.trans (length_keysOf_le_concat _ _)
    obtain ⟨index, mid, hrun, hmid⟩ := hst.processBanner (hrest b List.mem_cons_self)
      ((hmore rest).trans hroom)
    obtain ⟨after, hall, hafter⟩ := ih hmid (fun b' hb' => hrest b' (List.mem_cons_of_mem _ hb')) hroom
    refine ⟨after, ?_, hafter⟩
    rw [List.foldlM_cons, hrun]
    exact hall

theorem collects_init (h : Regular banners) (hashseed : UInt32) :
    ∃ st, tablesInit hashseed = some st ∧ Collects h [] st := by
  obtain ⟨hbig, -⟩ | ⟨-, addrtbl, haddrtbl, haddrs⟩ :=
    @objtblInit_spec _ (addrHashing h) _ nmembAddr hashseed
  · exact absurd hbig (by decide)
  · obtain ⟨hbig, -⟩ | ⟨-, nametbl, hnametbl, hnames⟩ :=
      @objtblInit_spec _ nameHashing _ nmembName hashseed
    · exact absurd hbig (by decide)
    · obtain ⟨hbig, -⟩ | ⟨-, svctbl, hsvctbl, hsvcs⟩ :=
        @objtblInit_spec _ (svcHashing h) _ nmembSvcs hashseed
      · exact absurd hbig (by decide)
      · refine ⟨⟨nametbl, addrtbl, svctbl, []⟩, ?_,
          ⟨⟨[], hnames⟩, ⟨[], haddrs⟩, ⟨[], hsvcs, rfl, by simp⟩, rfl⟩⟩
        have haddrOpts : (addrHashing h).opts hashseed = addrtblOpts hashseed := rfl
        have hnameOpts : nameHashing.opts hashseed = nametblOpts hashseed := rfl
        have hsvcOpts : (svcHashing h).opts hashseed = svctblOpts hashseed := rfl
        rw [haddrOpts] at haddrtbl
        rw [hnameOpts] at hnametbl
        rw [hsvcOpts] at hsvctbl
        simp [tablesInit, haddrtbl, hnametbl, hsvctbl]

theorem isComparison_nullcmp {cmp : α → α → ℤ} {S : α → Prop} (h : IsComparison cmp S) :
    IsComparison (nullcmp cmp) fun a => ∀ x ∈ a, S x where
  swap a b ha hb := by
    cases a with
    | none => cases b <;> simp [nullcmp]
    | some a =>
      cases b with
      | none => simp [nullcmp]
      | some b => exact h.swap a b (ha a rfl) (hb b rfl)
  trans a b c ha hb hc hab hbc := by
    cases a with
    | none =>
      cases b with
      | none => exact hbc
      | some b => exact absurd hab (by simp [nullcmp])
    | some a =>
      cases c with
      | none => simp [nullcmp]
      | some c =>
        cases b with
        | none => exact absurd hbc (by simp [nullcmp])
        | some b => exact h.trans a b c (ha a rfl) (hb b rfl) (hc c rfl) hab hbc

theorem isComparison_addrMemcmp (off len : ℕ) : IsComparison (addrMemcmp off len) fun _ => True := by
  have haddr := (isComparison_memcmp len).comap fun mem : Bytes => mem.drop off
  have hport := (isComparison_memcmp 2).comap fun mem : Bytes => mem.drop 2
  exact haddr.lex hport

theorem isComparison_addrcmp :
    IsComparison (fun a b => addrcmp (some a) (some b)) fun addr =>
      saFamily addr = afInet ∨ saFamily addr = afInet6 := by
  have hne : afInet ≠ afInet6 := by decide
  have hinet := (isComparison_addrMemcmp 4 4).neg
  have hinet6 := (isComparison_addrMemcmp 8 16).neg
  constructor
  · rintro a b (ha | ha) (hb | hb) <;> simp only [addrcmp, nullcmp, ha, hb, hne, hne.symm]
    · simpa using hinet.swap a b trivial trivial
    · simp
    · simp
    · simpa using hinet6.swap a b trivial trivial
  · rintro a b c (ha | ha) (hb | hb) (hc | hc) <;>
      simp only [addrcmp, nullcmp, ha, hb, hc, hne, hne.symm]
    · simpa using hinet.trans a b c trivial trivial trivial
    · simp
    · simp
    · simp
    · simp
    · simp
    · simp
    · simpa using hinet6.trans a b c trivial trivial trivial

theorem isComparison_svccmp :
    IsComparison svccmp fun svc => ∀ addr ∈ svc.addr, AddrAccepted addr := by
  have hname : IsComparison (fun a b : CollateService => objtblStrcmp a.name b.name)
      fun svc => ∀ _ ∈ svc.name, True :=
    (isComparison_nullcmp isComparison_strcmp).comap CollateService.name
  have haddr : IsComparison (fun a b : CollateService => addrcmp a.addr b.addr)
      fun svc => ∀ addr ∈ svc.addr, saFamily addr = afInet ∨ saFamily addr = afInet6 :=
    (isComparison_nullcmp isComparison_addrcmp).comap CollateService.addr
  have hfamily : ∀ svc : CollateService, (∀ addr ∈ svc.addr, AddrAccepted addr) →
      ∀ addr ∈ svc.addr, saFamily addr = afInet ∨ saFamily addr = afInet6 :=
    fun svc h addr haddr => (h addr haddr).imp And.left And.left
  exact (hname.mono fun _ _ _ _ => trivial).lex (haddr.mono hfamily)

theorem orders_svcs (h : Regular banners) {objects : List CollateService}
    (hvalid : ∀ svc ∈ objects, (svcHashing h).Valid svc) : Orders svccmp objects := by
  have haccepted : ∀ svc ∈ objects, ∀ addr ∈ svc.addr, AddrAccepted addr := by
    intro svc hsvc addr haddr
    obtain ⟨b, hb, hsome⟩ := hvalid svc hsvc
    rw [hsome] at haddr
    exact Option.some.inj haddr ▸ h.accepted b hb
  constructor
  · intro a ha b hb
    exact isComparison_svccmp.total (haccepted a ha) (haccepted b hb)
  · intro a ha b hb c hc
    exact isComparison_svccmp.trans_nonneg (haccepted a ha) (haccepted b hb) (haccepted c hc)

end Yans.Apps.Services
