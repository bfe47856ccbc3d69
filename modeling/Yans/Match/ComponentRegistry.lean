import Yans.Library.FirstOccurrences
import Yans.Match.Component
import Yans.Util.ObjtblSort

/-! What the registry of components is for: the distinct pairs of a name and a
version in the order of their first registration, each with the distinct
services it was registered with. -/
namespace Yans.Match.Component

open Library.Memory Library.Strings Library.FirstOccurrences Util.Objtbl Util.TableSize

/-- A call of `component_register` with a name. -/
structure Registration where
  name : Bytes
  version : Option Bytes
  serviceId : ℤ
deriving DecidableEq

abbrev Pair := Bytes × Option Bytes

def Registration.pair (r : Registration) : Pair := (cstring r.name, r.version.map cstring)

/-- The number of services at which the size of the array would not be an `int`. -/
def maxServices : ℕ := 393515929

/-- The pairs that have an entry. A table takes no more than `maxKeys`. -/
def pairsOf (calls : List Registration) : List Pair :=
  (calls.map Registration.pair).eraseDups.take maxKeys

def servicesOf (calls : List Registration) (pair : Pair) : List ℤ :=
  ((calls.filter (·.pair = pair)).map Registration.serviceId).eraseDups.take maxServices

def entryOf (i : ℕ) (pair : Pair) : ComponentEntry := ⟨i + 1, some pair.1, pair.2⟩

def registryOf (calls : List Registration) : List (ComponentEntry × List ℤ) :=
  (pairsOf calls).mapIdx fun i pair => (entryOf i pair, servicesOf calls pair)

def capacities : List ℕ :=
  [0, 8, 16, 24, 36, 54, 81, 121, 181, 271, 406, 609, 913, 1369, 2053, 3079, 4618, 6927, 10390,
    15585, 23377, 35065, 52597, 78895, 118342, 177513, 266269, 399403, 599104, 898656, 1347984,
    2021976, 3032964, 4549446, 6824169, 10236253, 15354379, 23031568, 34547352, 51821028,
    77731542, 116597313, 174895969, 262343953, 393515929]

theorem grow_capacities : ∀ scap ∈ capacities, scap ≠ maxServices →
    max (scap / 2) 8 + scap ∈ capacities ∧
      ¬ toInt (4 * (max (scap / 2) 8 + scap : ℕ)) ≤ scap := by
  decide

theorem capacities_le : ∀ scap ∈ capacities, scap ≤ maxServices := by
  decide

structure HoldsServices (e : Services) (services : List ℤ) : Prop where
  services_eq : e.services = services
  scap_mem : e.scap ∈ capacities
  length_le : services.length ≤ e.scap

theorem HoldsServices.nil : HoldsServices ⟨[], 0⟩ [] := ⟨rfl, by decide, le_rfl⟩

theorem componentEntryHasService_eq (e : Services) (service : ℤ) :
    componentEntryHasService e service = decide (service ∈ e.services) := by
  rw [componentEntryHasService, Bool.eq_iff_iff]
  simp

theorem HoldsServices.add {e : Services} {services : List ℤ} (h : HoldsServices e services)
    {service : ℤ} (hnew : service ∉ services) :
    (maxServices ≤ services.length ∧ componentEntryAddService e service = none ∧
      push maxServices services service = services) ∨
    ∃ after, componentEntryAddService e service = some after ∧
      HoldsServices after (push maxServices services service) := by
  have hle := h.length_le
  have hmax := capacities_le _ h.scap_mem
  by_cases hfull : maxServices ≤ services.length
  · left
    have hscap : e.scap = maxServices := by omega
    have hgrow : grow e = none := by
      unfold grow
      rw [hscap]
      rfl
    refine ⟨hfull, ?_, if_pos (Or.inr hfull)⟩
    rw [componentEntryAddService, h.services_eq, if_pos (by omega), hgrow]
    rfl
  · right
    have hpush : push maxServices services service = services ++ [service] := by
      rw [push, if_neg (not_or.mpr ⟨hnew, hfull⟩)]
    rw [hpush]
    have hlength : (services ++ [service]).length = services.length + 1 := by
      rw [List.length_append, List.length_singleton]
    by_cases hcap : services.length = e.scap
    · obtain ⟨hmem, hfits⟩ := grow_capacities _ h.scap_mem (by omega)
      refine ⟨⟨services ++ [service], max (e.scap / 2) 8 + e.scap⟩, ?_, rfl, hmem, ?_⟩
      · have hgrow : grow e = some { e with scap := max (e.scap / 2) 8 + e.scap } := by
          unfold grow
          rw [if_neg hfits]
        rw [componentEntryAddService, h.services_eq, if_pos hcap, hgrow]
        simp [h.services_eq]
      · dsimp only
        have hstep : 8 ≤ max (e.scap / 2) 8 := Nat.le_max_right _ _
        omega
    · refine ⟨⟨services ++ [service], e.scap⟩, ?_, rfl, h.scap_mem, ?_⟩
      · rw [componentEntryAddService, h.services_eq, if_neg hcap]
        simp [h.services_eq]
      · dsimp only
        omega

variable {c : ComponentCtx}

theorem registerService_spec {obj : ComponentEntry} {services : List ℤ}
    (h : HoldsServices (c.services obj.id) services) (serviceId : ℤ) :
    ∃ after, registerService c obj serviceId = { c with services := after } ∧
      HoldsServices (after obj.id) (push maxServices services serviceId) ∧
      ∀ id, id ≠ obj.id → after id = c.services id := by
  unfold registerService
  rw [componentEntryHasService_eq, h.services_eq]
  by_cases hmem : serviceId ∈ services
  · rw [if_pos (decide_eq_true hmem)]
    refine ⟨c.services, rfl, ?_, fun _ _ => rfl⟩
    rwa [push, if_pos (Or.inl hmem)]
  · rw [if_neg (by simpa using hmem)]
    obtain ⟨-, hadd, hpush⟩ | ⟨added, hadd, hadded⟩ := h.add hmem
    · rw [hadd]
      refine ⟨c.services, rfl, ?_, fun _ _ => rfl⟩
      rwa [hpush]
    · rw [hadd]
      refine ⟨_, rfl, by rwa [Function.update_self], fun id hid => ?_⟩
      rw [Function.update_of_ne hid]

section

variable (calls : List Registration)

include calls

theorem pairsOf_concat (r : Registration) :
    pairsOf (calls ++ [r]) = push maxKeys (pairsOf calls) r.pair := by
  rw [pairsOf, List.map_append, List.map_singleton, take_eraseDups_concat]
  rfl

theorem servicesOf_concat_self (r : Registration) :
    servicesOf (calls ++ [r]) r.pair = push maxServices (servicesOf calls r.pair) r.serviceId := by
  rw [servicesOf, List.filter_append, List.filter_cons_of_pos (by simp), List.filter_nil,
    List.map_append, List.map_singleton, take_eraseDups_concat]
  rfl

theorem servicesOf_concat_of_ne {r : Registration} {pair : Pair}
    (hne : r.pair ≠ pair) : servicesOf (calls ++ [r]) pair = servicesOf calls pair := by
  rw [servicesOf, List.filter_append, List.filter_cons_of_neg (by simpa using hne),
    List.filter_nil, List.append_nil]
  rfl

theorem nodup_pairsOf : (pairsOf calls).Nodup :=
  (List.take_sublist _ _).nodup (nodup_eraseDups _)

end

variable {calls : List Registration}

theorem exists_of_mem_pairsOf {pair : Pair} (h : pair ∈ pairsOf calls) :
    ∃ r ∈ calls, r.pair = pair :=
  List.mem_map.mp (List.mem_eraseDups.mp (List.mem_of_mem_take h))

theorem servicesOf_of_unseen {pair : Pair}
    (hroom : (pairsOf calls).length < maxKeys) (hnew : pair ∉ pairsOf calls) :
    servicesOf calls pair = [] := by
  have hall : pairsOf calls = (calls.map Registration.pair).eraseDups := by
    apply List.take_of_length_le
    rw [pairsOf, List.length_take] at hroom
    omega
  have hnone : calls.filter (·.pair = pair) = [] := by
    rw [List.filter_eq_nil_iff]
    intro r hr heq
    apply hnew
    rw [hall, List.mem_eraseDups, List.mem_map]
    exact ⟨r, hr, by simpa using heq⟩
  rw [servicesOf, hnone]
  rfl

theorem ctblKey_entryOf {pair : Pair} (h : pair ∈ pairsOf calls)
    (i : ℕ) : ctblKey (entryOf i pair) = some pair := by
  obtain ⟨r, -, rfl⟩ := exists_of_mem_pairsOf h
  have hversion : (r.version.map cstring).map cstring = r.version.map cstring := by
    rw [Option.map_map]
    congr 1
    funext mem
    exact cstring_cstring mem
  rw [ctblKey, entryOf, Option.map_some, Registration.pair, cstring_cstring, hversion]

def ctblHashing : Hashing ComponentEntry := consistent_of_name.hashing

theorem keyOf_eq_iff {a b : ComponentEntry} (ha : a.name.isSome) (hb : b.name.isSome) :
    ctblHashing.keyOf a = ctblHashing.keyOf b ↔ ctblKey a = ctblKey b :=
  (Hashing.keyOf_eq ha hb).trans ctblcmp_eq_zero_iff

def entriesOf (pairs : List Pair) : List ComponentEntry := pairs.mapIdx entryOf

theorem mem_entriesOf {pairs : List Pair} {e : ComponentEntry} :
    e ∈ entriesOf pairs ↔ ∃ i pair, pairs[i]? = some pair ∧ entryOf i pair = e := by
  rw [entriesOf, List.mem_iff_getElem?]
  simp only [List.getElem?_mapIdx, Option.map_eq_some_iff]

/-- The registry after these calls of `component_register`. -/
structure Registered (calls : List Registration) (c : ComponentCtx) : Prop where
  unsorted : c.sorted = false
  next_eq : c.componentId = (pairsOf calls).length + 1
  rep : Represents ctblHashing c.ctbl (entriesOf (pairsOf calls)).reverse
  services : ∀ i pair, (pairsOf calls)[i]? = some pair →
    HoldsServices (c.services (i + 1)) (servicesOf calls pair)

namespace Registered

def lookup (r : Registration) : ComponentEntry := ⟨0, some r.name, r.version⟩

theorem ctblKey_lookup (r : Registration) : ctblKey (lookup r) = some r.pair := rfl

variable {r : Registration}

theorem get_some (h : Registered calls c) {i : ℕ}
    (hi : (pairsOf calls)[i]? = some r.pair) :
    objtblGet c.ctbl (some (lookup r)) = some (.ok, some (entryOf i r.pair)) := by
  have hvalid : ctblHashing.Valid (lookup r) := rfl
  have hentry : entryOf i r.pair ∈ (entriesOf (pairsOf calls)).reverse :=
    List.mem_reverse.mpr (mem_entriesOf.mpr ⟨i, r.pair, hi, rfl⟩)
  have hkey : ctblHashing.keyOf (entryOf i r.pair) = ctblHashing.keyOf (lookup r) := by
    rw [keyOf_eq_iff rfl rfl, ctblKey_entryOf (List.mem_of_getElem? hi)]
    rfl
  have hget := Hashing.liveGet_eq_some h.rep.live_valid hvalid h.rep.distinct hentry hkey
  rw [h.rep.objtblGet_spec hvalid, hget]
  rfl

theorem keyOf_notMem {e : ComponentEntry}
    (hnew : r.pair ∉ pairsOf calls) (hname : e.name.isSome) (he : ctblKey e = some r.pair) :
    ctblHashing.keyOf e ∉
      ((entriesOf (pairsOf calls)).reverse : Multiset ComponentEntry).map ctblHashing.keyOf := by
  intro hmem
  obtain ⟨other, hother, hkey⟩ := Multiset.mem_map.mp hmem
  obtain ⟨i, pair, hi, rfl⟩ := mem_entriesOf.mp (List.mem_reverse.mp (Multiset.mem_coe.mp hother))
  have hpair := List.mem_of_getElem? hi
  rw [keyOf_eq_iff rfl hname, ctblKey_entryOf hpair, he, Option.some.injEq] at hkey
  exact hnew (hkey ▸ hpair)

section

variable (h : Registered calls c)

include h

theorem get_none (hnew : r.pair ∉ pairsOf calls) :
    objtblGet c.ctbl (some (lookup r)) = some (.enotfound, none) := by
  have hvalid : ctblHashing.Valid (lookup r) := rfl
  have hget := Hashing.liveGet_eq_none h.rep.live_valid hvalid
    (keyOf_notMem hnew rfl (ctblKey_lookup r))
  rw [h.rep.objtblGet_spec hvalid, hget]
  rfl

theorem register_known (hknown : r.pair ∈ pairsOf calls) :
    ∃ after, componentRegister c (some r.name) r.version r.serviceId = some (0, after) ∧
      Registered (calls ++ [r]) after := by
  obtain ⟨i, hi⟩ := List.mem_iff_getElem?.mp hknown
  have hpairs : pairsOf (calls ++ [r]) = pairsOf calls := by
    rw [pairsOf_concat, push, if_pos (Or.inl hknown)]
  obtain ⟨services, hregister, hself, hothers⟩ :=
    @registerService_spec c (entryOf i r.pair) _ (h.services i r.pair hi) r.serviceId
  refine ⟨{ c with services := services }, ?_, h.unsorted, ?_, ?_, ?_⟩
  · rw [componentRegister, if_neg (by simp [h.unsorted]), ← lookup, h.get_some hi, ← hregister]
    rfl
  · rw [hpairs]
    exact h.next_eq
  · rw [hpairs]
    exact h.rep
  · intro j pair hj
    rw [hpairs] at hj
    by_cases hpair : r.pair = pair
    · subst hpair
      -- a pair has one entry
      obtain rfl : j = i := by
        have hlt := (List.getElem?_eq_some_iff.mp hj).1
        exact (List.getElem?_inj hlt (nodup_pairsOf calls)).mp (hj.trans hi.symm)
      rw [servicesOf_concat_self]
      exact hself
    · have hne : j + 1 ≠ (entryOf i r.pair).id := by
        intro hid
        obtain rfl : j = i := Nat.succ.inj hid
        exact hpair (Option.some.inj (hi.symm.trans hj))
      dsimp only
      rw [servicesOf_concat_of_ne calls hpair, hothers _ hne]
      exact h.services j pair hj

theorem register_full (hnew : r.pair ∉ pairsOf calls) (hfull : maxKeys ≤ (pairsOf calls).length) :
    componentRegister c (some r.name) r.version r.serviceId = some (-1, c) ∧
      Registered (calls ++ [r]) c := by
  have hpairs : pairsOf (calls ++ [r]) = pairsOf calls := by
    rw [pairsOf_concat, push, if_pos (Or.inr hfull)]
  have hlength : (entriesOf (pairsOf calls)).reverse.length = (pairsOf calls).length := by
    rw [List.length_reverse, entriesOf, List.length_mapIdx]
  have hvalid : ctblHashing.Valid (entryOf (pairsOf calls).length r.pair) := rfl
  obtain ⟨-, hinsert⟩ | ⟨hroom, -⟩ := h.rep.objtblInsert_spec hvalid
  · constructor
    · rw [componentRegister, if_neg (by simp [h.unsorted]), ← lookup, h.get_none hnew]
      have hobj : (⟨c.componentId, (some r.name).map cstring, r.version.map cstring⟩ :
          ComponentEntry) = entryOf (pairsOf calls).length r.pair := by
        rw [h.next_eq]
        rfl
      change (objtblInsert c.ctbl (some _)).bind _ = _
      rw [hobj, hinsert]
      rfl
    · refine ⟨h.unsorted, by rw [hpairs]; exact h.next_eq, by rw [hpairs]; exact h.rep, ?_⟩
      intro j pair hj
      rw [hpairs] at hj
      have hne : r.pair ≠ pair := fun heq => hnew (heq ▸ List.mem_of_getElem? hj)
      rw [servicesOf_concat_of_ne calls hne]
      exact h.services j pair hj
  · omega

theorem register_new (hnew : r.pair ∉ pairsOf calls) (hroom : (pairsOf calls).length < maxKeys) :
    ∃ after, componentRegister c (some r.name) r.version r.serviceId = some (0, after) ∧
      Registered (calls ++ [r]) after := by
  set n := (pairsOf calls).length with hn
  have hpairs : pairsOf (calls ++ [r]) = pairsOf calls ++ [r.pair] := by
    rw [pairsOf_concat, push, if_neg (by simp [hnew, hroom, ← hn])]
  have hlength : (entriesOf (pairsOf calls)).reverse.length = n := by
    rw [List.length_reverse, entriesOf, List.length_mapIdx]
  have hvalid : ctblHashing.Valid (entryOf n r.pair) := rfl
  have hobj : (⟨c.componentId, (some r.name).map cstring, r.version.map cstring⟩ :
      ComponentEntry) = entryOf n r.pair := by
    rw [h.next_eq]
    rfl
  obtain ⟨hfull, -⟩ | ⟨-, ctbl, hinsert, hrep⟩ := h.rep.objtblInsert_spec hvalid
  · omega
  · set fresh : ComponentCtx :=
      { c with
        ctbl := ctbl
        componentId := c.componentId + 1
        services := Function.update c.services c.componentId ⟨[], 0⟩ } with hfresh
    have hempty : HoldsServices (fresh.services (entryOf n r.pair).id) [] := by
      have hid : (entryOf n r.pair).id = c.componentId := h.next_eq.symm
      rw [hfresh, hid]
      dsimp only
      rw [Function.update_self]
      exact HoldsServices.nil
    obtain ⟨services, hregister, hself, hothers⟩ := registerService_spec hempty r.serviceId
    refine ⟨{ fresh with services := services }, ?_, h.unsorted, ?_, ?_, ?_⟩
    · rw [componentRegister, if_neg (by simp [h.unsorted]), ← lookup, h.get_none hnew]
      change (objtblInsert c.ctbl (some _)).bind _ = _
      rw [hobj, hinsert, ← hregister]
      rfl
    · rw [hpairs, List.length_append, List.length_singleton, ← hn]
      exact congrArg Nat.succ h.next_eq
    · have hlive : (entriesOf (pairsOf (calls ++ [r]))).reverse =
          ctblHashing.liveInsert (entryOf n r.pair) (entriesOf (pairsOf calls)).reverse := by
        have hkey : ctblKey (entryOf n r.pair) = some r.pair := by
          apply @ctblKey_entryOf (calls ++ [r])
          rw [hpairs]
          exact List.mem_append_right _ (List.mem_singleton_self _)
        have hremove := Hashing.liveRemove_of_not_mem h.rep.live_valid hvalid
          (keyOf_notMem hnew rfl hkey)
        change _ = entryOf n r.pair :: ctblHashing.liveRemove (entryOf n r.pair) _
        rw [hremove, hpairs, entriesOf, List.mapIdx_concat, List.reverse_append]
        rfl
      rw [hlive]
      exact hrep
    · intro j pair hj
      rw [hpairs] at hj
      by_cases hlast : j = n
      · subst hlast
        rw [hn, List.getElem?_concat_length, Option.some.injEq] at hj
        subst hj
        rw [servicesOf_concat_self, servicesOf_of_unseen hroom hnew]
        exact hself
      · have hlt : j < n := by
          have hle := (List.getElem?_eq_some_iff.mp hj).1
          rw [List.length_append, List.length_singleton] at hle
          omega
        rw [List.getElem?_append_left hlt] at hj
        have hne : r.pair ≠ pair := fun heq => hnew (heq ▸ List.mem_of_getElem? hj)
        have hid : j + 1 ≠ (entryOf n r.pair).id := fun hid => hlast (Nat.succ.inj hid)
        have hid' : j + 1 ≠ c.componentId := by
          rw [h.next_eq]
          exact hid
        dsimp only
        rw [servicesOf_concat_of_ne calls hne, hothers _ hid, hfresh]
        dsimp only
        rw [Function.update_of_ne hid']
        exact h.services j pair hj

theorem register (r : Registration) :
    ∃ reply after, componentRegister c (some r.name) r.version r.serviceId = some (reply, after) ∧
      Registered (calls ++ [r]) after := by
  by_cases hknown : r.pair ∈ pairsOf calls
  · obtain ⟨after, hrun, hafter⟩ := h.register_known hknown
    exact ⟨0, after, hrun, hafter⟩
  · by_cases hroom : (pairsOf calls).length < maxKeys
    · obtain ⟨after, hrun, hafter⟩ := h.register_new hknown hroom
      exact ⟨0, after, hrun, hafter⟩
    · obtain ⟨hrun, hafter⟩ := h.register_full hknown (not_lt.mp hroom)
      exact ⟨-1, c, hrun, hafter⟩

end

end Registered

theorem registered_init : ∃ c, componentInit = some c ∧ Registered [] c := by
  obtain ⟨hbig, -⟩ | ⟨-, ctbl, hinit, hrep⟩ :=
    @objtblInit_spec _ ctblHashing _ initialCtblSize 666
  · exact absurd hbig (by decide)
  · have hopts : ctblHashing.opts 666 = ctblOpts := rfl
    rw [hopts] at hinit
    refine ⟨⟨false, 1, ctbl, fun _ => ⟨[], 0⟩⟩, by rw [componentInit, hinit]; rfl, rfl, rfl, hrep, ?_⟩
    intro i pair hi
    cases hi

/-- A sequence of calls of `component_register`. -/
def registerAll (c : ComponentCtx) : List Registration → Option ComponentCtx
  | [] => some c
  | r :: calls => do
    let (_, c) ← componentRegister c (some r.name) r.version r.serviceId
    registerAll c calls

theorem Registered.registerAll {before : List Registration}
    (h : Registered before c) (calls : List Registration) :
    ∃ after, registerAll c calls = some after ∧ Registered (before ++ calls) after := by
  induction calls generalizing before c with
  | nil => exact ⟨c, rfl, by rwa [List.append_nil]⟩
  | cons r calls ih =>
    obtain ⟨reply, mid, hrun, hmid⟩ := h.register r
    obtain ⟨after, hall, hafter⟩ := ih hmid
    refine ⟨after, by rw [Component.registerAll, hrun]; exact hall, ?_⟩
    rwa [List.append_assoc, List.singleton_append] at hafter

theorem componentIdcmp_nonneg_iff {left right : ComponentEntry} (hleft : left.id < 2 ^ 31)
    (hright : right.id < 2 ^ 31) : 0 ≤ componentIdcmp left right ↔ left.id ≤ right.id := by
  have hdiff : componentIdcmp left right = right.id - left.id := by
    unfold componentIdcmp toInt
    rw [Int.bmod_eq_of_le (by omega) (by omega)]
    omega
  omega

theorem pairwise_entriesOf (pairs : List Pair) :
    (entriesOf pairs).Pairwise fun a b => a.id ≤ b.id := by
  rw [List.pairwise_iff_getElem]
  intro i j hi hj hij
  simp only [entriesOf, List.getElem_mapIdx, entryOf]
  omega

theorem id_lt_of_mem {e : ComponentEntry}
    (h : e ∈ entriesOf (pairsOf calls)) : e.id < 2 ^ 31 := by
  obtain ⟨i, pair, hi, rfl⟩ := mem_entriesOf.mp h
  have hlt := (List.getElem?_eq_some_iff.mp hi).1
  have hle : (pairsOf calls).length ≤ maxKeys := List.length_take_le _ _
  have hmax : maxKeys < 2 ^ 31 := by decide
  change i + 1 < 2 ^ 31
  omega

theorem eq_of_id_eq {pairs : List Pair} {a b : ComponentEntry} (ha : a ∈ entriesOf pairs)
    (hb : b ∈ entriesOf pairs) (hid : a.id = b.id) : a = b := by
  obtain ⟨i, pair, hi, rfl⟩ := mem_entriesOf.mp ha
  obtain ⟨j, pair', hj, rfl⟩ := mem_entriesOf.mp hb
  obtain rfl : i = j := Nat.succ.inj hid
  obtain rfl : pair = pair' := Option.some.inj (hi.symm.trans hj)
  rfl

structure Visitable (calls : List Registration) (c : ComponentCtx) : Prop where
  sorted : c.sorted = true
  length_eq : c.ctbl.entries.length = c.ctbl.header.cap.toNat
  size_eq : c.ctbl.header.size.toNat = (pairsOf calls).length
  objects_eq : storedObjects c.ctbl.entries = entriesOf (pairsOf calls)
  services : ∀ i pair, (pairsOf calls)[i]? = some pair →
    (c.services (i + 1)).services = servicesOf calls pair

theorem Registered.visitable (h : Registered calls c) (qsort : Qsort (ObjtblEntry ComponentEntry)) :
    Visitable calls (sortComponents qsort c) := by
  have hperm : (storedObjects c.ctbl.entries).Perm (entriesOf (pairsOf calls)) := by
    refine List.Perm.trans ?_ (List.reverse_perm _)
    rw [← Multiset.coe_eq_coe, coe_storedObjects, h.rep.items_eq]
  have hmem : ∀ e ∈ storedObjects c.ctbl.entries, e ∈ entriesOf (pairsOf calls) :=
    fun e he => hperm.mem_iff.mp he
  have hlt : ∀ e ∈ storedObjects c.ctbl.entries, e.id < 2 ^ 31 :=
    fun e he => id_lt_of_mem (hmem e he)
  have horders : Orders componentIdcmp (storedObjects c.ctbl.entries) := by
    constructor
    · intro a ha b hb
      rw [componentIdcmp_nonneg_iff (hlt a ha) (hlt b hb),
        componentIdcmp_nonneg_iff (hlt b hb) (hlt a ha)]
      exact Nat.le_total _ _
    · intro a ha b hb e he
      rw [componentIdcmp_nonneg_iff (hlt a ha) (hlt b hb),
        componentIdcmp_nonneg_iff (hlt b hb) (hlt e he),
        componentIdcmp_nonneg_iff (hlt a ha) (hlt e he)]
      exact Nat.le_trans
  set tbl : ObjtblCtx ComponentEntry := { c.ctbl with
    header := { c.ctbl.header with opts := { c.ctbl.header.opts with cmpfunc := componentIdcmp } } }
    with htbl
  obtain ⟨hheader, hlength, hsorted, hpairwise, -⟩ := objtblSort_spec qsort tbl horders
  have hafter : sortComponents qsort c =
      { c with ctbl := objtblSort qsort tbl, sorted := true } := by
    rw [sortComponents, if_neg (by simp [h.unsorted])]
  have hobjects : storedObjects (objtblSort qsort tbl).entries = entriesOf (pairsOf calls) := by
    have hall := hsorted.trans hperm
    refine List.Perm.eq_of_pairwise ?_ ?_ (pairwise_entriesOf _) hall
    · intro a b ha hb hab hba
      exact eq_of_id_eq (hall.mem_iff.mp ha) hb (Nat.le_antisymm hab hba)
    · refine hpairwise.imp_of_mem fun {a b} ha hb hab => ?_
      exact (componentIdcmp_nonneg_iff (id_lt_of_mem (hall.mem_iff.mp ha))
        (id_lt_of_mem (hall.mem_iff.mp hb))).mp hab
  rw [hafter]
  refine ⟨rfl, ?_, ?_, hobjects, fun i pair hi => (h.services i pair hi).services_eq⟩
  · dsimp only
    rw [hheader, hlength]
    exact h.rep.length_eq
  · dsimp only
    rw [hheader]
    rw [h.rep.size_toNat, List.length_reverse, entriesOf, List.length_mapIdx]

theorem Visitable.foreach (h : Visitable calls c)
    (qsort : Qsort (ObjtblEntry ComponentEntry)) {Data : Type}
    (func : Data → ComponentEntry × List ℤ → ℤ × Data) (hfunc : ∀ data e, (func data e).1 = 1)
    (data : Data) : componentForeach qsort c func data =
      ((0, (registryOf calls).foldl (fun data e => (func data e).2) data), c) := by
  have hsame : sortComponents qsort c = c := by rw [sortComponents, if_pos h.sorted]
  have hentries : (entriesOf (pairsOf calls)).map (fun e => (e, (c.services e.id).services)) =
      registryOf calls := by
    apply List.ext_getElem?
    intro i
    rw [entriesOf, registryOf, List.getElem?_map, List.getElem?_mapIdx, List.getElem?_mapIdx]
    cases hi : (pairsOf calls)[i]? with
    | none => rfl
    | some pair =>
      rw [Option.map_some, Option.map_some, Option.map_some, ← h.services i pair hi]
      rfl
  unfold componentForeach objtblForeach
  rw [hsame]
  dsimp only
  rw [← h.length_eq, List.take_length, foreachLoop_spec (fun data e => hfunc data _)]
  · rw [h.objects_eq, ← hentries, List.foldl_map]
  · rw [h.objects_eq, h.size_eq, entriesOf, List.length_mapIdx]
    exact Nat.zero_add _

theorem Registered.foreach (h : Registered calls c)
    (qsort : Qsort (ObjtblEntry ComponentEntry)) {Data : Type}
    (func : Data → ComponentEntry × List ℤ → ℤ × Data) (hfunc : ∀ data e, (func data e).1 = 1)
    (data : Data) : componentForeach qsort c func data =
      ((0, (registryOf calls).foldl (fun data e => (func data e).2) data),
        sortComponents qsort c) := by
  have hvisit := h.visitable qsort
  have hforeach := hvisit.foreach qsort func hfunc data
  have hagain : sortComponents qsort (sortComponents qsort c) = sortComponents qsort c :=
    if_pos hvisit.sorted
  unfold componentForeach at hforeach ⊢
  rwa [hagain] at hforeach

/-- Every sequence of registrations of components with names. The first visit
goes through the pairs in the order of their first registration, with ids from
one on, each with its services in the order of their first registration. From
then on nothing is registered, and every visit is the same. -/
theorem component_registry (qsort : Qsort (ObjtblEntry ComponentEntry))
    (calls : List Registration) :
    ∃ c after sorted, componentInit = some c ∧ registerAll c calls = some after ∧
      (∀ (Data : Type) (func : Data → ComponentEntry × List ℤ → ℤ × Data),
        (∀ data e, (func data e).1 = 1) → ∀ data,
        componentForeach qsort after func data =
          ((0, (registryOf calls).foldl (fun data e => (func data e).2) data), sorted)) ∧
      (∀ name version serviceId,
        componentRegister sorted name version serviceId = some (-1, sorted)) ∧
      ∀ (Data : Type) (func : Data → ComponentEntry × List ℤ → ℤ × Data),
        (∀ data e, (func data e).1 = 1) → ∀ data,
        componentForeach qsort sorted func data =
          ((0, (registryOf calls).foldl (fun data e => (func data e).2) data), sorted) := by
  obtain ⟨c, hinit, hc⟩ := registered_init
  obtain ⟨after, hrun, hafter⟩ := hc.registerAll calls
  have hvisit := hafter.visitable qsort
  refine ⟨c, after, sortComponents qsort after, hinit, hrun, ?_, ?_, ?_⟩
  · intro Data func hfunc data
    exact hafter.foreach qsort func hfunc data
  · intro name version serviceId
    rw [componentRegister, if_pos hvisit.sorted]
  · intro Data func hfunc data
    exact hvisit.foreach qsort func hfunc data

/-- Two components, one with two services and one with a version. -/
theorem component_registry_run :
    ∃ c after, componentInit = some c ∧
      registerAll c [⟨[97], none, 7⟩, ⟨[98], some [49], 7⟩, ⟨[97], none, 5⟩, ⟨[97], none, 7⟩] =
        some after ∧
      (componentForeach (Qsort.mergeSort _) after (fun seen e => (1, seen ++ [e])) []).1 =
        (0, [(⟨1, some [97], none⟩, [7, 5]), (⟨2, some [98], some [49]⟩, [7])]) := by
  obtain ⟨c, after, sorted, hinit, hrun, hvisit, -⟩ := component_registry (Qsort.mergeSort _)
    [⟨[97], none, 7⟩, ⟨[98], some [49], 7⟩, ⟨[97], none, 5⟩, ⟨[97], none, 7⟩]
  refine ⟨c, after, hinit, hrun, ?_⟩
  rw [hvisit _ _ (fun _ _ => rfl)]
  rfl

theorem foldl_concat {α : Type} (elems : List α) : ∀ seen : List α,
    elems.foldl (fun seen e => seen ++ [e]) seen = seen ++ elems := by
  induction elems with
  | nil =>
    intro seen
    exact (List.append_nil seen).symm
  | cons e elems ih =>
    intro seen
    rw [List.foldl_cons, ih, List.append_assoc, List.singleton_append]

/-- One component on more services than the array can hold. -/
theorem services_are_cut_off :
    ∃ calls c after, componentInit = some c ∧ registerAll c calls = some after ∧
      (calls.map Registration.pair).eraseDups.length < 2 ^ 31 ∧
      (componentForeach (Qsort.mergeSort _) after (fun seen e => (1, seen ++ [e])) []).1.2 ≠
        (calls.map Registration.pair).eraseDups.mapIdx fun i pair =>
          (entryOf i pair, ((calls.filter (·.pair = pair)).map Registration.serviceId).eraseDups) := by
  obtain ⟨n, hn⟩ : ∃ n, n = maxServices + 1 := ⟨_, rfl⟩
  obtain ⟨calls, hcalls⟩ : ∃ calls : List Registration,
      calls = (List.range n).map fun k => ⟨[97], none, k⟩ := ⟨_, rfl⟩
  have hpair : ∀ r ∈ calls, r.pair = ([97], none) := by
    intro r hr
    rw [hcalls] at hr
    obtain ⟨k, -, rfl⟩ := List.mem_map.mp hr
    rfl
  have hfilter : calls.filter (·.pair = ([97], none)) = calls :=
    List.filter_eq_self.mpr fun r hr => decide_eq_true (hpair r hr)
  have hservices : (calls.map Registration.serviceId).eraseDups.length = n := by
    have hmap : calls.map Registration.serviceId = (List.range n).map (↑) := by
      rw [hcalls, List.map_map]
      rfl
    have hnodup : (calls.map Registration.serviceId).Nodup := by
      rw [hmap]
      exact List.nodup_range.map Nat.cast_injective
    rw [length_eraseDups, List.toFinset_card_of_nodup hnodup, hmap, List.length_map,
      List.length_range]
  have hone : (calls.map Registration.pair).eraseDups.length ≤ 1 := by
    rw [length_eraseDups, Finset.card_le_one]
    intro a ha b hb
    obtain ⟨r, hr, rfl⟩ := List.mem_map.mp (List.mem_toFinset.mp ha)
    obtain ⟨r', hr', rfl⟩ := List.mem_map.mp (List.mem_toFinset.mp hb)
    rw [hpair r hr, hpair r' hr']
  have hmem : ([97], none) ∈ (calls.map Registration.pair).eraseDups := by
    rw [List.mem_eraseDups, List.mem_map]
    refine ⟨⟨[97], none, 0⟩, ?_, rfl⟩
    rw [hcalls]
    exact List.mem_map.mpr ⟨0, List.mem_range.mpr (by omega), rfl⟩
  obtain ⟨c, hinit, hc⟩ := registered_init
  obtain ⟨after, hrun, hafter⟩ := hc.registerAll calls
  refine ⟨calls, c, after, hinit, hrun, by omega, ?_⟩
  rw [hafter.foreach _ _ (fun _ _ => rfl), foldl_concat]
  intro heq
  obtain ⟨i, hi⟩ := List.mem_iff_getElem?.mp hmem
  have hat := congrArg (fun visits : List (ComponentEntry × List ℤ) => visits[i]?) heq
  rw [List.nil_append, List.nil_append, registryOf, List.getElem?_mapIdx, List.getElem?_mapIdx, hi,
    Option.map_some, hfilter, Option.map_eq_some_iff] at hat
  obtain ⟨pair, -, hvisit⟩ := hat
  have hlength := congrArg (fun visit : ComponentEntry × List ℤ => visit.2.length) hvisit
  have hle : (servicesOf calls pair).length ≤ maxServices := List.length_take_le _ _
  dsimp only at hlength
  omega

end Yans.Match.Component
