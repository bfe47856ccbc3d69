import Yans.Util.ObjtblRefinement

/-! `apps/scan/collate.c`: the tables that banners are collated in, and the one
that services are looked up in by a later stage. Pointers are the memory they
lead to. The layout of socket addresses is that of FreeBSD, the one platform
that `objtbl_sort` is written for. -/
namespace Yans.Apps.Collate

open Library.Memory Library.Strings Util.Objtbl

def afInet : UInt8 := 2

def afInet6 : UInt8 := 28

/-- `sa_family`; the byte before it is `sa_len`. -/
def saFamily (addr : Bytes) : UInt8 := byteAt addr 1

/-- `sizeof(struct sockaddr_in)` -/
def sinSize : ℕ := 16

/-- `sizeof(struct sockaddr_in6)` -/
def sin6Size : ℕ := 28

def saddrLen (addr : Bytes) : ℕ := if saFamily addr = afInet6 then sin6Size else sinSize

/-- The bytes of the seed, lowest first, and then the data. -/
def fnv1a (seed : UInt32) (data : List UInt32) : UInt32 :=
  let hash := fnv1aStep 0x811c9dc5 (seed &&& 0xff)
  let hash := fnv1aStep hash ((seed >>> 8) &&& 0xff)
  let hash := fnv1aStep hash ((seed >>> 16) &&& 0xff)
  let hash := fnv1aStep hash ((seed >>> 24) &&& 0xff)
  data.foldl fnv1aStep hash

def addrhash (obj : Option Bytes) (seed : UInt32) : UInt32 :=
  match obj with
  | none => 0x811c9dc5
  | some addr => fnv1a seed ((addr.take (saddrLen addr)).map UInt8.toUInt32)

/-- The address and then the port; the port is at the same place in both. -/
def addrMemcmp (off len : ℕ) (left right : Bytes) : ℤ :=
  let ret := memcmp len (left.drop off) (right.drop off)
  if ret = 0 then memcmp 2 (left.drop 2) (right.drop 2) else ret

def addrcmp (a b : Option Bytes) : ℤ :=
  nullcmp (fun left right =>
    if saFamily left = afInet ∧ saFamily right = afInet6 then -1
    else if saFamily left = afInet6 ∧ saFamily right = afInet then 1
    else if saFamily left = saFamily right then
      if saFamily left = afInet6 then -addrMemcmp 8 16 left right
      else -addrMemcmp 4 4 left right
    else 0) a b

/-- What the table reads of a `struct collate_service`. The rest of it changes
while it is in the table and is kept under `index`. -/
structure CollateService where
  addr : Option Bytes
  name : Option Bytes
  index : ℕ
deriving DecidableEq, Inhabited

def svchash (svc : CollateService) (seed : UInt32) : UInt32 :=
  addrhash svc.addr seed ^^^ objtblStrhash svc.name seed

def svccmp (left right : CollateService) : ℤ :=
  let res := objtblStrcmp left.name right.name
  if res = 0 then addrcmp left.addr right.addr else res

/-- The certificates themselves are not read by the table. -/
structure CollateCertchain where
  sha1hash : Vector UInt8 20
  id : ℕ
deriving DecidableEq, Inhabited

/-- The conversion of a `char`, which is signed. -/
def charToUInt32 (ch : UInt8) : UInt32 := ch.toInt8.toInt32.toUInt32

def chainhash (chain : CollateCertchain) (seed : UInt32) : UInt32 :=
  fnv1a seed (chain.sha1hash.toList.map charToUInt32)

def chaincmp (left right : CollateCertchain) : ℤ :=
  memcmp 20 left.sha1hash.toList right.sha1hash.toList

structure SvclutEntry where
  serviceId : Option Bytes
  hostname : Option Bytes
  addr : Option Bytes
  transport : Option Bytes
  port : Option Bytes
  service : Option Bytes
deriving DecidableEq, Inhabited

def svcluthash (e : SvclutEntry) (seed : UInt32) : UInt32 :=
  let hash := objtblStrhash e.hostname seed
  let hash := objtblStrhash e.addr hash
  let hash := objtblStrhash e.transport hash
  let hash := objtblStrhash e.port hash
  objtblStrhash e.service hash

def svclutcmp (left right : SvclutEntry) : ℤ :=
  let ret := objtblStrcmp left.hostname right.hostname
  if ret ≠ 0 then ret
  else
    let ret := objtblStrcmp left.addr right.addr
    if ret ≠ 0 then ret
    else
      let ret := objtblStrcmp left.transport right.transport
      if ret ≠ 0 then ret
      else
        let ret := objtblStrcmp left.port right.port
        if ret ≠ 0 then ret else objtblStrcmp left.service right.service

/-- The addresses that `upsert_addr` accepts. -/
def AddrAccepted (addr : Bytes) : Prop :=
  saFamily addr = afInet ∧ addr.length = sinSize ∨
    saFamily addr = afInet6 ∧ addr.length = sin6Size

instance (addr : Bytes) : Decidable (AddrAccepted addr) := inferInstanceAs (Decidable (_ ∨ _))

/-! What the comparisons find out -/

def addrKey (addr : Bytes) : UInt8 × Bytes × Bytes :=
  (saFamily addr,
    if saFamily addr = afInet6 then slice addr 8 16 else slice addr 4 4,
    slice addr 2 2)

theorem addrMemcmp_eq_zero_iff {off len : ℕ} {left right : Bytes} (hleft : off + len ≤ left.length)
    (hright : off + len ≤ right.length) (hport : 4 ≤ left.length) (hport' : 4 ≤ right.length) :
    addrMemcmp off len left right = 0 ↔
      slice left off len = slice right off len ∧ slice left 2 2 = slice right 2 2 := by
  have haddr := @memcmp_eq_zero_iff len (left.drop off) (right.drop off)
    (by rw [List.length_drop]; omega) (by rw [List.length_drop]; omega)
  have hports := @memcmp_eq_zero_iff 2 (left.drop 2) (right.drop 2)
    (by rw [List.length_drop]; omega) (by rw [List.length_drop]; omega)
  unfold addrMemcmp
  dsimp only
  split
  · rename_i hzero
    rw [hports]
    exact (and_iff_right (haddr.mp hzero)).symm
  · rename_i hne
    exact iff_of_false hne fun h => hne (haddr.mpr h.1)

theorem addrcmp_eq_zero_iff {left right : Bytes} (hleft : AddrAccepted left)
    (hright : AddrAccepted right) :
    addrcmp (some left) (some right) = 0 ↔ addrKey left = addrKey right := by
  have hne : afInet ≠ afInet6 := by decide
  unfold addrcmp addrKey
  rw [nullcmp, Prod.mk.injEq, Prod.mk.injEq]
  obtain ⟨hfamily, hlength⟩ | ⟨hfamily, hlength⟩ := hleft <;>
    obtain ⟨hfamily', hlength'⟩ | ⟨hfamily', hlength'⟩ := hright
  · have hparts := @addrMemcmp_eq_zero_iff 4 4 left right (by rw [hlength]; decide)
      (by rw [hlength']; decide) (by rw [hlength]; decide) (by rw [hlength']; decide)
    simp [hfamily, hfamily', hne, hparts]
  · simp [hfamily, hfamily', hne]
  · simp [hfamily, hfamily', hne, hne.symm]
  · have hparts := @addrMemcmp_eq_zero_iff 8 16 left right (by rw [hlength]; decide)
      (by rw [hlength']; decide) (by rw [hlength]; decide) (by rw [hlength']; decide)
    simp [hfamily, hfamily', hne.symm, hparts]

def SvcAccepted (svc : CollateService) : Prop := ∃ addr, svc.addr = some addr ∧ AddrAccepted addr

def svcKey (svc : CollateService) : Option Bytes × Option (UInt8 × Bytes × Bytes) :=
  (svc.name.map cstring, svc.addr.map addrKey)

theorem svccmp_eq_zero_iff {left right : CollateService} (hleft : SvcAccepted left)
    (hright : SvcAccepted right) : svccmp left right = 0 ↔ svcKey left = svcKey right := by
  obtain ⟨addr, haddr, haccepted⟩ := hleft
  obtain ⟨addr', haddr', haccepted'⟩ := hright
  unfold svccmp svcKey
  rw [haddr, haddr', Prod.mk.injEq, ← objtblStrcmp_eq_zero_iff, Option.map_some, Option.map_some,
    Option.some.injEq, ← addrcmp_eq_zero_iff haccepted haccepted']
  dsimp only
  split
  · rename_i hzero
    exact (and_iff_right hzero).symm
  · rename_i hne
    exact iff_of_false hne fun h => hne h.1

theorem chaincmp_eq_zero_iff {left right : CollateCertchain} :
    chaincmp left right = 0 ↔ left.sha1hash = right.sha1hash := by
  have hlength : ∀ digest : Vector UInt8 20, digest.toList.length = 20 := fun digest =>
    Vector.length_toList
  have htake : ∀ digest : Vector UInt8 20, digest.toList.take 20 = digest.toList := fun digest =>
    List.take_of_length_le (hlength digest).le
  rw [chaincmp, memcmp_eq_zero_iff (hlength _).ge (hlength _).ge, htake, htake, Vector.toList_inj]

def svclutKey (e : SvclutEntry) : List (Option Bytes) :=
  [e.hostname, e.addr, e.transport, e.port, e.service].map (·.map cstring)

theorem svclutcmp_eq_zero_iff {left right : SvclutEntry} :
    svclutcmp left right = 0 ↔ svclutKey left = svclutKey right := by
  simp only [svclutcmp, svclutKey, List.map_cons, List.map_nil, List.cons.injEq, and_true,
    ← objtblStrcmp_eq_zero_iff]
  split_ifs <;> simp_all

theorem svcluthash_congr {left right : SvclutEntry} (h : svclutKey left = svclutKey right)
    (seed : UInt32) : svcluthash left seed = svcluthash right seed := by
  simp only [svclutKey, List.map_cons, List.map_nil, List.cons.injEq, and_true] at h
  obtain ⟨hhost, haddr, htransport, hport, hservice⟩ := h
  simp only [svcluthash]
  rw [objtblStrhash_congr hhost, objtblStrhash_congr haddr, objtblStrhash_congr htransport,
    objtblStrhash_congr hport, objtblStrhash_congr hservice]

end Yans.Apps.Collate
