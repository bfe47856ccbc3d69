import Yans.Apps.Collate
import Yans.Match.Component
import Yans.Vulnspec.Strtab

/-! The tables of objects that the programs keep, and for which objects their
hashes agree with their comparisons. The comparison of addresses leaves out
bytes that the hash reads, that of components stops at two missing names, and
that of strings in the vulnspec parser stops at the shorter one, which a zero
byte inside of a string makes too short. -/
namespace Yans.Apps.TableConsistency

open Library.Memory Library.Strings Util.Objtbl Collate Match.Component Vulnspec

inductive Table where
  | addr
  | svc
  | chain
  | svclut
  | component
  | strtab
deriving DecidableEq

namespace Table

def Obj : Table → Type
  | addr => Bytes
  | svc => CollateService
  | chain => CollateCertchain
  | svclut => SvclutEntry
  | component => ComponentEntry
  | strtab => StrtabEntry

def hashfunc : (t : Table) → t.Obj → UInt32 → UInt32
  | addr => fun obj => addrhash (some obj)
  | svc => svchash
  | chain => chainhash
  | svclut => svcluthash
  | component => ctblhash
  | strtab => strtabHash

def cmpfunc : (t : Table) → t.Obj → t.Obj → ℤ
  | addr => fun a b => addrcmp (some a) (some b)
  | svc => svccmp
  | chain => chaincmp
  | svclut => svclutcmp
  | component => ctblcmp
  | strtab => strtabCmp

/-- The objects that are inserted or looked up. A string is looked up as the
reader gives it, and inserted as a copy. -/
def Accepts : (t : Table) → t.Obj → Prop
  | addr => AddrAccepted
  | svc => SvcAccepted
  | chain => fun _ => True
  | svclut => fun _ => True
  | component => fun _ => True
  | strtab => fun e => ∃ (s : Bytes) (val : ℕ),
      e = ⟨s ++ [0], s.length + 1, val⟩ ∨ e = strtabNew (s ++ [0]) (s.length + 1) val

/-- A class of objects on which a comparison does not overlook anything that
the hash reads: addresses with the same family, address and port are the same
altogether, for services if these have the same name too, components without a name have the same version, and strings have
no zero bytes. -/
def Separates : (t : Table) → (t.Obj → Prop) → Prop
  | addr, S => ∀ a b, S a → S b → addrKey a = addrKey b → a = b
  | svc, S => ∀ a b : CollateService, S a → S b → svcKey a = svcKey b → a.addr = b.addr
  | chain, _ => True
  | svclut, _ => True
  | component, S => ∀ a b : ComponentEntry, S a → S b → a.name = none → b.name = none →
      a.version.map cstring = b.version.map cstring
  | strtab, S => ∀ e : StrtabEntry, S e → (cstring e.str).length + 1 = e.len

/-- Comparing equal is an equivalence on a class of objects, and equal objects
hash alike under every seed. -/
def ConsistentOn (t : Table) (S : t.Obj → Prop) : Prop := Consistent t.hashfunc t.cmpfunc S

end Table

open Table

theorem consistent_addr {S : Bytes → Prop} (haccepts : ∀ a, S a → AddrAccepted a)
    (hseparates : Separates .addr S) : ConsistentOn .addr S := by
  apply Consistent.of_key addrKey
    fun a b ha hb => addrcmp_eq_zero_iff (haccepts a ha) (haccepts b hb)
  intro a b ha hb h seed
  rw [hseparates a b ha hb h]

theorem consistent_svc {S : CollateService → Prop} (haccepts : ∀ a, S a → SvcAccepted a)
    (hseparates : Separates .svc S) : ConsistentOn .svc S := by
  apply Consistent.of_key svcKey
    fun a b ha hb => svccmp_eq_zero_iff (haccepts a ha) (haccepts b hb)
  intro a b ha hb h seed
  have haddr := hseparates a b ha hb h
  rw [svcKey, svcKey, Prod.mk.injEq] at h
  change svchash a seed = svchash b seed
  rw [svchash, svchash, objtblStrhash_congr h.1, haddr]

theorem consistent_chain : ConsistentOn .chain fun _ => True := by
  apply Consistent.of_key CollateCertchain.sha1hash fun _ _ _ _ => chaincmp_eq_zero_iff
  intro a b _ _ h seed
  change chainhash a seed = chainhash b seed
  rw [chainhash, chainhash, h]

theorem consistent_svclut : ConsistentOn .svclut fun _ => True :=
  Consistent.of_key svclutKey (fun _ _ _ _ => svclutcmp_eq_zero_iff)
    fun _ _ _ _ h => svcluthash_congr h

theorem consistent_component {S : ComponentEntry → Prop} (hseparates : Separates .component S) :
    ConsistentOn .component S := by
  apply Consistent.of_key ctblKey fun _ _ _ _ => ctblcmp_eq_zero_iff
  intro a b ha hb h seed
  change ctblhash a seed = ctblhash b seed
  by_cases hname : a.name = none
  · have hname' : b.name = none := by
      rw [ctblKey, ctblKey, hname, Option.map_none] at h
      exact Option.map_eq_none_iff.mp h.symm
    rw [ctblhash, ctblhash, hname, hname', objtblStrhash_congr (hseparates a b ha hb hname hname')]
  · have hkey : (ctblKey a).isSome := by
      rw [ctblKey, Option.isSome_map]
      exact Option.isSome_iff_ne_none.mpr hname
    have hsome : ∀ e : ComponentEntry, (ctblKey e).isSome → e.name.isSome := fun e he => by
      rwa [ctblKey, Option.isSome_map] at he
    exact consistent_of_name.hash_eq a b (hsome a hkey) (hsome b (h ▸ hkey))
      (ctblcmp_eq_zero_iff.mpr h) seed

theorem entryOf_of_separates {e : StrtabEntry} (haccepts : Accepts .strtab e)
    (hlength : (cstring e.str).length + 1 = e.len) : ∃ text val, e = Vulnspec.entryOf text val := by
  obtain ⟨s, val, rfl | rfl⟩ := haccepts
  · dsimp only at hlength
    rw [cstring_append_zero] at hlength
    have hs := cstring_eq_of_length (Nat.succ.inj hlength)
    exact ⟨⟨s, fun byte hbyte => ne_zero_of_mem_cstring (hs.symm ▸ hbyte)⟩, val, rfl⟩
  · have hcopy : strtabNew (s ++ [0]) (s.length + 1) val = ⟨cstring s ++ [0], s.length + 1, val⟩ := by
      rw [strtabNew, ← cstring, cstring_append_zero]
    rw [hcopy] at hlength ⊢
    dsimp only at hlength
    rw [cstring_append_zero, cstring_cstring] at hlength
    have hs := cstring_eq_of_length (Nat.succ.inj hlength)
    rw [hs]
    exact ⟨⟨s, fun byte hbyte => ne_zero_of_mem_cstring (hs.symm ▸ hbyte)⟩, val, rfl⟩

theorem consistent_strtab {S : StrtabEntry → Prop} (haccepts : ∀ e, S e → Accepts .strtab e)
    (hseparates : Separates .strtab S) : ConsistentOn .strtab S := by
  have hvalid : ∀ e, S e → strtabHashing.Valid e :=
    fun e he => entryOf_of_separates (haccepts e he) (hseparates e he)
  exact
    { refl := fun a ha => strtabHashing.refl a (hvalid a ha)
      symm := fun a b ha hb => strtabHashing.symm a b (hvalid a ha) (hvalid b hb)
      trans := fun a b c ha hb hc => strtabHashing.trans a b c (hvalid a ha) (hvalid b hb) (hvalid c hc)
      hash_eq := fun a b ha hb => strtabHashing.hash_eq a b (hvalid a ha) (hvalid b hb) }

/-- An `AF_INET` address with a last byte of padding. -/
def paddedAddr (pad : UInt8) : Bytes := [16, 2, 0, 80, 127, 0, 0, 1, 0, 0, 0, 0, 0, 0, 0, pad]

theorem not_consistent_addr : ¬ ConsistentOn .addr AddrAccepted := by
  intro h
  have heq := h.hash_eq (paddedAddr 0) (paddedAddr 1) (by decide) (by decide) (by decide) 0
  exact absurd heq (by decide)

theorem not_consistent_svc : ¬ ConsistentOn .svc SvcAccepted := by
  intro h
  have haccepts : ∀ pad, SvcAccepted ⟨some (paddedAddr pad), none, 0⟩ :=
    fun pad => ⟨paddedAddr pad, rfl, Or.inl ⟨rfl, rfl⟩⟩
  have heq := h.hash_eq ⟨some (paddedAddr 0), none, 0⟩ ⟨some (paddedAddr 1), none, 0⟩
    (haccepts 0) (haccepts 1) (by decide) 0
  exact absurd heq (by decide)

theorem not_consistent_component : ¬ ConsistentOn .component fun _ => True := by
  intro h
  have heq := h.hash_eq ⟨0, none, none⟩ ⟨0, none, some [49]⟩ trivial trivial (by decide) 0
  exact absurd heq (by decide)

theorem not_consistent_strtab : ¬ ConsistentOn .strtab (Accepts .strtab) := by
  intro h
  have haccepts : ∀ s, Accepts .strtab ⟨s ++ [0], s.length + 1, 0⟩ := fun s => ⟨s, 0, Or.inl rfl⟩
  have heq := h.trans ⟨[97, 0, 98, 0], 4, 0⟩ ⟨[97, 0], 2, 0⟩ ⟨[97, 0, 99, 0], 4, 0⟩
    (haccepts [97, 0, 98]) (haccepts [97]) (haccepts [97, 0, 99]) (by decide) (by decide)
  exact absurd heq (by decide)

/-- The hash and the comparison of a table agree on everything that is inserted
or looked up for the certificate chains and the service lookup, and for no other
table; on classes of objects that leave nothing for the comparison to overlook
they agree in all of them. -/
theorem tables_consistent (t : Table) :
    (t.ConsistentOn t.Accepts ↔ t = .chain ∨ t = .svclut) ∧
    ∀ S : t.Obj → Prop, (∀ a, S a → t.Accepts a) → t.Separates S → t.ConsistentOn S := by
  cases t with
  | addr => exact ⟨iff_of_false not_consistent_addr (by decide), fun S => consistent_addr⟩
  | svc => exact ⟨iff_of_false not_consistent_svc (by decide), fun S => consistent_svc⟩
  | chain =>
    exact ⟨iff_of_true consistent_chain (by decide),
      fun S _ _ => consistent_chain.mono fun _ _ => trivial⟩
  | svclut =>
    exact ⟨iff_of_true consistent_svclut (by decide),
      fun S _ _ => consistent_svclut.mono fun _ _ => trivial⟩
  | component =>
    exact ⟨iff_of_false not_consistent_component (by decide), fun S _ => consistent_component⟩
  | strtab => exact ⟨iff_of_false not_consistent_strtab (by decide), fun S => consistent_strtab⟩

/-- Two addresses with different padding, which are different also without it. -/
theorem tables_consistent_sample : ConsistentOn .addr fun a =>
    a = paddedAddr 0 ∨ a = [16, 2, 0, 81, 127, 0, 0, 1, 0, 0, 0, 0, 0, 0, 0, 1] := by
  refine (tables_consistent .addr).2 _ ?_ ?_
  · rintro a (rfl | rfl) <;> exact Or.inl ⟨rfl, rfl⟩
  · rintro a b (rfl | rfl) (rfl | rfl) hkey
    · rfl
    · exact absurd hkey (by decide)
    · exact absurd hkey (by decide)
    · rfl

/-- Two bytes of padding, two versions of a component without a name, and two
strings that continue after a zero. -/
theorem overlooked_differences :
    (AddrAccepted (paddedAddr 0) ∧ AddrAccepted (paddedAddr 1) ∧
      addrcmp (some (paddedAddr 0)) (some (paddedAddr 1)) = 0 ∧
      addrhash (some (paddedAddr 0)) 0 ≠ addrhash (some (paddedAddr 1)) 0) ∧
    (ctblcmp ⟨0, none, none⟩ ⟨0, none, some [49]⟩ = 0 ∧
      ctblhash ⟨0, none, none⟩ 0 ≠ ctblhash ⟨0, none, some [49]⟩ 0) ∧
    (strtabCmp ⟨[97, 0, 98, 0], 4, 0⟩ ⟨[97, 0], 2, 0⟩ = 0 ∧
      strtabCmp ⟨[97, 0], 2, 0⟩ ⟨[97, 0, 99, 0], 4, 0⟩ = 0 ∧
      strtabCmp ⟨[97, 0, 98, 0], 4, 0⟩ ⟨[97, 0, 99, 0], 4, 0⟩ ≠ 0) := by
  decide

end Yans.Apps.TableConsistency
