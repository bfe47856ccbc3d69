import Yans.Net.Ip

/-! Addresses as numbers: comparison, addition and the ends of a prefix. The
families are kept apart, IPv4 below and IPv6 far above it, so that addresses of
different families are never neighbours. -/
namespace Yans.Net.Ip

open Library Library.Memory Util

def Ip6.toNat (a : Ip6) : ℕ :=
  a.w0.toNat * 2 ^ 96 + a.w1.toNat * 2 ^ 64 + a.w2.toNat * 2 ^ 32 + a.w3.toNat

def ord : IpAddr → ℕ
  | .v4 a => a.toNat
  | .v6 a _ => 2 ^ 33 + a.toNat

def realm : IpAddr → Option UInt32
  | .v4 _ => none
  | .v6 _ scope => some scope

def bottom : Option UInt32 → ℕ
  | none => 0
  | some _ => 2 ^ 33

def top : Option UInt32 → ℕ
  | none => 2 ^ 32 - 1
  | some _ => 2 ^ 33 + 2 ^ 128 - 1

theorem Ip6.toNat_lt (a : Ip6) : a.toNat < 2 ^ 128 := by
  have h0 := a.w0.toNat_lt
  have h1 := a.w1.toNat_lt
  have h2 := a.w2.toNat_lt
  have h3 := a.w3.toNat_lt
  unfold Ip6.toNat
  omega

theorem Ip6.toNat_inj {a b : Ip6} : a.toNat = b.toNat ↔ a = b := by
  constructor
  · intro h
    have ha0 := a.w0.toNat_lt
    have ha1 := a.w1.toNat_lt
    have ha2 := a.w2.toNat_lt
    have ha3 := a.w3.toNat_lt
    have hb0 := b.w0.toNat_lt
    have hb1 := b.w1.toNat_lt
    have hb2 := b.w2.toNat_lt
    have hb3 := b.w3.toNat_lt
    unfold Ip6.toNat at h
    obtain ⟨a0, a1, a2, a3⟩ := a
    obtain ⟨b0, b1, b2, b3⟩ := b
    dsimp only at *
    simp only [Ip6.mk.injEq, ← UInt32.toNat_inj]
    omega
  · exact fun h => congrArg Ip6.toNat h

theorem bottom_le_ord (a : IpAddr) : bottom (realm a) ≤ ord a := by
  cases a with
  | v4 a => exact Nat.zero_le _
  | v6 a scope => exact Nat.le_add_right _ _

theorem ord_le_top (a : IpAddr) : ord a ≤ top (realm a) := by
  cases a with
  | v4 a =>
    have h := a.toNat_lt
    simp only [ord, realm, top]
    omega
  | v6 a scope =>
    have h := a.toNat_lt
    simp only [ord, realm, top]
    omega

theorem wordcmp_spec (a b : UInt32) :
    (wordcmp a b < 0 ↔ a.toNat < b.toNat) ∧ (wordcmp a b = 0 ↔ a.toNat = b.toNat) := by
  unfold wordcmp
  by_cases hlt : a < b
  · rw [if_pos hlt]
    rw [UInt32.lt_iff_toNat_lt] at hlt
    omega
  rw [if_neg hlt]
  by_cases hgt : b < a
  · rw [if_pos hgt]
    rw [UInt32.lt_iff_toNat_lt] at hgt
    omega
  · rw [if_neg hgt]
    rw [UInt32.lt_iff_toNat_lt] at hlt hgt
    omega

theorem ip6cmp_spec (a b : Ip6) :
    (ip6cmp a b < 0 ↔ a.toNat < b.toNat) ∧ (ip6cmp a b = 0 ↔ a.toNat = b.toNat) := by
  have ha1 := a.w1.toNat_lt
  have ha2 := a.w2.toNat_lt
  have ha3 := a.w3.toNat_lt
  have hb0 := b.w0.toNat_lt
  have hb1 := b.w1.toNat_lt
  have hb2 := b.w2.toNat_lt
  have hb3 := b.w3.toNat_lt
  unfold ip6cmp Ip6.toNat
  simp only [ne_eq, ← UInt32.toNat_inj]
  split
  · rw [(wordcmp_spec _ _).1, (wordcmp_spec _ _).2]
    omega
  split
  · rw [(wordcmp_spec _ _).1, (wordcmp_spec _ _).2]
    omega
  split
  · rw [(wordcmp_spec _ _).1, (wordcmp_spec _ _).2]
    omega
  · rw [(wordcmp_spec _ _).1, (wordcmp_spec _ _).2]
    omega

theorem ipAddrCmp_spec (a b : IpAddr) :
    (ipAddrCmp a b < 0 ↔ ord a < ord b) ∧ (ipAddrCmp a b = 0 ↔ ord a = ord b) := by
  cases a with
  | v4 a =>
    have ha := a.toNat_lt
    cases b with
    | v4 b => exact wordcmp_spec a b
    | v6 b scope =>
      simp only [ipAddrCmp, ord]
      omega
  | v6 a scope =>
    cases b with
    | v4 b =>
      have hb := b.toNat_lt
      simp only [ipAddrCmp, ord]
      omega
    | v6 b scope' =>
      simp only [ipAddrCmp, ord, (ip6cmp_spec a b).1, (ip6cmp_spec a b).2]
      omega

variable {a b : IpAddr}

theorem ipAddrCmp_neg : ipAddrCmp a b < 0 ↔ ord a < ord b := (ipAddrCmp_spec a b).1

theorem ipAddrCmp_zero : ipAddrCmp a b = 0 ↔ ord a = ord b := (ipAddrCmp_spec a b).2

theorem ipAddrCmp_pos : 0 < ipAddrCmp a b ↔ ord b < ord a := by
  have hneg := @ipAddrCmp_neg a b
  have hzero := @ipAddrCmp_zero a b
  omega

theorem ipAddrCmp_nonneg : 0 ≤ ipAddrCmp a b ↔ ord b ≤ ord a := by
  have hneg := @ipAddrCmp_neg a b
  omega

theorem ipAddrAddIpv6_one (a : Ip6) : (ipAddrAddIpv6 a 1).toNat = (a.toNat + 1) % 2 ^ 128 := by
  have hext : (Int32.toUInt32 1).toNat = 1 := rfl
  have hhigh : ((if (1 : Int32) < 0 then 0xffffffff else 0 : UInt32)).toNat = 0 := rfl
  simp only [ipAddrAddIpv6, addWord, Ip6.toNat, UInt32.toNat_ofNat', hext, hhigh]
  omega

theorem ord_ipAddrAdd_one (h : ord a ≠ top (realm a)) : ord (ipAddrAdd a 1) = ord a + 1 := by
  have hle := ord_le_top a
  cases a with
  | v4 a =>
    have hone : (Int32.toUInt32 1).toNat = 1 := rfl
    simp only [ipAddrAdd, ord, realm, top, UInt32.toNat_add, hone] at h hle ⊢
    omega
  | v6 a scope =>
    simp only [ipAddrAdd, ord, realm, top, ipAddrAddIpv6_one] at h hle ⊢
    omega

theorem ord_ipAddrAdd_top (h : ord a = top (realm a)) :
    ord (ipAddrAdd a 1) = bottom (realm a) := by
  cases a with
  | v4 a =>
    have hone : (Int32.toUInt32 1).toNat = 1 := rfl
    simp only [ipAddrAdd, ord, realm, top, bottom, UInt32.toNat_add, hone] at h ⊢
    omega
  | v6 a scope =>
    simp only [ipAddrAdd, ord, realm, top, bottom, ipAddrAddIpv6_one] at h ⊢
    omega

theorem realm_ipAddrAdd (a : IpAddr) (n : Int32) : realm (ipAddrAdd a n) = realm a := by
  cases a <;> rfl

theorem eq_of_realm_ord (hrealm : realm a = realm b) (hord : ord a = ord b) :
    a = b := by
  cases a with
  | v4 a =>
    cases b with
    | v4 b => rw [UInt32.toNat_inj.mp hord]
    | v6 b scope => exact absurd hrealm (by simp [realm])
  | v6 a scope =>
    cases b with
    | v4 b => exact absurd hrealm (by simp [realm])
    | v6 b scope' =>
      rw [realm, realm, Option.some.injEq] at hrealm
      rw [hrealm, Ip6.toNat_inj.mp (Nat.add_left_cancel hord)]

def Ip6.ofNat (n : ℕ) : Ip6 :=
  ⟨UInt32.ofNat (n / 2 ^ 96), UInt32.ofNat (n / 2 ^ 64), UInt32.ofNat (n / 2 ^ 32), UInt32.ofNat n⟩

theorem Ip6.toNat_ofNat {n : ℕ} (hn : n < 2 ^ 128) : (Ip6.ofNat n).toNat = n := by
  simp only [Ip6.ofNat, Ip6.toNat, UInt32.toNat_ofNat']
  omega

def addrOf : Option UInt32 → ℕ → IpAddr
  | none, n => .v4 (UInt32.ofNat n)
  | some scope, n => .v6 (Ip6.ofNat (n - 2 ^ 33)) scope

@[simp] theorem realm_addrOf (z : Option UInt32) (n : ℕ) : realm (addrOf z n) = z := by
  cases z <;> rfl

theorem ord_addrOf {z : Option UInt32} {n : ℕ} (hlo : bottom z ≤ n) (hhi : n ≤ top z) :
    ord (addrOf z n) = n := by
  cases z with
  | none =>
    simp only [top] at hhi
    simp only [addrOf, ord, UInt32.toNat_ofNat']
    omega
  | some scope =>
    simp only [top] at hhi
    simp only [bottom] at hlo
    simp only [addrOf, ord]
    rw [Ip6.toNat_ofNat (by omega)]
    omega

theorem addrOf_ord (a : IpAddr) : addrOf (realm a) (ord a) = a :=
  eq_of_realm_ord (realm_addrOf _ _) (ord_addrOf (bottom_le_ord a) (ord_le_top a))

end Yans.Net.Ip
