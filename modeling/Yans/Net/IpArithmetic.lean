import Yans.Net.IpNetmask

/-! The sum of an address and a signed number, word by word with a carry, and the
difference, which is the sum with the number negated. -/
namespace Yans.Net.Ip

open Library Library.Memory Util

/-- `ip_addr_sub`; the negation wraps. -/
def ipAddrSub (addr : IpAddr) (n : Int32) : IpAddr := ipAddrAdd addr (-n)

theorem number_v4 (a : UInt32) : number (.v4 a) = a.toNat := rfl

theorem number_v6 (a : Ip6) (scope : UInt32) : number (.v6 a scope) = a.toNat :=
  Nat.add_sub_cancel_left ..

def space (a : IpAddr) : ℕ := 2 ^ width (realm a)

theorem eq_of_realm_number {a b : IpAddr} (hrealm : realm a = realm b)
    (hnumber : number a = number b) : a = b := by
  apply eq_of_realm_ord hrealm
  rw [ord_eq_number, ord_eq_number, hrealm, hnumber]

theorem addWord_spec (word ext : UInt32) (acc : ℕ) :
    (addWord word ext acc).1.toNat + 2 ^ 32 * (addWord word ext acc).2 =
      word.toNat + ext.toNat + acc := by
  unfold addWord
  rw [UInt32.toNat_ofNat']
  exact Nat.mod_add_div _ _

theorem toNat_ipAddrAddIpv6 (a : Ip6) (n : Int32) {high : UInt32}
    (hhigh : (if n < 0 then 0xffffffff else 0) = high) :
    (ipAddrAddIpv6 a n).toNat =
      (a.toNat + (n.toUInt32.toNat + high.toNat * (2 ^ 32 + 2 ^ 64 + 2 ^ 96))) % 2 ^ 128 := by
  unfold ipAddrAddIpv6
  rw [hhigh]
  dsimp only
  have h3 := addWord_spec a.w3 n.toUInt32 0
  generalize addWord a.w3 n.toUInt32 0 = sum3 at h3 ⊢
  have h2 := addWord_spec a.w2 high sum3.2
  generalize addWord a.w2 high sum3.2 = sum2 at h2 ⊢
  have h1 := addWord_spec a.w1 high sum2.2
  generalize addWord a.w1 high sum2.2 = sum1 at h1 ⊢
  have h0 := addWord_spec a.w0 high sum1.2
  generalize addWord a.w0 high sum1.2 = sum0 at h0 ⊢
  have hlt := Ip6.toNat_lt ⟨sum0.1, sum1.1, sum2.1, sum3.1⟩
  unfold Ip6.toNat at hlt ⊢
  dsimp only at hlt ⊢
  omega

theorem toNat_toUInt32 (n : Int32) :
    (n.toUInt32.toNat : ℤ) = if n.toInt < 0 then n.toInt + 4294967296 else n.toInt := by
  have hlo := n.le_toInt
  have hhi := n.toInt_lt
  have hword : n.toInt = (n.toBitVec.toNat : ℤ).bmod 4294967296 := BitVec.toInt_eq_toNat_bmod _
  have hlt := n.toUInt32.toNat_lt
  rw [Int32.toNat_toBitVec] at hword
  rw [hword] at hlo hhi ⊢
  unfold Int.bmod at hlo hhi ⊢
  dsimp only at hlo hhi ⊢
  split <;> omega

theorem number_ipAddrAdd (a : IpAddr) (n : Int32) :
    (number (ipAddrAdd a n) : ℤ) = (number a + n.toInt) % space a := by
  have hword := toNat_toUInt32 n
  have hsign : n < 0 ↔ n.toInt < 0 := Int32.lt_iff_toInt_lt
  cases a with
  | v4 a =>
    have hsum : number (ipAddrAdd (.v4 a) n) = (a.toNat + n.toUInt32.toNat) % 2 ^ 32 :=
      (number_v4 _).trans (UInt32.toNat_add a n.toUInt32)
    rw [hsum, number_v4]
    simp only [space, realm, width]
    split at hword <;> omega
  | v6 a scope =>
    simp only [ipAddrAdd, number_v6, space, realm, width]
    by_cases hneg : n < 0
    · rw [toNat_ipAddrAddIpv6 a n (if_pos hneg)]
      rw [if_pos (hsign.mp hneg)] at hword
      have hhigh : (0xffffffff : UInt32).toNat = 4294967295 := rfl
      rw [hhigh]
      omega
    · rw [toNat_ipAddrAddIpv6 a n (if_neg hneg)]
      rw [if_neg (fun h => hneg (hsign.mpr h))] at hword
      have hhigh : (0 : UInt32).toNat = 0 := rfl
      rw [hhigh]
      omega

theorem toInt_neg_cases (n : Int32) :
    (n ≠ Int32.minValue ∧ (-n).toInt = -n.toInt) ∨
      (n = Int32.minValue ∧ (-n).toInt = -2147483648 ∧ n.toInt = -2147483648) := by
  have hlo := n.le_toInt
  have hhi := n.toInt_lt
  by_cases hmin : n = Int32.minValue
  · right
    rw [hmin]
    exact ⟨rfl, rfl, rfl⟩
  · left
    refine ⟨hmin, ?_⟩
    have hne : n.toInt ≠ -2147483648 := fun h => hmin (Int32.toInt.inj h)
    rw [Int32.toInt_neg]
    unfold Int.bmod
    dsimp only
    split <;> omega

/-- The sum and the difference are those of the family, and each undoes the other. -/
structure Adds (a : IpAddr) (n : Int32) : Prop where
  realm_add : realm (ipAddrAdd a n) = realm a
  add : (number (ipAddrAdd a n) : ℤ) = (number a + n.toInt) % space a
  realm_sub : realm (ipAddrSub a n) = realm a
  sub : (number (ipAddrSub a n) : ℤ) = (number a - n.toInt) % space a
  add_sub : ipAddrAdd (ipAddrSub a n) n = a
  sub_add : ipAddrSub (ipAddrAdd a n) n = a

def IsV6 : IpAddr → Prop
  | .v4 _ => False
  | .v6 _ _ => True

theorem space_ipAddrAdd (a : IpAddr) (n : Int32) : space (ipAddrAdd a n) = space a :=
  congrArg (2 ^ width ·) (realm_ipAddrAdd a n)

theorem adds_of_neg {a : IpAddr} {n : Int32}
    (hneg : ∀ x : ℤ, (x + (-n).toInt) % space a = (x - n.toInt) % space a) : Adds a n := by
  have hnumber : (number a : ℤ) % space a = number a :=
    Int.emod_eq_of_lt (Int.natCast_nonneg _) (Int.ofNat_lt.mpr (number_lt a))
  have hadd := number_ipAddrAdd a n
  have hsub : (number (ipAddrSub a n) : ℤ) = (number a - n.toInt) % space a :=
    (number_ipAddrAdd a (-n)).trans (hneg _)
  refine ⟨realm_ipAddrAdd a n, hadd, realm_ipAddrAdd a (-n), hsub, ?_, ?_⟩
  · apply eq_of_realm_number ((realm_ipAddrAdd _ _).trans (realm_ipAddrAdd _ _))
    apply Int.ofNat_inj.mp
    calc (number (ipAddrAdd (ipAddrSub a n) n) : ℤ)
        = (number (ipAddrSub a n) + n.toInt) % space (ipAddrSub a n) := number_ipAddrAdd _ _
      _ = ((number a - n.toInt) % space a + n.toInt) % space a := by
          rw [hsub, ipAddrSub, space_ipAddrAdd]
      _ = number a := by rw [Int.emod_add_emod, Int.sub_add_cancel, hnumber]
  · apply eq_of_realm_number ((realm_ipAddrAdd _ _).trans (realm_ipAddrAdd _ _))
    apply Int.ofNat_inj.mp
    calc (number (ipAddrSub (ipAddrAdd a n) n) : ℤ)
        = (number (ipAddrAdd a n) + (-n).toInt) % space (ipAddrAdd a n) := number_ipAddrAdd _ _
      _ = ((number a + n.toInt) % space a - n.toInt) % space a := by
          rw [hadd, space_ipAddrAdd, hneg]
      _ = number a := by rw [Int.emod_sub_emod, Int.add_sub_cancel, hnumber]

/-- Addresses are added to and subtracted from as they should, but for the least number
and an address of 128 bits: in 32 bits it is its own negation. -/
theorem adds_iff (a : IpAddr) (n : Int32) : Adds a n ↔ ¬ (IsV6 a ∧ n = Int32.minValue) := by
  obtain ⟨hmin, hneg⟩ | ⟨hmin, hneg, hn⟩ := toInt_neg_cases n
  · refine iff_of_true (adds_of_neg fun x => ?_) fun h => hmin h.2
    rw [hneg, Int.sub_eq_add_neg]
  · cases a with
    | v4 a =>
      refine iff_of_true (adds_of_neg fun x => ?_) fun h => h.1
      rw [hneg, hn]
      simp only [space, realm, width]
      omega
    | v6 a scope =>
      refine iff_of_false (fun h => ?_) fun h => h ⟨trivial, hmin⟩
      have hsub := h.sub
      rw [ipAddrSub, number_ipAddrAdd, hneg, hn] at hsub
      simp only [number_v6, space, realm, width] at hsub
      omega

/-- From the first address of 128 bits the least number is subtracted. -/
theorem sub_least_differs : ¬ Adds (.v6 ⟨0, 0, 0, 0⟩ 0) Int32.minValue := by
  intro h
  exact absurd h.add_sub (by decide)

end Yans.Net.Ip
