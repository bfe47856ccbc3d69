import Yans.Net.IpNormal

/-! A block from an address and a prefix length, and the same block from an
address and a netmask. The length of the prefix is read off the netmask by
counting zero bits from its last byte on. -/
namespace Yans.Net.Ip

open Library Library.Memory Library.Decimal Library.Prefixes Util

def wordBytes (w : UInt32) : Bytes :=
  [(w >>> 24).toUInt8, (w >>> 16).toUInt8, (w >>> 8).toUInt8, w.toUInt8]

def ip6Bytes (a : Ip6) : Bytes := wordBytes a.w0 ++ wordBytes a.w1 ++ wordBytes a.w2 ++ wordBytes a.w3

/-- `while (!(buf & 1))`; a byte that is not zero ends it within eight rounds. -/
def lowZeros : ℕ → UInt8 → ℕ
  | 0, _ => 0
  | rounds + 1, buf => if buf &&& 1 = 0 then lowZeros rounds (buf >>> 1) + 1 else 0

/-- The loop of `calc_prefixlen` from the last byte on. -/
def countBits : Bytes → ℕ
  | [] => 0
  | curr :: before => if curr = 0 then countBits before + 8 else lowZeros 8 curr

def calcPrefixlen (data : Bytes) : ℕ := data.length * 8 - countBits data.reverse

/-- `none` if the families differ. -/
def ipBlockNetmask : IpAddr → IpAddr → Option IpBlock
  | .v4 a, .v4 netmask => some (ip4BlockMask a (calcPrefixlen (wordBytes netmask)))
  | .v6 a scope, .v6 netmask _ => some (ip6BlockMask a scope (calcPrefixlen (ip6Bytes netmask)))
  | _, _ => none

def ipBlockContains (blk : IpBlock) (addr : IpAddr) : Bool :=
  sameFamily blk.first blk.last && sameFamily blk.first addr &&
    ipAddrCmp addr blk.last ≤ 0 && ipAddrCmp addr blk.first ≥ 0

/-- An address as a number of the width of its family. -/
def number (a : IpAddr) : ℕ := ord a - bottom (realm a)

def bit (a : IpAddr) (i : ℕ) : Bool := (number a).testBit (width (realm a) - 1 - i)

/-- A netmask with `p` leading ones. -/
structure IsNetmask (a : IpAddr) (p : ℕ) (netmask : IpAddr) : Prop where
  family : sameFamily a netmask = true
  ones : ∀ i < width (realm a), bit netmask i = decide (i < p)

/-- `b` spans the addresses from `a` with the bits after the prefix cleared to `a`
with these bits set. -/
structure SpansPrefix (a : IpAddr) (p : ℕ) (b : IpBlock) : Prop where
  realm_first : realm b.first = realm a
  realm_last : realm b.last = realm a
  cleared : ∀ i < width (realm a), bit b.first i = (bit a i && decide (i < p))
  set : ∀ i < width (realm a), bit b.last i = (bit a i || !decide (i < p))

theorem width_of_sameFamily {a b : IpAddr} (h : sameFamily a b = true) :
    width (realm b) = width (realm a) := by
  cases a <;> cases b <;> simp_all [sameFamily, realm, width]

theorem ord_eq_number (a : IpAddr) : ord a = bottom (realm a) + number a := by
  have hle := bottom_le_ord a
  unfold number
  omega

theorem number_lt (a : IpAddr) : number a < 2 ^ width (realm a) := by
  cases a with
  | v4 a => exact a.toNat_lt
  | v6 a scope =>
    have hlt := a.toNat_lt
    simp only [number, ord, realm, bottom, width]
    omega

theorem testBit_number (a : IpAddr) {j : ℕ} (hj : j < width (realm a)) :
    (number a).testBit j = bit a (width (realm a) - 1 - j) := by
  congr 1
  omega

theorem testBit_number_above (a : IpAddr) {j : ℕ} (hj : width (realm a) ≤ j) :
    (number a).testBit j = false :=
  Nat.testBit_lt_two_pow ((number_lt a).trans_le (Nat.pow_le_pow_right (by decide) hj))

theorem IsNetmask.number_eq {a netmask : IpAddr} {p : ℕ} (h : IsNetmask a p netmask)
    (hp : p ≤ width (realm a)) :
    number netmask = 2 ^ width (realm a) - 2 ^ (width (realm a) - p) := by
  have hwidth := width_of_sameFamily h.family
  apply Nat.eq_of_testBit_eq
  intro j
  rw [testBit_mask (Nat.sub_le _ _)]
  by_cases hj : j < width (realm a)
  · rw [testBit_number netmask (by omega), hwidth, h.ones _ (by omega)]
    simp only [hj, decide_true, Bool.true_and, ← decide_not, decide_eq_decide]
    omega
  · rw [testBit_number_above netmask (by omega)]
    simp [hj]

/-- The number whose bytes, the last one first, are given. -/
def lowFirst : Bytes → ℕ
  | [] => 0
  | curr :: before => curr.toNat + 2 ^ 8 * lowFirst before

theorem lowFirst_wordBytes (w : UInt32) (before : Bytes) :
    lowFirst ((wordBytes w).reverse ++ before) = w.toNat + 2 ^ 32 * lowFirst before := by
  have hw := w.toNat_lt
  simp only [wordBytes, List.reverse_cons, List.reverse_nil, List.nil_append, List.cons_append,
    lowFirst, UInt32.toNat_toUInt8, UInt32.toNat_shiftRight, UInt32.reduceToNat, Nat.reduceMod,
    Nat.shiftRight_eq_div_pow]
  omega

theorem lowFirst_ip6Bytes (a : Ip6) : lowFirst (ip6Bytes a).reverse = a.toNat := by
  have hend := lowFirst_wordBytes a.w0 []
  rw [List.append_nil] at hend
  simp only [ip6Bytes, List.reverse_append, lowFirst_wordBytes, hend, lowFirst, Ip6.toNat]
  omega

theorem lowZeros_mask : ∀ k < 8, lowZeros 8 (UInt8.ofNat (2 ^ 8 - 2 ^ k)) = k := by decide

theorem countBits_mask (data : Bytes) : ∀ k ≤ data.length * 8,
    lowFirst data = 2 ^ (data.length * 8) - 2 ^ k → countBits data = k := by
  induction data with
  | nil =>
    intro k hk _
    exact (Nat.le_zero.mp (by simpa using hk)).symm
  | cons curr before ih =>
    intro k hk hvalue
    have hcurr := curr.toNat_lt
    have hlength : (curr :: before).length * 8 = before.length * 8 + 8 := by
      rw [List.length_cons]
      omega
    rw [hlength] at hk hvalue
    rw [lowFirst, Nat.pow_add] at hvalue
    by_cases hbyte : 8 ≤ k
    · have hpow : 2 ^ k = 2 ^ (k - 8) * 2 ^ 8 := by rw [← Nat.pow_add, Nat.sub_add_cancel hbyte]
      have hzero : curr = 0 := by
        rw [← UInt8.toNat_inj]
        change curr.toNat = 0
        omega
      rw [countBits, if_pos hzero, ih (k - 8) (by omega) (by omega)]
      omega
    · have hpow : 2 ^ k < 2 ^ 8 := Nat.pow_lt_pow_right (by decide) (by omega)
      have hpos := Nat.two_pow_pos k
      have hwhole := Nat.two_pow_pos (before.length * 8)
      have hmask : curr.toNat = 2 ^ 8 - 2 ^ k := by omega
      have hcurr : curr = UInt8.ofNat (2 ^ 8 - 2 ^ k) := by rw [← hmask, UInt8.ofNat_toNat]
      have hne : curr ≠ 0 := by
        intro h
        rw [h, show (0 : UInt8).toNat = 0 from rfl] at hmask
        omega
      rw [countBits, if_neg hne, hcurr]
      exact lowZeros_mask k (by omega)

theorem calcPrefixlen_mask {data : Bytes} {p : ℕ} (hp : p ≤ data.length * 8)
    (hvalue : lowFirst data.reverse = 2 ^ (data.length * 8) - 2 ^ (data.length * 8 - p)) :
    calcPrefixlen data = p := by
  have hcount := countBits_mask data.reverse (data.length * 8 - p)
  rw [List.length_reverse] at hcount
  rw [calcPrefixlen, hcount (Nat.sub_le _ _) hvalue]
  omega

theorem ipBlockNetmask_isPrefixBlock {a netmask : IpAddr} {p : ℕ} (hp : p ≤ width (realm a))
    (h : IsNetmask a p netmask) : ∃ b, ipBlockNetmask a netmask = some b ∧ IsPrefixBlock a p b := by
  have hnumber := h.number_eq hp
  have hfamily := h.family
  cases a with
  | v4 a =>
    cases netmask with
    | v4 m =>
      have hvalue := lowFirst_wordBytes m []
      rw [List.append_nil] at hvalue
      refine ⟨ip4BlockMask a (calcPrefixlen (wordBytes m)), rfl, ?_⟩
      rw [@calcPrefixlen_mask (wordBytes m) p hp (hvalue.trans hnumber)]
      exact ip4BlockMask_isPrefixBlock hp
    | v6 m scope => exact absurd hfamily (by simp [sameFamily])
  | v6 a scope =>
    cases netmask with
    | v4 m => exact absurd hfamily (by simp [sameFamily])
    | v6 m scope' =>
      have hnumber' : m.toNat = 2 ^ 128 - 2 ^ (128 - p) := by
        rw [← show number (.v6 m scope') = m.toNat from Nat.add_sub_cancel_left ..]
        exact hnumber
      refine ⟨ip6BlockMask a scope (calcPrefixlen (ip6Bytes m)), rfl, ?_⟩
      rw [@calcPrefixlen_mask (ip6Bytes m) p hp ((lowFirst_ip6Bytes m).trans hnumber')]
      exact ip6BlockMask_isPrefixBlock hp

section

variable {a : IpAddr} {p : ℕ} {b : IpBlock} (h : IsPrefixBlock a p b)

include h

theorem IsPrefixBlock.number_first :
    number b.first = clearLow (number a) (width (realm a) - p) := by
  rw [number, h.realm_first, h.ord_first, Nat.add_sub_cancel_left]
  rfl

theorem IsPrefixBlock.number_last : number b.last = setLow (number a) (width (realm a) - p) := by
  rw [number, h.realm_last, h.ord_last, h.ord_first, Nat.add_assoc, Nat.add_sub_cancel_left]
  rfl

theorem IsPrefixBlock.spans (hp : p ≤ width (realm a)) : SpansPrefix a p b where
  realm_first := h.realm_first
  realm_last := h.realm_last
  cleared := by
    intro i hi
    have hlow : width (realm a) - 1 - i < width (realm a) - p ↔ ¬ i < p := by omega
    unfold bit
    rw [h.realm_first, h.number_first, testBit_clearLow, Bool.and_comm]
    simp only [hlow, decide_not, Bool.not_not]
  set := by
    intro i hi
    have hlow : width (realm a) - 1 - i < width (realm a) - p ↔ ¬ i < p := by omega
    unfold bit
    rw [h.realm_last, h.number_last, testBit_setLow, Bool.or_comm]
    simp only [hlow, decide_not]

theorem IsPrefixBlock.contains_iff (hp : p ≤ width (realm a)) (x : IpAddr) :
    ipBlockContains b x = true ↔ sameFamily a x = true ∧ ∀ i < p, bit x i = bit a i := by
  have hends : sameFamily b.first b.last = true :=
    sameFamily_of_realm (h.realm_first.trans h.realm_last.symm)
  have hfirst : sameFamily b.first x = sameFamily a x := by
    rw [Bool.eq_iff_iff]
    have hfamily := sameFamily_of_realm h.realm_first
    exact ⟨sameFamily_trans (sameFamily_of_realm h.realm_first.symm), sameFamily_trans hfamily⟩
  unfold ipBlockContains
  rw [hends, hfirst]
  simp only [Bool.true_and, Bool.and_eq_true, decide_eq_true_eq, and_assoc]
  apply and_congr_right
  intro hx
  have hwidth := width_of_sameFamily hx
  have hbottom := (top_of_sameFamily hx).2
  have hbetween := @between_iff_testBit (number a) (number x) (width (realm a) - p)
  rw [← h.number_first, ← h.number_last] at hbetween
  have hbits : (∀ i < p, bit x i = bit a i) ↔
      ∀ j, width (realm a) - p ≤ j → (number x).testBit j = (number a).testBit j := by
    constructor
    · intro hagree j hj
      by_cases hlt : j < width (realm a)
      · rw [testBit_number x (by omega), testBit_number a hlt, hwidth]
        exact hagree _ (by omega)
      · rw [testBit_number_above x (by omega), testBit_number_above a (by omega)]
    · intro hagree i hi
      unfold bit
      rw [hwidth]
      exact hagree _ (by omega)
  rw [hbits, ← hbetween, ge_iff_le, ipAddrCmp_nonneg, ← not_lt, ipAddrCmp_pos, not_lt, ord_eq_number x,
    ord_eq_number b.first, ord_eq_number b.last, h.realm_first, h.realm_last, hbottom]
  omega

end

/-- A prefix length and a netmask with as many leading ones make the same block,
and it holds the addresses that share the prefix. -/
theorem prefix_netmask_agree {getaddrinfo : Bytes → Option (List (Option IpAddr))}
    {text digits : Bytes} {a netmask : IpAddr} (ha : AddrText getaddrinfo text a)
    (hne : digits ≠ []) (hdigits : ∀ c ∈ digits, IsDigit c)
    (hlen : (text ++ slash :: digits).length < ipAddrMaxlen)
    (hp : value 0 digits ≤ width (realm a)) (hmask : IsNetmask a (value 0 digits) netmask) :
    ∃ b, ipBlockFromStr getaddrinfo (text ++ slash :: digits) = some b ∧
      ipBlockNetmask a netmask = some b ∧ SpansPrefix a (value 0 digits) b ∧
      ∀ x, ipBlockContains b x = true ↔
        sameFamily a x = true ∧ ∀ i < value 0 digits, bit x i = bit a i := by
  obtain ⟨b, hb, hprefix⟩ := ipBlockNetmask_isPrefixBlock hp hmask
  have hread := ipBlockFromStr_of_text (.plen ha hne hdigits hp hprefix) (Nat.le_of_lt_succ hlen)
  exact ⟨b, hread, hb, hprefix.spans hp, hprefix.contains_iff hp⟩

/-- The text "::1/65". -/
theorem prefix_netmask_agree_65 :
    ∃ b, ipBlockFromStr (lookup [([58, 58, 49], .v6 ⟨0, 0, 0, 1⟩ 0)])
          ([58, 58, 49] ++ slash :: [54, 53]) = some b ∧
      ipBlockNetmask (.v6 ⟨0, 0, 0, 1⟩ 0) (.v6 ⟨0xffffffff, 0xffffffff, 0x80000000, 0⟩ 0) =
        some b ∧
      SpansPrefix (.v6 ⟨0, 0, 0, 1⟩ 0) 65 b ∧
      ∀ x, ipBlockContains b x = true ↔ sameFamily (.v6 ⟨0, 0, 0, 1⟩ 0) x = true ∧
        ∀ i < 65, bit x i = bit (.v6 ⟨0, 0, 0, 1⟩ 0) i :=
  prefix_netmask_agree (lookup_text (by decide) (by decide) rfl) (by decide) (by decide)
    (by decide) (by decide) ⟨rfl, by decide⟩

end Yans.Net.Ip
