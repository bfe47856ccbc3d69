import Yans.Library.Prefixes
import Yans.Net.IpBlocks
import Yans.Util.Strtoul
import Mathlib.Tactic.Ring

/-! Blocks as text: a single address, a first and a last address, or an address
with the length of a prefix. `getaddrinfo` is taken to read the texts of the
addresses; what the code makes of the rest is what the notation means. -/
namespace Yans.Net.Ip

open Library Library.Memory Library.Decimal Library.Prefixes Util

theorem toNat_and_mask {w m : UInt32} {n : ℕ} (hn : n ≤ 32) (hm : m.toNat = 2 ^ 32 - 2 ^ n) :
    (w &&& m).toNat = clearLow w.toNat n := by
  rw [UInt32.toNat_and, hm]
  apply Nat.eq_of_testBit_eq
  intro i
  rw [Nat.testBit_and, testBit_mask hn, testBit_clearLow]
  by_cases hword : i < 32
  · simp [hword, Bool.and_comm]
  · have hpow : 2 ^ 32 ≤ 2 ^ i := Nat.pow_le_pow_right (by decide) (Nat.le_of_not_lt hword)
    simp [Nat.testBit_lt_two_pow (Nat.lt_of_lt_of_le w.toNat_lt hpow)]

theorem toNat_or_mask {w m : UInt32} {n : ℕ} (hn : n ≤ 32) (hm : m.toNat = 2 ^ 32 - 2 ^ n) :
    (w ||| ~~~m).toNat = setLow w.toNat n := by
  have hpow : 2 ^ n ≤ 2 ^ 32 := Nat.pow_le_pow_right (by decide) hn
  have hnot : (~~~m).toNat = 2 ^ n - 1 := by
    rw [UInt32.toNat_not, hm]
    change 2 ^ 32 - 1 - _ = _
    omega
  rw [UInt32.toNat_or, hnot]
  apply Nat.eq_of_testBit_eq
  intro i
  rw [Nat.testBit_or, Nat.testBit_two_pow_sub_one, testBit_setLow, Bool.or_comm]

theorem toNat_wordMask {n : ℕ} (hn : n < 32) : (wordMask n).toNat = 2 ^ 32 - 2 ^ n := by
  have hpos := Nat.two_pow_pos n
  have hshift := toNat_one_shiftLeft hn
  rw [wordMask, UInt32.toNat_not, UInt32.toNat_sub_of_le, hshift]
  · change 2 ^ 32 - 1 - (2 ^ n - 1) = _
    omega
  · rw [UInt32.le_iff_toNat_le, hshift]
    exact hpos

theorem toNat_ip4Netmask {p : ℕ} (hp : p ≤ 32) : (ip4Netmask p).toNat = 2 ^ 32 - 2 ^ (32 - p) := by
  unfold ip4Netmask
  split
  · rename_i hzero
    rw [hzero]
    rfl
  · rw [if_neg (by omega)]
    exact toNat_wordMask (by omega)

/-- How many bits of the word `i` a prefix leaves open. -/
def openBits (p i : ℕ) : ℕ := 32 - min 32 (p - 32 * i)

theorem toNat_ip6NetmaskWord {p i : ℕ} (hp : p ≤ 128) :
    (ip6NetmaskWord p i).toNat = 2 ^ 32 - 2 ^ openBits p i := by
  have hclamp : (if p > 128 then 128 else p) = p := if_neg (by omega)
  unfold ip6NetmaskWord openBits
  rw [hclamp]
  by_cases hset : i < p / 32
  · rw [if_pos hset, Nat.min_eq_left (by omega)]
    rfl
  rw [if_neg hset]
  by_cases hpart : p % 32 ≠ 0 ∧ i = p / 32
  · have hmin : min 32 (p - 32 * i) = p % 32 := by omega
    rw [if_pos hpart, hmin]
    exact toNat_wordMask (by omega)
  · rw [if_neg hpart, Nat.min_eq_right (by omega), show p - 32 * i = 0 by omega]
    rfl

theorem clear_middle {h w l n m : ℕ} (hn : n ≤ 32) (hl : l < 2 ^ m) :
    ((h * 2 ^ 32 + w) * 2 ^ m + l) / 2 ^ (n + m) * 2 ^ (n + m) =
      (h * 2 ^ 32 + w / 2 ^ n * 2 ^ n) * 2 ^ m := by
  have hpow : 2 ^ 32 = 2 ^ (32 - n) * 2 ^ n := by rw [← Nat.pow_add, Nat.sub_add_cancel hn]
  have hupper : ((h * 2 ^ 32 + w) * 2 ^ m + l) / 2 ^ m = h * 2 ^ 32 + w := by
    rw [Nat.add_comm, Nat.add_mul_div_right _ _ (Nat.two_pow_pos m), Nat.div_eq_of_lt hl,
      Nat.zero_add]
  have hlower : (h * 2 ^ 32 + w) / 2 ^ n = h * 2 ^ (32 - n) + w / 2 ^ n := by
    rw [hpow, ← Nat.mul_assoc, Nat.add_comm, Nat.add_mul_div_right _ _ (Nat.two_pow_pos n),
      Nat.add_comm]
  calc ((h * 2 ^ 32 + w) * 2 ^ m + l) / 2 ^ (n + m) * 2 ^ (n + m)
      = (h * 2 ^ (32 - n) + w / 2 ^ n) * (2 ^ n * 2 ^ m) := by
        rw [Nat.pow_add, Nat.mul_comm (2 ^ n), ← Nat.div_div_eq_div_mul, hupper, hlower]
    _ = (h * (2 ^ (32 - n) * 2 ^ n) + w / 2 ^ n * 2 ^ n) * 2 ^ m := by ring
    _ = (h * 2 ^ 32 + w / 2 ^ n * 2 ^ n) * 2 ^ m := by rw [← hpow]

theorem openBits_cases {p : ℕ} (hp : p ≤ 128) :
    ∃ n ≤ 32,
      (openBits p 0 = n ∧ openBits p 1 = 32 ∧ openBits p 2 = 32 ∧ openBits p 3 = 32 ∧
        128 - p = n + 96) ∨
      (openBits p 0 = 0 ∧ openBits p 1 = n ∧ openBits p 2 = 32 ∧ openBits p 3 = 32 ∧
        128 - p = n + 64) ∨
      (openBits p 0 = 0 ∧ openBits p 1 = 0 ∧ openBits p 2 = n ∧ openBits p 3 = 32 ∧
        128 - p = n + 32) ∨
      (openBits p 0 = 0 ∧ openBits p 1 = 0 ∧ openBits p 2 = 0 ∧ openBits p 3 = n ∧
        128 - p = n + 0) := by
  have hfixed : ∀ i, 32 * (i + 1) ≤ p → openBits p i = 0 := by
    intro i hi
    unfold openBits
    omega
  have hopen : ∀ i, p ≤ 32 * i → openBits p i = 32 := by
    intro i hi
    unfold openBits
    omega
  have hends : ∀ i, 32 * i ≤ p → openBits p i = 32 * (i + 1) - p := by
    intro i hi
    unfold openBits
    omega
  obtain h | ⟨hlow, h⟩ | ⟨hlow, h⟩ | h : p ≤ 32 ∨ (32 ≤ p ∧ p ≤ 64) ∨ (64 ≤ p ∧ p ≤ 96) ∨
    96 ≤ p := by omega
  · refine ⟨32 - p, by omega, .inl ⟨hends 0 (by omega), hopen 1 h, hopen 2 ?_, hopen 3 ?_, ?_⟩⟩
    all_goals omega
  · refine ⟨64 - p, by omega, .inr (.inl ⟨hfixed 0 hlow, hends 1 hlow, hopen 2 h, hopen 3 ?_, ?_⟩)⟩
    all_goals omega
  · refine ⟨96 - p, by omega,
      .inr (.inr (.inl ⟨hfixed 0 ?_, hfixed 1 hlow, hends 2 hlow, hopen 3 h, ?_⟩))⟩
    all_goals omega
  · refine ⟨128 - p, by omega,
      .inr (.inr (.inr ⟨hfixed 0 ?_, hfixed 1 ?_, hfixed 2 h, hends 3 h, ?_⟩))⟩
    all_goals omega

section

variable {a : Ip6} {p : ℕ} (hp : p ≤ 128)

include hp

theorem toNat_ip6Clearbits :
    (ip6Clearbits a (ip6Netmask p)).toNat = a.toNat / 2 ^ (128 - p) * 2 ^ (128 - p) := by
  have h1 := a.w1.toNat_lt
  have h2 := a.w2.toNat_lt
  have h3 := a.w3.toNat_lt
  have hword : ∀ (w : UInt32) (i : ℕ), (w &&& ip6NetmaskWord p i).toNat =
      w.toNat / 2 ^ openBits p i * 2 ^ openBits p i :=
    fun w i => toNat_and_mask (by unfold openBits; omega) (toNat_ip6NetmaskWord hp)
  simp only [ip6Clearbits, ip6Netmask, Ip6.toNat, hword]
  obtain ⟨n, hn, ⟨e0, e1, e2, e3, hbits⟩ | ⟨e0, e1, e2, e3, hbits⟩ | ⟨e0, e1, e2, e3, hbits⟩ |
    ⟨e0, e1, e2, e3, hbits⟩⟩ := openBits_cases hp
  · have hmid := @clear_middle 0 a.w0.toNat
      (a.w1.toNat * 2 ^ 64 + a.w2.toNat * 2 ^ 32 + a.w3.toNat) n 96 hn (by omega)
    rw [Nat.zero_mul, Nat.zero_add, Nat.zero_add] at hmid
    rw [e0, e1, e2, e3, hbits, show a.w0.toNat * 2 ^ 96 + a.w1.toNat * 2 ^ 64 +
      a.w2.toNat * 2 ^ 32 + a.w3.toNat = a.w0.toNat * 2 ^ 96 +
        (a.w1.toNat * 2 ^ 64 + a.w2.toNat * 2 ^ 32 + a.w3.toNat) by omega]
    refine Eq.trans ?_ hmid.symm
    generalize a.w0.toNat / 2 ^ n * 2 ^ n = c
    omega
  · have hmid := @clear_middle a.w0.toNat a.w1.toNat (a.w2.toNat * 2 ^ 32 + a.w3.toNat) n 64 hn
      (by omega)
    rw [e0, e1, e2, e3, hbits, show a.w0.toNat * 2 ^ 96 + a.w1.toNat * 2 ^ 64 +
      a.w2.toNat * 2 ^ 32 + a.w3.toNat = (a.w0.toNat * 2 ^ 32 + a.w1.toNat) * 2 ^ 64 +
        (a.w2.toNat * 2 ^ 32 + a.w3.toNat) by omega]
    refine Eq.trans ?_ hmid.symm
    generalize a.w1.toNat / 2 ^ n * 2 ^ n = c
    omega
  · have hmid := @clear_middle (a.w0.toNat * 2 ^ 32 + a.w1.toNat) a.w2.toNat a.w3.toNat n 32 hn
      (by omega)
    rw [e0, e1, e2, e3, hbits, show a.w0.toNat * 2 ^ 96 + a.w1.toNat * 2 ^ 64 +
      a.w2.toNat * 2 ^ 32 + a.w3.toNat = ((a.w0.toNat * 2 ^ 32 + a.w1.toNat) * 2 ^ 32 +
        a.w2.toNat) * 2 ^ 32 + a.w3.toNat by omega]
    refine Eq.trans ?_ hmid.symm
    generalize a.w2.toNat / 2 ^ n * 2 ^ n = c
    omega
  · have hmid := @clear_middle ((a.w0.toNat * 2 ^ 32 + a.w1.toNat) * 2 ^ 32 + a.w2.toNat)
      a.w3.toNat 0 n 0 hn (by omega)
    rw [e0, e1, e2, e3, hbits, show a.w0.toNat * 2 ^ 96 + a.w1.toNat * 2 ^ 64 +
      a.w2.toNat * 2 ^ 32 + a.w3.toNat = (((a.w0.toNat * 2 ^ 32 + a.w1.toNat) * 2 ^ 32 +
        a.w2.toNat) * 2 ^ 32 + a.w3.toNat) * 2 ^ 0 + 0 by omega]
    refine Eq.trans ?_ hmid.symm
    generalize a.w3.toNat / 2 ^ n * 2 ^ n = c
    omega

theorem toNat_ip6Setbits :
    (ip6Setbits a (ip6Netmask p)).toNat =
      (ip6Clearbits a (ip6Netmask p)).toNat + (2 ^ (128 - p) - 1) := by
  have hcleared : ∀ (w : UInt32) (i : ℕ), (w ||| ~~~ip6NetmaskWord p i).toNat =
      (w &&& ip6NetmaskWord p i).toNat + (2 ^ openBits p i - 1) := by
    intro w i
    have hbits : openBits p i ≤ 32 := by
      unfold openBits
      omega
    rw [toNat_or_mask hbits (toNat_ip6NetmaskWord hp), toNat_and_mask hbits (toNat_ip6NetmaskWord hp)]
    rfl
  simp only [ip6Setbits, ip6Clearbits, ip6Netmask, Ip6.toNat, hcleared]
  obtain ⟨n, hn, ⟨e0, e1, e2, e3, hbits⟩ | ⟨e0, e1, e2, e3, hbits⟩ | ⟨e0, e1, e2, e3, hbits⟩ |
    ⟨e0, e1, e2, e3, hbits⟩⟩ := openBits_cases hp <;>
  · have hpos := Nat.two_pow_pos n
    rw [e0, e1, e2, e3, hbits, Nat.pow_add]
    omega

end

def width : Option UInt32 → ℕ
  | none => 32
  | some _ => 128

/-- All addresses that agree with `a` on the first `p` bits. -/
structure IsPrefixBlock (a : IpAddr) (p : ℕ) (b : IpBlock) : Prop where
  realm_first : realm b.first = realm a
  realm_last : realm b.last = realm a
  ord_first : ord b.first = bottom (realm a) +
    (ord a - bottom (realm a)) / 2 ^ (width (realm a) - p) * 2 ^ (width (realm a) - p)
  ord_last : ord b.last = ord b.first + (2 ^ (width (realm a) - p) - 1)

theorem ip4BlockMask_isPrefixBlock {a : UInt32} {p : ℕ} (hp : p ≤ 32) :
    IsPrefixBlock (.v4 a) p (ip4BlockMask a p) where
  realm_first := rfl
  realm_last := rfl
  ord_first := by
    simp only [ip4BlockMask, ord, realm, bottom, width]
    rw [toNat_and_mask (Nat.sub_le 32 p) (toNat_ip4Netmask hp), Nat.zero_add, Nat.sub_zero]
    rfl
  ord_last := by
    simp only [ip4BlockMask, ord, realm, width]
    rw [toNat_or_mask (Nat.sub_le 32 p) (toNat_ip4Netmask hp),
      toNat_and_mask (Nat.sub_le 32 p) (toNat_ip4Netmask hp)]
    rfl

theorem ip6BlockMask_isPrefixBlock {a : Ip6} {scope : UInt32} {p : ℕ} (hp : p ≤ 128) :
    IsPrefixBlock (.v6 a scope) p (ip6BlockMask a scope p) where
  realm_first := rfl
  realm_last := rfl
  ord_first := by
    simp only [ip6BlockMask, ord, realm, bottom, width]
    rw [toNat_ip6Clearbits hp, Nat.add_sub_cancel_left]
  ord_last := by
    simp only [ip6BlockMask, ord, realm, width]
    rw [toNat_ip6Setbits hp, Nat.add_assoc]

theorem isPrefixBlock_unique {a : IpAddr} {p : ℕ} {b b' : IpBlock} (h : IsPrefixBlock a p b)
    (h' : IsPrefixBlock a p b') : b = b' := by
  have hfirst : b.first = b'.first :=
    eq_of_realm_ord (h.realm_first.trans h'.realm_first.symm) (h.ord_first.trans h'.ord_first.symm)
  have hlast : b.last = b'.last := by
    apply eq_of_realm_ord (h.realm_last.trans h'.realm_last.symm)
    rw [h.ord_last, h'.ord_last, hfirst]
  cases b
  cases b'
  simp_all

section

variable (getaddrinfo : Bytes → Option (List (Option IpAddr)))

/-- A numeric address, which `getaddrinfo` reads. -/
structure AddrText (text : Bytes) (addr : IpAddr) : Prop where
  ne_nil : text ≠ []
  clean : ∀ c ∈ text, isIpBlocksSep c = false ∧ c ≠ slash ∧ c ≠ dash
  read : ∃ ai, getaddrinfo text = some ai ∧ ai.findSome? id = some addr

inductive BlockText : Bytes → IpBlock → Prop
  | addr {text : Bytes} {a : IpAddr} (ha : AddrText getaddrinfo text a) : BlockText text ⟨a, a⟩
  | range {left right : Bytes} {a b : IpAddr} (ha : AddrText getaddrinfo left a)
    (hb : AddrText getaddrinfo right b) (hfamily : sameFamily a b = true) :
    BlockText (left ++ dash :: right) (if ord a < ord b then ⟨a, b⟩ else ⟨b, a⟩)
  | plen {text digits : Bytes} {a : IpAddr} {b : IpBlock} (ha : AddrText getaddrinfo text a)
    (hne : digits ≠ []) (hdigits : ∀ c ∈ digits, IsDigit c)
    (hp : value 0 digits ≤ width (realm a)) (hb : IsPrefixBlock a (value 0 digits) b) :
    BlockText (text ++ slash :: digits) b

inductive BlockList : Bytes → List IpBlock → Prop
  | nil : BlockList [] []
  | sep {c : UInt8} {rest : Bytes} {bs : List IpBlock} (hc : isIpBlocksSep c = true)
    (hrest : BlockList rest bs) : BlockList (c :: rest) bs
  | last {text : Bytes} {b : IpBlock} (htext : BlockText getaddrinfo text b)
    (hlen : text.length ≤ 255) : BlockList text [b]
  | block {text rest : Bytes} {c : UInt8} {b : IpBlock} {bs : List IpBlock}
    (htext : BlockText getaddrinfo text b) (hlen : text.length ≤ 255)
    (hc : isIpBlocksSep c = true) (hrest : BlockList rest bs) :
    BlockList (text ++ c :: rest) (b :: bs)

end

section

variable {getaddrinfo : Bytes → Option (List (Option IpAddr))}

theorem isBlank_of_not_sep {c : UInt8} (h : isIpBlocksSep c = false) : isBlank c = false := by
  simp only [isIpBlocksSep, isBlank, Bool.or_eq_false_iff] at h ⊢
  tauto

theorem ipAddr_unblank {text : Bytes} (hblank : ∀ c ∈ text, isBlank c = false)
    (hlen : text.length ≤ 511) :
    ipAddr getaddrinfo text = (getaddrinfo text).bind fun ai => ai.findSome? id := by
  have hdrop : text.dropWhile isBlank = text := by
    cases text with
    | nil => rfl
    | cons c rest =>
      exact List.dropWhile_cons_of_neg (by rw [hblank c List.mem_cons_self]; exact Bool.false_ne_true)
  have htake : text.takeWhile (fun c => !isBlank c) = text := by
    rw [List.takeWhile_eq_self_iff]
    intro c hc
    rw [hblank c hc]
    rfl
  unfold ipAddr
  dsimp only
  rw [List.take_of_length_le (by exact hlen), hdrop, htake]
  cases getaddrinfo text <;> rfl

theorem ipAddr_of_text {text : Bytes} {a : IpAddr} (h : AddrText getaddrinfo text a)
    (hlen : text.length ≤ 511) : ipAddr getaddrinfo text = some a := by
  obtain ⟨ai, hread, hfind⟩ := h.read
  rw [ipAddr_unblank (fun c hc => isBlank_of_not_sep (h.clean c hc).1) hlen, hread]
  exact hfind

theorem strchr_none {s : Bytes} {ch : UInt8} (h : ch ∉ s) : strchr s ch = none := if_neg h

theorem strchr_append {left right : Bytes} {ch : UInt8} (h : ch ∉ left) :
    strchr (left ++ ch :: right) ch = some (left, right) := by
  have hall : ∀ c ∈ left, decide (c ≠ ch) = true := by
    intro c hc
    rw [decide_eq_true_eq]
    rintro rfl
    exact h hc
  unfold strchr
  rw [if_pos (by simp), List.takeWhile_append_of_pos hall, List.dropWhile_append_of_pos hall]
  simp

theorem strtoul_digits {digits : Bytes} (hne : digits ≠ []) (hdigits : ∀ c ∈ digits, IsDigit c)
    (hvalue : value 0 digits ≤ 128) : Nalphaver.strtoul digits = (value 0 digits, []) := by
  have hnumeral : Nalphaver.Numeral [] [] digits := ⟨nofun, .inl rfl, hdigits, hne⟩
  have hread := @Nalphaver.Numeral.strtoul [] [] digits hnumeral [] nofun
  have hfits : ¬ value 0 digits > Nalphaver.ulongMax := by
    unfold Nalphaver.ulongMax
    omega
  rw [List.nil_append, List.nil_append, List.append_nil] at hread
  rw [hread, Nalphaver.numeralValue, if_neg hfits, if_neg nofun]

theorem ipBlockFromStr_of_text {text : Bytes} {b : IpBlock} (h : BlockText getaddrinfo text b)
    (hlen : text.length ≤ 511) : ipBlockFromStr getaddrinfo text = some b := by
  have hbuf : text.take (ipAddrMaxlen - 1) = text :=
    List.take_of_length_le hlen
  unfold ipBlockFromStr
  dsimp only
  rw [hbuf]
  cases h with
  | addr ha =>
    rw [strchr_none fun h => (ha.clean _ h).2.1 rfl, strchr_none fun h => (ha.clean _ h).2.2 rfl]
    dsimp only
    rw [ipAddr_of_text ha (by omega)]
    rfl
  | @range left right a b ha hb hfamily =>
    rw [List.length_append, List.length_cons] at hlen
    have hslash : slash ∉ left ++ dash :: right := by
      intro h
      obtain h | h := List.mem_append.mp h
      · exact (ha.clean _ h).2.1 rfl
      obtain h | h := List.mem_cons.mp h
      · exact absurd h (by decide)
      · exact (hb.clean _ h).2.1 rfl
    rw [strchr_none hslash, strchr_append fun h => (ha.clean _ h).2.2 rfl]
    dsimp only
    unfold ipBlockRange
    rw [ipAddr_of_text ha (by omega)]
    dsimp only
    rw [ipAddr_of_text hb (by omega)]
    dsimp only
    unfold ipBlockFromAddrs
    rw [if_neg (by simpa using hfamily)]
    by_cases hlt : ord a < ord b
    · rw [if_pos (ipAddrCmp_neg.mpr hlt), if_pos hlt]
    · rw [if_neg (mt ipAddrCmp_neg.mp hlt), if_neg hlt]
  | @plen text digits a b ha hne hdigits hp hb =>
    rw [List.length_append, List.length_cons] at hlen
    have hvalue : value 0 digits ≤ 128 := by
      cases a with
      | v4 a => exact Nat.le_trans hp (show 32 ≤ 128 by decide)
      | v6 a scope => exact hp
    rw [strchr_append fun h => (ha.clean _ h).2.1 rfl]
    dsimp only
    unfold ipBlockCidr
    rw [ipAddr_of_text ha (by omega), strtoul_digits hne hdigits hvalue]
    dsimp only
    rw [if_neg (by simp)]
    cases a with
    | v4 a =>
      change value 0 digits ≤ 32 at hp
      dsimp only
      rw [if_neg (Nat.not_lt.mpr hp)]
      exact congrArg some (isPrefixBlock_unique (ip4BlockMask_isPrefixBlock hp) hb)
    | v6 a scope =>
      change value 0 digits ≤ 128 at hp
      dsimp only
      rw [if_neg (Nat.not_lt.mpr hp)]
      exact congrArg some (isPrefixBlock_unique (ip6BlockMask_isPrefixBlock hp) hb)

theorem not_sep_of_isDigit {c : UInt8} (hc : IsDigit c) : isIpBlocksSep c = false := by
  by_contra h
  rw [Bool.not_eq_false] at h
  simp only [isIpBlocksSep, Bool.or_eq_true, decide_eq_true_eq] at h
  obtain (((rfl | rfl) | rfl) | rfl) | rfl := h <;> exact absurd hc (by decide)

theorem blockText_token {text : Bytes} {b : IpBlock} (h : BlockText getaddrinfo text b) :
    text ≠ [] ∧ ∀ c ∈ text, isIpBlocksSep c = false := by
  cases h with
  | addr ha => exact ⟨ha.ne_nil, fun c hc => (ha.clean c hc).1⟩
  | range ha hb _ =>
    refine ⟨by simp, fun c hc => ?_⟩
    obtain hc | hc := List.mem_append.mp hc
    · exact (ha.clean c hc).1
    obtain rfl | hc := List.mem_cons.mp hc
    · rfl
    · exact (hb.clean c hc).1
  | plen ha hne hdigits _ _ =>
    refine ⟨by simp, fun c hc => ?_⟩
    obtain hc | hc := List.mem_append.mp hc
    · exact (ha.clean c hc).1
    obtain rfl | hc := List.mem_cons.mp hc
    · rfl
    · exact not_sep_of_isDigit (hdigits c hc)

theorem consBlock_token (before text tail : Bytes) (blocks : List IpBlock) :
    consBlock getaddrinfo blocks (before ++ text ++ tail) before.length
      (before.length + text.length) =
      (ipBlockFromStr getaddrinfo (text.take 255)).map fun blk => blocks ++ [blk] := by
  have hcut : (text ++ tail).take (if text.length ≥ 256 then 255 else text.length) =
      text.take 255 := by
    split
    · exact List.take_append_of_le_length (by omega)
    · rw [List.take_left, List.take_of_length_le (by omega)]
  unfold consBlock
  dsimp only
  rw [Nat.add_sub_cancel_left, List.append_assoc, List.drop_left, hcut]

theorem consBlock_of_text {before text tail : Bytes} {b : IpBlock} {blocks : List IpBlock}
    (h : BlockText getaddrinfo text b) (hlen : text.length ≤ 255) :
    consBlock getaddrinfo blocks (before ++ text ++ tail) before.length
      (before.length + text.length) = some (blocks ++ [b]) := by
  rw [consBlock_token, List.take_of_length_le hlen, ipBlockFromStr_of_text h (by omega)]
  rfl

theorem findBlocks_inside {s tail : Bytes} {start : ℕ} {blocks : List IpBlock} (text : Bytes) :
    ∀ pos, (∀ c ∈ text, isIpBlocksSep c = false) →
    findBlocks getaddrinfo s pos (some start) blocks (text ++ tail) =
      findBlocks getaddrinfo s (pos + text.length) (some start) blocks tail := by
  induction text with
  | nil => exact fun pos _ => rfl
  | cons c text ih =>
    intro pos hsep
    have hstep : findBlocks getaddrinfo s pos (some start) blocks (c :: (text ++ tail)) =
        findBlocks getaddrinfo s (pos + 1) (some start) blocks (text ++ tail) := by
      rw [findBlocks, if_neg (by rw [hsep c List.mem_cons_self]; exact Bool.false_ne_true)]
    rw [List.cons_append, hstep, ih (pos + 1) fun d hd => hsep d (List.mem_cons_of_mem _ hd),
      List.length_cons]
    congr 1
    omega

theorem findBlocks_token {s text tail : Bytes} {pos : ℕ} {blocks : List IpBlock} (hne : text ≠ [])
    (hsep : ∀ c ∈ text, isIpBlocksSep c = false) :
    findBlocks getaddrinfo s pos none blocks (text ++ tail) =
      findBlocks getaddrinfo s (pos + text.length) (some pos) blocks tail := by
  obtain ⟨c, rest, rfl⟩ := List.exists_cons_of_ne_nil hne
  rw [List.cons_append, findBlocks,
    if_neg (by rw [hsep c List.mem_cons_self]; exact Bool.false_ne_true),
    findBlocks_inside rest _ fun d hd => hsep d (List.mem_cons_of_mem _ hd), List.length_cons]
  congr 1
  omega

theorem findBlocks_of_list {rest : Bytes} {bs : List IpBlock}
    (h : BlockList getaddrinfo rest bs) : ∀ before blocks,
    findBlocks getaddrinfo (before ++ rest) before.length none blocks rest =
      some (blocks ++ bs) := by
  induction h with
  | nil =>
    intro before blocks
    rw [findBlocks, List.append_nil]
  | @sep c rest bs hc _ ih =>
    intro before blocks
    have hih := ih (before ++ [c]) blocks
    rw [List.append_assoc, List.singleton_append, List.length_append, List.length_singleton] at hih
    rw [findBlocks, if_pos hc, hih]
  | @last text b htext hlen =>
    intro before blocks
    obtain ⟨hne, hsep⟩ := blockText_token htext
    have htoken := @findBlocks_token getaddrinfo (before ++ text) text [] before.length blocks hne hsep
    have hcons := @consBlock_of_text getaddrinfo before text [] b blocks htext hlen
    rw [List.append_nil] at htoken hcons
    rw [htoken, findBlocks, hcons]
  | @block text rest c b bs htext hlen hc _ ih =>
    intro before blocks
    obtain ⟨hne, hsep⟩ := blockText_token htext
    have hcons := @consBlock_of_text getaddrinfo before text (c :: rest) b blocks htext hlen
    have hih := ih (before ++ text ++ [c]) (blocks ++ [b])
    simp only [List.append_assoc, List.singleton_append, List.length_append,
      List.length_singleton] at hih hcons
    rw [findBlocks_token hne hsep, findBlocks, if_pos hc, hcons]
    dsimp only
    rw [Nat.add_assoc, hih]

end

end Yans.Net.Ip
