import Yans.Net.FcgiParams

/-! Whether the slices that `fcgi_cli_next_param` returns lie inside the parameters. A
length of four bytes is extended with ones, so that its sum with a short one may wrap
around to something small. -/
namespace Yans.Net.Fcgi

open Library.Memory Util

/-- The length that four bytes spell, the first of them with its top bit set. -/
def longLength (a b c d : UInt8) : Size :=
  charSize a <<< 24 ||| charSize b <<< 16 ||| charSize c <<< 8 ||| charSize d

inductive Reached (params : Bytes) : Size → Prop where
  | start : Reached params 0
  | next {off next : Size} {out : FcgiPair} (reached : Reached params off)
      (call : fcgiCliNextParam params off = .again out next) : Reached params next

structure FcgiPair.Inside (params : Bytes) (out : FcgiPair) : Prop where
  key : out.key.toNat + out.keylen.toNat ≤ params.length
  value : out.value.toNat + out.valuelen.toNat ≤ params.length

/-- What the call at an offset returns lies inside, and the next offset is larger and
not behind the end. -/
def Stays (params : Bytes) (off : Size) : Prop :=
  ∀ out next, fcgiCliNextParam params off = .again out next →
    out.Inside params ∧ off.toNat < next.toNat ∧ next.toNat ≤ params.length

/-- One length `s` takes one byte and the other four, the last of which is `d`: the sum
wraps around and what is left of it fits. -/
def Wraps (data : Bytes) : Prop :=
  ∃ a b c d s rest, (data = [a, b, c, d, s] ++ rest ∨ data = [s, a, b, c, d] ++ rest) ∧
    128 ≤ a.toNat ∧ s.toNat < 128 ∧ 256 ≤ s.toNat + d.toNat ∧
      s.toNat + d.toNat ≤ 256 + rest.length

theorem getLength_one {s : UInt8} (hs : s.toNat < 128) (rest : Bytes) :
    getLength (s :: rest) = some (charSize s, 1) := by
  unfold getLength
  dsimp only
  rw [if_neg]
  rw [top_bit]
  omega

variable {a : UInt8}

theorem getLength_four (ha : 128 ≤ a.toNat) (b c d : UInt8) (rest : Bytes) :
    getLength (a :: b :: c :: d :: rest) = some (longLength a b c d, 4) := by
  unfold getLength
  dsimp only
  rw [if_pos ((top_bit a).mpr ha)]
  rfl

theorem getLength_cases {data : Bytes} {len : Size} {n : ℕ} (h : getLength data = some (len, n)) :
    (∃ s rest, data = [s] ++ rest ∧ n = 1 ∧ s.toNat < 128 ∧ len = charSize s) ∨
      ∃ a b c d rest, data = [a, b, c, d] ++ rest ∧ n = 4 ∧ 128 ≤ a.toNat ∧
        len = longLength a b c d := by
  cases data with
  | nil => cases h
  | cons ch rest =>
    by_cases hch : ch.toNat < 128
    · rw [getLength_one hch] at h
      cases h
      exact .inl ⟨ch, rest, rfl, rfl, hch, rfl⟩
    · rw [Nat.not_lt] at hch
      unfold getLength at h
      dsimp only at h
      rw [if_pos ((top_bit ch).mpr hch)] at h
      split at h
      · rename_i b c d rest
        cases h
        exact .inr ⟨ch, b, c, d, rest, rfl, rfl, hch, rfl⟩
      · cases h

theorem toNat_charSize_of_lt {ch : UInt8} (h : ch.toNat < 128) :
    (charSize ch).toNat = ch.toNat := by
  rw [charSize_of_lt h, toNat_ofNat_size]
  omega

theorem toNat_charSize_of_ge {ch : UInt8} (h : 128 ≤ ch.toNat) :
    (charSize ch).toNat = 2 ^ 64 - 256 + ch.toNat := by
  have hmsb : ch.toBitVec.msb = true := by
    rw [BitVec.msb_eq_true_iff_two_mul_ge]
    have hbits : ch.toBitVec.toNat = ch.toNat := rfl
    omega
  have hlt := ch.toNat_lt
  unfold charSize
  rw [BitVec.toNat_signExtend, if_pos hmsb, BitVec.toNat_setWidth, UInt8.toNat_toBitVec]
  omega

theorem toNat_charSize_mod (ch : UInt8) : (charSize ch).toNat % 2 ^ 8 = ch.toNat := by
  have hlt := ch.toNat_lt
  by_cases h : ch.toNat < 128
  · rw [toNat_charSize_of_lt h]
    omega
  · rw [toNat_charSize_of_ge (Nat.not_lt.mp h)]
    omega

theorem toNat_longLength (a b c d : UInt8) : (longLength a b c d).toNat =
    (charSize a <<< 24).toNat ||| (charSize b <<< 16).toNat ||| (charSize c <<< 8).toNat |||
      (charSize d).toNat := by
  unfold longLength
  rw [BitVec.toNat_or, BitVec.toNat_or, BitVec.toNat_or]

theorem le_longLength (ha : 128 ≤ a.toNat) (b c d : UInt8) :
    2 ^ 64 - 2 ^ 31 ≤ (longLength a b c d).toNat := by
  have hlt := a.toNat_lt
  have hshift : (charSize a <<< 24).toNat = 2 ^ 64 - 2 ^ 32 + a.toNat * 2 ^ 24 := by
    rw [BitVec.toNat_shiftLeft, toNat_charSize_of_ge ha, Nat.shiftLeft_eq]
    omega
  rw [toNat_longLength]
  refine le_trans ?_ ((Nat.left_le_or.trans Nat.left_le_or).trans Nat.left_le_or)
  rw [hshift]
  omega

theorem longLength_mod (a b c d : UInt8) : (longLength a b c d).toNat % 2 ^ 8 = d.toNat := by
  have hlow : ∀ {n : ℕ} (x : Size), 8 ≤ n → n < 64 → (x <<< n).toNat % 2 ^ 8 = 0 := by
    intro n x hn hlt
    rw [BitVec.toNat_shiftLeft, Nat.shiftLeft_eq,
      Nat.mod_mod_of_dvd _ (Nat.pow_dvd_pow 2 (by decide : 8 ≤ 64))]
    exact Nat.mod_eq_zero_of_dvd ((Nat.pow_dvd_pow 2 hn).mul_left _)
  rw [toNat_longLength, Nat.or_mod_two_pow, Nat.or_mod_two_pow, Nat.or_mod_two_pow,
    hlow _ (by decide) (by decide), hlow _ (by decide) (by decide),
    hlow _ (by decide) (by decide), toNat_charSize_mod]
  simp

theorem toNat_longLength_of_ge {d : UInt8} (hd : 128 ≤ d.toNat) (a b c : UInt8) :
    (longLength a b c d).toNat = 2 ^ 64 - 256 + d.toNat := by
  have hmod := longLength_mod a b c d
  have hlt := (longLength a b c d).isLt
  have hle : (charSize d).toNat ≤ (longLength a b c d).toNat := by
    rw [toNat_longLength]
    exact Nat.right_le_or
  rw [toNat_charSize_of_ge hd] at hle
  omega

theorem short_add_long_le_iff {s : UInt8} (ha : 128 ≤ a.toNat) (hs : s.toNat < 128)
    (b c d : UInt8) {left : ℕ} (hleft : left < 2 ^ 31) :
    (charSize s + longLength a b c d).toNat ≤ left ↔
      256 ≤ s.toNat + d.toNat ∧ s.toNat + d.toNat ≤ 256 + left := by
  have hlarge := le_longLength ha b c d
  have hlt := (longLength a b c d).isLt
  have hmod := longLength_mod a b c d
  have hd := d.toNat_lt
  rw [BitVec.toNat_add, toNat_charSize_of_lt hs]
  by_cases hsign : 128 ≤ d.toNat
  · rw [toNat_longLength_of_ge hsign]
    omega
  · omega

theorem long_add_long_gt {a' : UInt8} (ha : 128 ≤ a.toNat) (ha' : 128 ≤ a'.toNat)
    (b c d b' c' d' : UInt8) {left : ℕ} (hleft : left < 2 ^ 31) :
    left < (longLength a b c d + longLength a' b' c' d').toNat := by
  have hlarge := le_longLength ha b c d
  have hlarge' := le_longLength ha' b' c' d'
  have hlt := (longLength a b c d).isLt
  have hlt' := (longLength a' b' c' d').isLt
  rw [BitVec.toNat_add]
  omega

section Call

variable {params : Bytes} {off : Size}

variable {out : FcgiPair} {next : Size}

theorem nextParam_cases (h : fcgiCliNextParam params off = .again out next) :
    ∃ keylen l0 valuelen l1, getLength (params.drop off.toNat) = some (keylen, l0) ∧
      getLength ((params.drop off.toNat).drop l0) = some (valuelen, l1) ∧
      (keylen + valuelen).toNat ≤ (params.drop off.toNat).length - l0 - l1 ∧
      out = ⟨off + BitVec.ofNat 64 (l0 + l1), keylen, off + BitVec.ofNat 64 (l0 + l1) + keylen,
        valuelen⟩ ∧
      next = off + (BitVec.ofNat 64 (l0 + l1) + keylen + valuelen) := by
  unfold fcgiCliNextParam at h
  dsimp only at h
  split at h
  · cases h
  · split at h
    · cases h
    · rename_i keylen l0 hkey
      split at h
      · cases h
      · rename_i valuelen l1 hvalue
        split at h
        · cases h
        · rename_i hfits
          cases h
          exact ⟨keylen, l0, valuelen, l1, hkey, hvalue, Nat.not_lt.mp hfits, rfl, rfl⟩

theorem nextParam_of_getLength {keylen valuelen : Size} {l0 l1 : ℕ}
    (hkey : getLength (params.drop off.toNat) = some (keylen, l0))
    (hvalue : getLength ((params.drop off.toNat).drop l0) = some (valuelen, l1))
    (hfits : (keylen + valuelen).toNat ≤ (params.drop off.toNat).length - l0 - l1) :
    ∃ key value next,
      fcgiCliNextParam params off = .again ⟨key, keylen, value, valuelen⟩ next := by
  have hinside : ¬ off.toNat ≥ params.length := by
    intro hbehind
    rw [List.drop_eq_nil_of_le hbehind] at hkey
    cases hkey
  unfold fcgiCliNextParam
  rw [if_neg hinside]
  simp only [hkey, hvalue]
  rw [if_neg (Nat.not_lt.mpr hfits)]
  exact ⟨_, _, _, rfl⟩

theorem nextParam_data (hsize : params.length < 2 ^ 31)
    (h : fcgiCliNextParam params off = .again out next) :
    ∃ head rest keylen valuelen, params.drop off.toNat = head ++ rest ∧ head ≠ [] ∧
      (keylen + valuelen).toNat ≤ rest.length ∧
      out = ⟨off + BitVec.ofNat 64 head.length, keylen,
        off + BitVec.ofNat 64 head.length + keylen, valuelen⟩ ∧
      next = off + (BitVec.ofNat 64 head.length + keylen + valuelen) ∧
      (Wraps (params.drop off.toNat) ∨
        ∃ s t, head = [s, t] ∧ s.toNat < 128 ∧ t.toNat < 128 ∧ keylen = charSize s ∧
          valuelen = charSize t) := by
  obtain ⟨keylen, l0, valuelen, l1, hkey, hvalue, hfits, hout, hnext⟩ := nextParam_cases h
  have hdata : (params.drop off.toNat).length < 2 ^ 31 := by
    rw [List.length_drop]
    omega
  generalize params.drop off.toNat = data at hkey hvalue hfits hdata ⊢
  obtain ⟨s, more, rfl, rfl, hs, rfl⟩ | ⟨a, b, c, d, more, rfl, rfl, ha, rfl⟩ :=
    getLength_cases hkey
  · change getLength more = _ at hvalue
    obtain ⟨t, rest, rfl, rfl, ht, rfl⟩ | ⟨a, b, c, d, rest, rfl, rfl, ha, rfl⟩ :=
      getLength_cases hvalue
    · exact ⟨[s, t], rest, _, _, rfl, List.cons_ne_nil _ _, hfits, hout, hnext,
        .inr ⟨s, t, rfl, hs, ht, rfl, rfl⟩⟩
    · have hrest : rest.length < 2 ^ 31 := by
        simp only [List.length_append] at hdata
        omega
      have hsum := (short_add_long_le_iff ha hs b c d hrest).mp hfits
      exact ⟨[s, a, b, c, d], rest, _, _, rfl, List.cons_ne_nil _ _, hfits, hout, hnext,
        .inl ⟨a, b, c, d, s, rest, .inr rfl, ha, hs, hsum⟩⟩
  · change getLength more = _ at hvalue
    obtain ⟨s, rest, rfl, rfl, hs, rfl⟩ | ⟨a', b', c', d', rest, rfl, rfl, ha', rfl⟩ :=
      getLength_cases hvalue
    · have hrest : rest.length < 2 ^ 31 := by
        simp only [List.length_append] at hdata
        omega
      have hsum := hfits
      rw [BitVec.add_comm] at hsum
      exact ⟨[a, b, c, d, s], rest, _, _, rfl, List.cons_ne_nil _ _, hfits, hout, hnext,
        .inl ⟨a, b, c, d, s, rest, .inl rfl, ha, hs,
          (short_add_long_le_iff ha hs b c d hrest).mp hsum⟩⟩
    · have hrest : rest.length < 2 ^ 31 := by
        simp only [List.length_append] at hdata
        omega
      exact absurd hfits (Nat.not_le.mpr (long_add_long_gt ha ha' b c d b' c' d' hrest))

theorem nextParam_advances (hsize : params.length < 2 ^ 31)
    (h : fcgiCliNextParam params off = .again out next) :
    off.toNat < next.toNat ∧ next.toNat ≤ params.length := by
  obtain ⟨head, rest, keylen, valuelen, hdata, hne, hfits, -, rfl, -⟩ := nextParam_data hsize h
  have hlength := congrArg List.length hdata
  have hpos := List.length_pos_iff.mpr hne
  rw [List.length_drop, List.length_append] at hlength
  rw [BitVec.add_assoc (BitVec.ofNat 64 head.length), BitVec.toNat_add, BitVec.toNat_add,
    toNat_ofNat_size (by omega)]
  omega

theorem stays_iff (hsize : params.length < 2 ^ 31) :
    Stays params off ↔ ¬ Wraps (params.drop off.toNat) := by
  constructor
  · rintro hstays ⟨a, b, c, d, s, rest, hdata, ha, hs, hlow, hhigh⟩
    have hlong := le_longLength ha b c d
    have hrest : rest.length < 2 ^ 31 := by
      have hlength : (params.drop off.toNat).length = 5 + rest.length := by
        obtain hdata | hdata := hdata
        · rw [hdata, List.length_append]
          rfl
        · rw [hdata, List.length_append]
          rfl
      rw [List.length_drop] at hlength
      omega
    have hsum := (short_add_long_le_iff ha hs b c d hrest).mpr ⟨hlow, hhigh⟩
    obtain hdata | hdata := hdata
    · have hkey : getLength (params.drop off.toNat) = some (longLength a b c d, 4) := by
        rw [hdata]
        exact getLength_four ha b c d _
      have hvalue : getLength ((params.drop off.toNat).drop 4) = some (charSize s, 1) := by
        rw [hdata]
        exact getLength_one hs rest
      obtain ⟨key, value, next, hcall⟩ := nextParam_of_getLength hkey hvalue
        (by rw [hdata, BitVec.add_comm]; exact hsum)
      have hinside := (hstays _ _ hcall).1.key
      dsimp only at hinside
      omega
    · have hkey : getLength (params.drop off.toNat) = some (charSize s, 1) := by
        rw [hdata]
        exact getLength_one hs _
      have hvalue : getLength ((params.drop off.toNat).drop 1) = some (longLength a b c d, 4) := by
        rw [hdata]
        exact getLength_four ha b c d rest
      obtain ⟨key, value, next, hcall⟩ := nextParam_of_getLength hkey hvalue
        (by rw [hdata]; exact hsum)
      have hinside := (hstays _ _ hcall).1.value
      dsimp only at hinside
      omega
  · intro hnot out next hcall
    refine ⟨?_, nextParam_advances hsize hcall⟩
    obtain ⟨head, rest, keylen, valuelen, hdata, -, hfits, rfl, -, hcases⟩ :=
      nextParam_data hsize hcall
    obtain hwraps | ⟨s, t, rfl, hs, ht, rfl, rfl⟩ := hcases
    · exact absurd hwraps hnot
    have hlength := congrArg List.length hdata
    rw [List.length_drop, List.length_append, show [s, t].length = 2 from rfl] at hlength
    rw [BitVec.toNat_add, toNat_charSize_of_lt hs, toNat_charSize_of_lt ht] at hfits
    have htwo : (BitVec.ofNat 64 [s, t].length : Size).toNat = 2 := rfl
    constructor
    · dsimp only
      rw [BitVec.toNat_add, htwo, toNat_charSize_of_lt hs]
      omega
    · dsimp only
      rw [BitVec.toNat_add, BitVec.toNat_add, htwo, toNat_charSize_of_lt hs,
        toNat_charSize_of_lt ht]
      omega

end Call

/-! Going through all parameters -/

def Ends (params : Bytes) : Prop :=
  ∃ last, Reached params last ∧ fcgiCliNextParam params last = .ok

/-- The induction is on the bytes that are left. -/
theorem ends_of_reached {params : Bytes} (hsize : params.length < 2 ^ 31) (left : ℕ) :
    ∀ {off : Size}, Reached params off → params.length - off.toNat = left → Ends params := by
  induction left using Nat.strongRecOn with
  | _ left ih =>
    intro off hreached hleft
    cases hcall : fcgiCliNextParam params off with
    | ok => exact ⟨off, hreached, hcall⟩
    | again out next =>
      have hadvances := nextParam_advances hsize hcall
      exact ih (params.length - next.toNat) (by omega) (.next hreached hcall) rfl

/-- Going through the parameters stays inside of them and ends, exactly if at no offset on
the way the sum of a long and a short length wraps around to what is left or less. -/
theorem next_param_inside_iff {params : Bytes} (hsize : params.length ≤ maxParamsz) :
    ((∀ off, Reached params off → Stays params off) ∧ Ends params) ↔
      ∀ off, Reached params off → ¬ Wraps (params.drop off.toNat) := by
  have hlimit : maxParamsz < 2 ^ 31 := by decide
  have hshort : params.length < 2 ^ 31 := by omega
  constructor
  · rintro ⟨hstays, -⟩ off hreached
    exact (stays_iff hshort).mp (hstays off hreached)
  · intro hnot
    refine ⟨fun off hreached => (stays_iff hshort).mpr (hnot off hreached), ?_⟩
    exact ends_of_reached hshort _ .start rfl

/-- `A=1` and a name of 200 bytes that are not there. -/
theorem next_param_inside_iff_long :
    ((∀ off, Reached [1, 1, 65, 49, 128, 0, 0, 200, 0] off →
        Stays [1, 1, 65, 49, 128, 0, 0, 200, 0] off) ∧ Ends [1, 1, 65, 49, 128, 0, 0, 200, 0]) ↔
      ∀ off, Reached [1, 1, 65, 49, 128, 0, 0, 200, 0] off →
        ¬ Wraps (([1, 1, 65, 49, 128, 0, 0, 200, 0] : Bytes).drop off.toNat) :=
  next_param_inside_iff (by decide)

/-- A name of four bytes of ones and a value of one byte: the sum is zero. -/
theorem next_param_outside :
    ¬ ∀ off, Reached [255, 255, 255, 255, 1] off → Stays [255, 255, 255, 255, 1] off := by
  intro hall
  have h := hall 0 .start
  have hcall : fcgiCliNextParam [255, 255, 255, 255, 1] 0 =
      .again ⟨5, BitVec.allOnes 64, 4, 1⟩ 5 := by decide
  have hkey := (h _ _ hcall).1.key
  exact absurd hkey (by decide)

end Yans.Net.Fcgi
