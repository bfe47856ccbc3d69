import Yans.Net.Fcgi
import Mathlib.Data.Nat.Bitwise

/-! The parameters of a FastCGI request: their encoding, and what going through
them with `fcgi_cli_next_param` yields. -/
namespace Yans.Net.Fcgi

open Library.Memory Util

/-- A length of at least 128 takes four bytes, the first with its top bit set. -/
def encodeLength (n : ℕ) : Bytes :=
  if n < 128 then [UInt8.ofNat n]
  else [UInt8.ofNat (128 + n / 2 ^ 24), UInt8.ofNat (n / 2 ^ 16), UInt8.ofNat (n / 2 ^ 8),
    UInt8.ofNat n]

def encodePair (pair : Bytes × Bytes) : Bytes :=
  encodeLength pair.1.length ++ encodeLength pair.2.length ++ pair.1 ++ pair.2

def encodePairs (pairs : List (Bytes × Bytes)) : Bytes := pairs.flatMap encodePair

def FcgiPair.Names (params : Bytes) (out : FcgiPair) (pair : Bytes × Bytes) : Prop :=
  (out.keylen.toNat = pair.1.length ∧ slice params out.key.toNat out.keylen.toNat = pair.1) ∧
    out.valuelen.toNat = pair.2.length ∧ slice params out.value.toNat out.valuelen.toNat = pair.2

/-- The calls from `off` on name exactly these pairs and then report the end. -/
def Enumerates (params : Bytes) : Size → List (Bytes × Bytes) → Prop
  | off, [] => fcgiCliNextParam params off = .ok
  | off, pair :: rest =>
    ∃ out next, fcgiCliNextParam params off = .again out next ∧ out.Names params pair ∧
      Enumerates params next rest

theorem top_bit (ch : UInt8) : ch &&& 0x80 ≠ 0 ↔ 128 ≤ ch.toNat := by
  have hbyte := ch.toNat_lt
  have hbit : (ch &&& 0x80).toNat = (ch.toNat / 128 % 2) * 128 := by
    rw [UInt8.toNat_and]
    change ch.toNat &&& 2 ^ 7 = _
    rw [Nat.and_two_pow, Nat.toNat_testBit]
    rfl
  rw [Ne, ← UInt8.toNat_inj, hbit, UInt8.toNat_zero]
  omega

theorem charSize_of_lt {ch : UInt8} (h : ch.toNat < 128) :
    charSize ch = BitVec.ofNat 64 ch.toNat := by
  unfold charSize
  rw [BitVec.signExtend_eq_setWidth_of_msb_false]
  · apply BitVec.eq_of_toNat_eq
    simp
  · rw [BitVec.msb_eq_false_iff_two_mul_lt]
    have hbits : ch.toBitVec.toNat = ch.toNat := rfl
    omega

theorem charSize_getLsbD {ch : UInt8} (h : 128 ≤ ch.toNat) : (charSize ch).getLsbD 39 = true := by
  have hmsb : ch.toBitVec.msb = true := by
    rw [BitVec.msb_eq_true_iff_two_mul_ge]
    have hbits : ch.toBitVec.toNat = ch.toNat := rfl
    omega
  unfold charSize
  rw [BitVec.getLsbD_signExtend]
  simpa using hmsb

theorem getLength_short {n : ℕ} (hn : n < 128) (rest : Bytes) :
    getLength (encodeLength n ++ rest) = some (BitVec.ofNat 64 n, 1) := by
  have hbyte : (UInt8.ofNat n).toNat = n := by
    rw [UInt8.toNat_ofNat']
    exact Nat.mod_eq_of_lt (by omega)
  have htop : ¬ (UInt8.ofNat n &&& 0x80 ≠ 0) := by
    rw [top_bit, hbyte]
    omega
  unfold encodeLength
  rw [if_pos hn, List.singleton_append]
  unfold getLength
  dsimp only
  rw [if_neg htop, charSize_of_lt (by omega), hbyte]

theorem getLength_long {n : ℕ} (hlow : 128 ≤ n) (hhigh : n < 2 ^ 31) (rest : Bytes) :
    ∃ len, getLength (encodeLength n ++ rest) = some (len, 4) ∧ 2 ^ 63 ≤ len.toNat := by
  have hbyte : (UInt8.ofNat (128 + n / 2 ^ 24)).toNat = 128 + n / 2 ^ 24 := by
    rw [UInt8.toNat_ofNat']
    exact Nat.mod_eq_of_lt (by omega)
  have hnegative : 128 ≤ (UInt8.ofNat (128 + n / 2 ^ 24)).toNat := by
    rw [hbyte]
    omega
  unfold encodeLength
  rw [if_neg (by omega), List.cons_append]
  unfold getLength
  dsimp only
  rw [if_pos ((top_bit _).mpr hnegative)]
  refine ⟨_, rfl, ?_⟩
  apply @BitVec.toNat_ge_of_msb_true 64
  rw [BitVec.msb_eq_getLsbD_last]
  simp only [BitVec.getLsbD_or, BitVec.getLsbD_shiftLeft, charSize_getLsbD hnegative]
  rfl

theorem length_encodeLength_pos (n : ℕ) : 0 < (encodeLength n).length := by
  unfold encodeLength
  split <;> simp

theorem length_encodeLength_short {n : ℕ} (hn : n < 128) : (encodeLength n).length = 1 := by
  unfold encodeLength
  rw [if_pos hn, List.length_singleton]

def Short (pair : Bytes × Bytes) : Prop := pair.1.length < 128 ∧ pair.2.length < 128

instance (pair : Bytes × Bytes) : Decidable (Short pair) := inferInstanceAs (Decidable (_ ∧ _))

theorem toNat_ofNat_size {n : ℕ} (h : n < 2 ^ 64) : (BitVec.ofNat 64 n : Size).toNat = n := by
  rw [BitVec.toNat_ofNat]
  exact Nat.mod_eq_of_lt h

theorem nextParam_short {before rest : Bytes} {pair : Bytes × Bytes} (hshort : Short pair)
    (hsize : (before ++ (encodePair pair ++ rest)).length < 2 ^ 64) :
    ∃ out, fcgiCliNextParam (before ++ (encodePair pair ++ rest))
        (BitVec.ofNat 64 before.length) =
        .again out (BitVec.ofNat 64 (before ++ encodePair pair).length) ∧
      out.Names (before ++ (encodePair pair ++ rest)) pair := by
  obtain ⟨name, value⟩ := pair
  obtain ⟨hname, hvalue⟩ := hshort
  have hname1 := length_encodeLength_short hname
  have hvalue1 := length_encodeLength_short hvalue
  simp only [encodePair, List.length_append, hname1, hvalue1] at hsize
  refine ⟨⟨BitVec.ofNat 64 (before.length + 2), BitVec.ofNat 64 name.length,
    BitVec.ofNat 64 (before.length + 2 + name.length), BitVec.ofNat 64 value.length⟩, ?_, ?_⟩
  · unfold fcgiCliNextParam
    rw [toNat_ofNat_size (by omega), List.drop_left,
      if_neg (by simp only [encodePair, List.length_append, hname1, hvalue1]; omega)]
    simp only [encodePair, List.append_assoc, getLength_short hname]
    have hsecond : (encodeLength name.length ++
        (encodeLength value.length ++ (name ++ (value ++ rest)))).drop 1 =
        encodeLength value.length ++ (name ++ (value ++ rest)) := by
      rw [← hname1, List.drop_left]
    rw [hsecond, getLength_short hvalue]
    dsimp only
    rw [← BitVec.ofNat_add, toNat_ofNat_size (by omega), if_neg]
    · simp only [← BitVec.ofNat_add, List.length_append, hname1, hvalue1, Nat.add_assoc,
        Nat.reduceAdd]
      congr 2
      omega
    · simp only [List.length_append, hname1, hvalue1]
      omega
  · have hkey : before ++ (encodePair (name, value) ++ rest) =
        (before ++ encodeLength name.length ++ encodeLength value.length) ++ name ++
          (value ++ rest) := by
      simp only [encodePair, List.append_assoc]
    have hval : before ++ (encodePair (name, value) ++ rest) =
        (before ++ encodeLength name.length ++ encodeLength value.length ++ name) ++ value ++
          rest := by
      simp only [encodePair, List.append_assoc]
    refine ⟨⟨toNat_ofNat_size (by omega), ?_⟩, toNat_ofNat_size (by omega), ?_⟩
    · rw [hkey]
      apply slice_eq_of_append
      · rw [toNat_ofNat_size (by omega)]
        simp only [List.length_append, hname1, hvalue1]
      · exact toNat_ofNat_size (by omega)
    · rw [hval]
      apply slice_eq_of_append
      · rw [toNat_ofNat_size (by omega)]
        simp only [List.length_append, hname1, hvalue1]
      · exact toNat_ofNat_size (by omega)

theorem nextParam_long {before rest : Bytes} {pair : Bytes × Bytes} (hlong : ¬ Short pair)
    (hsize : (before ++ (encodePair pair ++ rest)).length < 2 ^ 31) {out : FcgiPair} {next : Size}
    (hnext : fcgiCliNextParam (before ++ (encodePair pair ++ rest))
      (BitVec.ofNat 64 before.length) = .again out next) :
    2 ^ 63 ≤ out.keylen.toNat ∨ 2 ^ 63 ≤ out.valuelen.toNat := by
  obtain ⟨name, value⟩ := pair
  have hname0 := length_encodeLength_pos name.length
  simp only [encodePair, List.length_append] at hsize
  unfold fcgiCliNextParam at hnext
  rw [toNat_ofNat_size (by omega), List.drop_left,
    if_neg (by simp only [encodePair, List.length_append]; omega)] at hnext
  simp only [encodePair, List.append_assoc] at hnext
  by_cases hname : name.length < 128
  · have hvalue : 128 ≤ value.length := by
      by_contra hvalue
      exact hlong ⟨hname, not_le.mp hvalue⟩
    obtain ⟨len, hlen, hbig⟩ := getLength_long hvalue (by omega) (name ++ (value ++ rest))
    have hsecond : (encodeLength name.length ++
        (encodeLength value.length ++ (name ++ (value ++ rest)))).drop 1 =
        encodeLength value.length ++ (name ++ (value ++ rest)) := by
      rw [← length_encodeLength_short hname, List.drop_left]
    simp only [getLength_short hname, hsecond, hlen] at hnext
    split at hnext
    · cases hnext
    · cases hnext
      exact .inr hbig
  · obtain ⟨len, hlen, hbig⟩ := getLength_long (not_lt.mp hname) (by omega)
      (encodeLength value.length ++ (name ++ (value ++ rest)))
    simp only [hlen] at hnext
    split at hnext
    · cases hnext
    · split at hnext
      · cases hnext
      · cases hnext
        exact .inl hbig

theorem nextParam_end (params : Bytes) (hsize : params.length < 2 ^ 64) :
    fcgiCliNextParam params (BitVec.ofNat 64 params.length) = .ok := by
  unfold fcgiCliNextParam
  rw [toNat_ofNat_size hsize, if_pos (le_refl _)]

/-- The induction is on the pairs still to come; what is behind is any prefix. -/
theorem enumerates_iff {pairs : List (Bytes × Bytes)} : ∀ {before : Bytes},
    (before ++ encodePairs pairs).length < 2 ^ 31 →
    (Enumerates (before ++ encodePairs pairs) (BitVec.ofNat 64 before.length) pairs ↔
      ∀ pair ∈ pairs, Short pair) := by
  induction pairs with
  | nil =>
    intro before hsize
    rw [encodePairs, List.flatMap_nil, List.append_nil] at hsize ⊢
    simp only [Enumerates, List.not_mem_nil, false_implies, implies_true, iff_true]
    exact nextParam_end before (by omega)
  | cons pair rest ih =>
    intro before hsize
    have hcons : encodePairs (pair :: rest) = encodePair pair ++ encodePairs rest := rfl
    rw [hcons] at hsize ⊢
    rw [List.forall_mem_cons]
    by_cases hshort : Short pair
    · obtain ⟨out, hnext, hnames⟩ := @nextParam_short before (encodePairs rest) _ hshort (by omega)
      have hassoc : before ++ (encodePair pair ++ encodePairs rest) =
          (before ++ encodePair pair) ++ encodePairs rest := (List.append_assoc _ _ _).symm
      have hrest := @ih (before ++ encodePair pair) (by rwa [← hassoc])
      rw [← hassoc] at hrest
      simp only [Enumerates, hnext, NextParam.again.injEq]
      constructor
      · rintro ⟨named, next, ⟨-, hoff⟩, -, hafter⟩
        rw [← hoff] at hafter
        exact ⟨hshort, hrest.mp hafter⟩
      · intro hall
        exact ⟨out, _, ⟨rfl, rfl⟩, hnames, hrest.mpr hall.2⟩
    · constructor
      · rintro ⟨out, next, hnext, ⟨⟨hkey, -⟩, hvalue, -⟩, -⟩
        have hbig := nextParam_long hshort hsize hnext
        simp only [encodePair, List.length_append] at hsize
        omega
      · intro hall
        exact absurd hall.1 hshort

/-- The parameters of a request are named in order, each with its value, exactly
when no name and no value is long enough for the four-byte form. -/
theorem next_param_enumerates_iff (pairs : List (Bytes × Bytes))
    (hsize : (encodePairs pairs).length ≤ maxParamsz) :
    Enumerates (encodePairs pairs) 0 pairs ↔
      ∀ pair ∈ pairs, pair.1.length < 128 ∧ pair.2.length < 128 := by
  have hlimit : maxParamsz < 2 ^ 31 := by decide
  exact @enumerates_iff pairs [] (by rw [List.nil_append]; omega)

/-- `A=1`, `B=` -/
theorem next_param_enumerates_short :
    (encodePairs [([65], [49]), ([66], [])]).length ≤ maxParamsz ∧
      Enumerates (encodePairs [([65], [49]), ([66], [])]) 0 [([65], [49]), ([66], [])] := by
  have hsize : (encodePairs [([65], [49]), ([66], [])]).length ≤ maxParamsz := by decide
  refine ⟨hsize, (next_param_enumerates_iff _ hsize).mpr ?_⟩
  intro pair hpair
  simp only [List.mem_cons, List.not_mem_nil, or_false] at hpair
  obtain rfl | rfl := hpair
  · decide
  · decide

/-- A name of 128 bytes with an empty value is not delivered. -/
theorem next_param_loses_long_name :
    (encodePairs [(List.replicate 128 65, [])]).length ≤ maxParamsz ∧
      ¬ Enumerates (encodePairs [(List.replicate 128 65, [])]) 0 [(List.replicate 128 65, [])] := by
  have hname : (List.replicate 128 (65 : UInt8)).length = 128 := List.length_replicate
  generalize List.replicate 128 (65 : UInt8) = name at hname ⊢
  have hlength : (encodePairs [(name, [])]).length = 133 := by
    simp [encodePairs, encodePair, encodeLength, hname]
  constructor
  · rw [hlength]
    decide
  · intro hall
    have hshort := (@enumerates_iff [(name, [])] [] (by rw [List.nil_append, hlength]; decide)).mp
      hall _ List.mem_cons_self
    have hless : name.length < 128 := hshort.1
    omega

end Yans.Net.Fcgi
