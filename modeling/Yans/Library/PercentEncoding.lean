import Yans.Library.Memory

/-! Percent encoding with a set of bytes that are kept. A percent sign that two hexadecimal
digits follow is kept as well, so that a text may be encoded again. -/
namespace Yans.Library.PercentEncoding

open Memory

def percent : UInt8 := 37

def isHexDigit (c : UInt8) : Bool := 48 ≤ c && c ≤ 57 || 65 ≤ c && c ≤ 70 || 97 ≤ c && c ≤ 102

/-- The digits from `a` on are in lower case. -/
def hexDigit (n : UInt8) : UInt8 := if n < 10 then 48 + n else 87 + n

def triple (c : UInt8) : Bytes := [percent, hexDigit (c >>> 4), hexDigit (c &&& 0x0f)]

def startsHex : Bytes → Bool
  | d :: e :: _ => isHexDigit d && isHexDigit e
  | _ => false

variable (allowed : UInt8 → Bool)

/-- The byte `c` stays as it is in front of `rest`. -/
def kept (c : UInt8) (rest : Bytes) : Bool := allowed c || c = percent && startsHex rest

def encode : Bytes → Bytes
  | [] => []
  | c :: rest => (if kept allowed c rest then [c] else triple c) ++ encode rest

def escapes : Bytes → ℕ
  | [] => 0
  | c :: rest => (if kept allowed c rest then 0 else 1) + escapes rest

def Encoded : Bytes → Prop
  | [] => True
  | c :: rest => kept allowed c rest = true ∧ Encoded rest

theorem isHexDigit_hexDigit {n : UInt8} (h : n.toNat < 16) : isHexDigit (hexDigit n) = true := by
  have hall : ∀ k : Fin 16, isHexDigit (hexDigit (UInt8.ofNat k)) = true := by decide
  have hn := hall ⟨n.toNat, h⟩
  rwa [UInt8.ofNat_toNat] at hn

theorem hexDigit_shiftRight (c : UInt8) : isHexDigit (hexDigit (c >>> 4)) = true := by
  have hc := c.toNat_lt
  apply isHexDigit_hexDigit
  rw [UInt8.toNat_shiftRight, Nat.shiftRight_eq_div_pow]
  simp only [UInt8.reduceToNat, Nat.reduceMod, Nat.reducePow]
  omega

theorem hexDigit_and (c : UInt8) : isHexDigit (hexDigit (c &&& 0x0f)) = true := by
  apply isHexDigit_hexDigit
  rw [UInt8.toNat_and]
  exact Nat.and_lt_two_pow _ (by decide : (0x0f : UInt8).toNat < 2 ^ 4)

variable {s : Bytes}

theorem startsHex_append (h : startsHex s = true) (t : Bytes) :
    startsHex (s ++ t) = true := by
  match s, h with
  | d :: e :: s, h => exact h

theorem kept_append {c : UInt8} (h : kept allowed c s = true) (t : Bytes) :
    kept allowed c (s ++ t) = true := by
  unfold kept at h ⊢
  rw [Bool.or_eq_true, Bool.and_eq_true] at h ⊢
  exact h.imp id fun h => ⟨h.1, startsHex_append h.2 t⟩

variable {allowed}

theorem encode_of_encoded (h : Encoded allowed s) : encode allowed s = s := by
  induction s with
  | nil => rfl
  | cons c rest ih => rw [encode, if_pos h.1, ih h.2, List.singleton_append]

theorem Encoded.append {t : Bytes} (hs : Encoded allowed s) (ht : Encoded allowed t) :
    Encoded allowed (s ++ t) := by
  induction s with
  | nil => exact ht
  | cons c rest ih => exact ⟨kept_append allowed hs.1 t, ih hs.2⟩

theorem Encoded.back {t : Bytes} (h : Encoded allowed (s ++ t)) : Encoded allowed t := by
  induction s with
  | nil => exact h
  | cons c rest ih => exact ih h.2

theorem Encoded.front {t : Bytes} (h : Encoded allowed (s ++ t))
    (ht : ∀ c ∈ t.head?, isHexDigit c = false) : Encoded allowed s := by
  induction s with
  | nil => trivial
  | cons c rest ih =>
    refine ⟨?_, ih h.2⟩
    have hkept : kept allowed c (rest ++ t) = true := h.1
    unfold kept at hkept ⊢
    rw [Bool.or_eq_true, Bool.and_eq_true] at hkept ⊢
    refine hkept.imp id fun hhex => ⟨hhex.1, ?_⟩
    -- both digits are in front of the cut
    match rest, hhex.2 with
    | d :: e :: rest, hhex => exact hhex
    | [d], hhex =>
      cases t with
      | nil => exact hhex
      | cons e t =>
        have he : isHexDigit e = false := ht e rfl
        simp only [List.cons_append, List.nil_append, startsHex, he, Bool.and_false] at hhex
        exact absurd hhex Bool.false_ne_true
    | [], hhex =>
      cases t with
      | nil => exact hhex
      | cons d t =>
        have hd : isHexDigit d = false := ht d rfl
        cases t with
        | nil => exact hhex
        | cons e t =>
          simp only [List.nil_append, startsHex, hd, Bool.false_and] at hhex
          exact absurd hhex Bool.false_ne_true

section Hex

variable (hhex : ∀ c, isHexDigit c = true → allowed c = true)

include hhex

theorem startsHex_encode (h : startsHex s = true) :
    startsHex (encode allowed s) = true := by
  match s, h with
  | d :: e :: s, h =>
    obtain ⟨hd, he⟩ := Bool.and_eq_true_iff.mp h
    have hkept : ∀ {c : UInt8} {rest : Bytes}, isHexDigit c = true →
        kept allowed c rest = true := by
      intro c rest hc
      rw [kept, hhex c hc, Bool.true_or]
    rw [encode, encode, if_pos (hkept hd), if_pos (hkept he)]
    exact h

theorem encoded_encode (s : Bytes) : Encoded allowed (encode allowed s) := by
  induction s with
  | nil => trivial
  | cons c rest ih =>
    rw [encode]
    split
    · rename_i hkept
      refine ⟨?_, ih⟩
      unfold kept at hkept ⊢
      rw [Bool.or_eq_true, Bool.and_eq_true] at hkept ⊢
      exact hkept.imp id fun hpercent => ⟨hpercent.1, startsHex_encode hhex hpercent.2⟩
    · have hdigits := Bool.and_eq_true_iff.mpr ⟨hexDigit_shiftRight c, hexDigit_and c⟩
      refine ⟨?_, ?_, ?_, ih⟩
      · unfold kept
        rw [Bool.or_eq_true]
        exact .inr (Bool.and_eq_true_iff.mpr ⟨rfl, hdigits⟩)
      · rw [kept, hhex _ (hexDigit_shiftRight c), Bool.true_or]
      · rw [kept, hhex _ (hexDigit_and c), Bool.true_or]

end Hex

theorem length_encode (s : Bytes) :
    (encode allowed s).length = s.length + 2 * escapes allowed s := by
  induction s with
  | nil => rfl
  | cons c rest ih =>
    rw [encode, escapes, List.length_append, ih, List.length_cons]
    split
    · rw [List.length_singleton]
      omega
    · rw [triple]
      simp only [List.length_cons, List.length_nil]
      omega

theorem count_encode {c : UInt8} (hallowed : allowed c = true) (hpercent : c ≠ percent)
    (hplain : isHexDigit c = false) (s : Bytes) : (encode allowed s).count c = s.count c := by
  have hdigit : ∀ {d : UInt8}, isHexDigit d = true → d ≠ c := by
    rintro d hd rfl
    rw [hplain] at hd
    cases hd
  induction s with
  | nil => rfl
  | cons d rest ih =>
    rw [encode, List.count_append, ih]
    split
    · rw [← List.count_append, List.singleton_append]
    · rename_i hkept
      have hd : d ≠ c := by
        rintro rfl
        rw [kept, hallowed] at hkept
        exact hkept rfl
      rw [triple, List.count_cons_of_ne hpercent.symm, List.count_cons_of_ne
        (hdigit (hexDigit_shiftRight d)), List.count_cons_of_ne (hdigit (hexDigit_and d)),
        List.count_nil, Nat.zero_add, List.count_cons_of_ne hd]

theorem Encoded.mem (h : Encoded allowed s) {c : UInt8} (hc : c ∈ s) :
    allowed c = true ∨ c = percent := by
  induction s with
  | nil => cases hc
  | cons d rest ih =>
    obtain rfl | hc := List.mem_cons.mp hc
    · have hkept := h.1
      unfold kept at hkept
      rw [Bool.or_eq_true, Bool.and_eq_true, decide_eq_true_eq] at hkept
      exact hkept.imp id fun hpercent => hpercent.1
    · exact ih h.2 hc

end Yans.Library.PercentEncoding
