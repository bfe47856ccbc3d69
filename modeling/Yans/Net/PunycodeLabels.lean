import Yans.Net.PunycodeEncoder

/-! Encoded labels are decoded as RFC 3492 has it, and which overflows are not found. -/
namespace Yans.Net.Punycode

open Library Library.Memory Util.U8

/-- The value of a digit by RFC 3492, section 5; case does not matter. -/
def digitValue (c : UInt8) : Option ℕ :=
  if 97 ≤ c ∧ c ≤ 122 then some (c.toNat - 97)
  else if 65 ≤ c ∧ c ≤ 90 then some (c.toNat - 65)
  else if 48 ≤ c ∧ c ≤ 57 then some (c.toNat - 48 + 26)
  else none

def basicValue (c : UInt8) : Option ℕ := if c ≤ 0x7f then some c.toNat else none

/-- The decoding procedure on what is behind `xn--`. -/
def decodeLabel (text : Bytes) : Option (List ℕ) :=
  Bootstring.decode params hyphen basicValue digitValue text

theorem digitValue_encDigit : ∀ digit < 36, digitValue (encDigit (digit : ℕ)) = some digit := by
  decide

theorem encDigit_ne_hyphen : ∀ digit < 36, encDigit (digit : ℕ) ≠ hyphen := by
  decide

theorem mapM_digitValue {digits : List ℕ} (h : ∀ digit ∈ digits, digit < 36) :
    (digitText digits).mapM digitValue = some digits := by
  induction digits with
  | nil => rfl
  | cons digit digits ih =>
    obtain ⟨hdigit, hdigits⟩ := List.forall_mem_cons.mp h
    rw [digitText, List.map_cons, List.mapM_cons, ← digitText, digitValue_encDigit digit hdigit,
      ih hdigits]
    rfl

theorem basicValue_ofNat : ∀ c < 128, basicValue (UInt8.ofNat c) = some c := by
  decide

theorem mapM_basicValue {basics : List ℕ} (h : ∀ c ∈ basics, c < 128) :
    (basics.map UInt8.ofNat).mapM basicValue = some basics := by
  induction basics with
  | nil => rfl
  | cons c basics ih =>
    obtain ⟨hc, hbasics⟩ := List.forall_mem_cons.mp h
    rw [List.map_cons, List.mapM_cons, basicValue_ofNat c hc, ih hbasics]
    rfl

theorem decodeLabel_eq {basics digits : List ℕ} (hbasics : ∀ c ∈ basics, c < 128)
    (hdigits : ∀ digit ∈ digits, digit < 36) :
    decodeLabel (basicText basics ++ digitText digits) =
      Bootstring.decodeLoop params ⟨128, 0, 72, basics⟩ digits := by
  have hfree : hyphen ∉ digitText digits := by
    intro hmem
    obtain ⟨digit, hdigit, heq⟩ := List.mem_map.mp hmem
    exact encDigit_ne_hyphen digit (hdigits digit hdigit) heq
  unfold decodeLabel basicText
  by_cases hnone : basics = []
  · subst hnone
    rw [if_pos rfl, List.map_nil, List.nil_append, List.nil_append,
      Bootstring.decode_of_not_mem params _ _ hfree, mapM_digitValue hdigits]
    rfl
  · rw [if_neg hnone, List.append_assoc, List.singleton_append,
      Bootstring.decode_of_split params _ _ (List.map_eq_nil_iff.not.mpr hnone) hfree,
      mapM_basicValue hbasics, mapM_digitValue hdigits]
    rfl

theorem basics_lt (cps : List ℕ) : ∀ c ∈ Bootstring.basics params cps, c < 128 :=
  fun _ hc => of_decide_eq_true (List.mem_filter.mp hc).2

theorem decodeLabel_encode (cps : List ℕ) :
    decodeLabel (basicText (Bootstring.basics params cps) ++
      digitText (Bootstring.encode params id cps)) = some cps := by
  rw [decodeLabel_eq (basics_lt cps) (Bootstring.encode_lt params id cps)]
  exact Bootstring.decodeLoop_encode params cps

theorem distance_lt {s : Bytes} (hlength : s.length ≤ 255) :
    ∀ m ∈ numbers (codePoints s),
      Bootstring.distance params (numbers (codePoints s)) m +
        Bootstring.ahead (numbers (codePoints s)) m < 2 ^ 31 := by
  intro m hm
  obtain ⟨cp, hcp, rfl⟩ := List.mem_map.mp hm
  have hcount : (numbers (codePoints s)).length ≤ 255 := by
    rw [numbers, List.length_map]
    exact (length_codePoints_le s).trans hlength
  have hcode := codePoints_lt hcp
  have hdistance := Bootstring.distance_le params (numbers (codePoints s)) cp.toNat
  have hahead := Bootstring.ahead_le (numbers (codePoints s)) cp.toNat
  have hproduct : cp.toNat * ((numbers (codePoints s)).length + 1) ≤ 2 ^ 21 * 256 :=
    Nat.mul_le_mul hcode.le (by omega)
  omega

theorem label_decodes_back {s : Bytes} (hlength : s.length ≤ 255) :
    ∃ text, encodeLabel s = some (acePrefix ++ text) ∧
      decodeLabel text = some (numbers (codePoints s)) := by
  have hpoints : (codePoints s).length < 2 ^ 31 :=
    (length_codePoints_le s).trans_lt (hlength.trans_lt (by decide))
  have hsmall := distance_lt hlength
  have hsame : ∀ m ∈ numbers (codePoints s), wrapped
      (Bootstring.distance params (numbers (codePoints s)) m) =
        Bootstring.distance params (numbers (codePoints s)) m := by
    intro m hm
    have hlt := hsmall m hm
    exact Nat.mod_eq_of_lt (by omega)
  have hfits : ∀ v ∈ Bootstring.values params wrapped (numbers (codePoints s)), v < 2 ^ 31 := by
    have hcount : (numbers (codePoints s)).length < 2 ^ 31 := by
      rwa [numbers, List.length_map]
    rw [Bootstring.values_lt_iff params wrapped hcount]
    intro m hm _
    rw [hsame m hm]
    exact hsmall m hm
  refine ⟨_, ?_, decodeLabel_encode (numbers (codePoints s))⟩
  obtain ⟨-, hrun⟩ | ⟨hover, -⟩ := encodeLabel_eq hpoints
  · rw [hrun, Bootstring.encode_congr params fun m hm _ => hsame m hm, List.append_assoc]
  · exact absurd hfits hover

theorem label_decodes_back_accent : ∃ text,
    encodeLabel [98, 0xc3, 0xbc] = some (acePrefix ++ text) ∧
      decodeLabel text = some (numbers (codePoints [98, 0xc3, 0xbc])) :=
  label_decodes_back (by decide)

def unbounded (s : Bytes) : Bytes :=
  acePrefix ++ basicText (Bootstring.basics params (numbers (codePoints s))) ++
    digitText (Bootstring.encode params id (numbers (codePoints s)))

/-- If `encode_label` returns 0 then no value of `delta` has been too large for an
`int32_t`, and the result is that over unbounded integers. -/
def DetectsOverflow (s : Bytes) : Prop :=
  ∀ output, encodeLabel s = some output →
    (∀ v ∈ Bootstring.values params id (numbers (codePoints s)), v ≤ 2 ^ 31 - 1) ∧
      output = unbounded s

/-- The largest value of `delta` up to the insertion of the first `m`, where `delta` has the
value that `reduce` makes of the one in front of the label. -/
def peak (reduce : ℕ → ℕ) (cps : List ℕ) (m : ℕ) : ℕ :=
  reduce (Bootstring.distance params cps m) + Bootstring.ahead cps m

/-- No code point leads to a value that is too large, or one of them does modulo 2^32. -/
def Noticed (s : Bytes) : Prop :=
  (∀ m ∈ numbers (codePoints s), 128 ≤ m → peak id (numbers (codePoints s)) m < 2 ^ 31) ∨
    ∃ m ∈ numbers (codePoints s), 128 ≤ m ∧ 2 ^ 31 ≤ peak wrapped (numbers (codePoints s)) m

theorem detectsOverflow_iff {s : Bytes} (hlength : (codePoints s).length < 2 ^ 31) :
    DetectsOverflow s ↔ Noticed s := by
  have hcount : (numbers (codePoints s)).length < 2 ^ 31 := by
    rwa [numbers, List.length_map]
  have hideal : (∀ v ∈ Bootstring.values params id (numbers (codePoints s)), v ≤ 2 ^ 31 - 1) ↔
      ∀ m ∈ numbers (codePoints s), 128 ≤ m → peak id (numbers (codePoints s)) m < 2 ^ 31 := by
    refine Iff.trans ?_ (Bootstring.values_lt_iff params id hcount)
    exact forall₂_congr fun v _ => by omega
  have hwrapped := Bootstring.values_lt_iff params wrapped hcount
  unfold DetectsOverflow Noticed
  rw [hideal]
  obtain ⟨hfits, hencoded⟩ | ⟨hover, hencoded⟩ := encodeLabel_eq hlength
  · -- the label is encoded, so no code point leads to a value that is noticed
    have hquiet := hwrapped.mp hfits
    have hnever : ¬ ∃ m ∈ numbers (codePoints s), 128 ≤ m ∧
        2 ^ 31 ≤ peak wrapped (numbers (codePoints s)) m := by
      rintro ⟨m, hm, hbasic, hlarge⟩
      exact absurd (hquiet m hm hbasic) (Nat.not_lt.mpr hlarge)
    rw [hencoded, or_iff_left hnever]
    constructor
    · exact fun h => (h _ rfl).1
    · rintro h output hrun
      cases hrun
      refine ⟨h, ?_⟩
      rw [unbounded, Bootstring.encode_congr params fun m hm hbasic => ?_]
      have hlt := h m hm hbasic
      unfold peak at hlt
      exact Nat.mod_eq_of_lt (by dsimp only [id] at hlt; omega)
  · rw [hencoded]
    refine iff_of_true (fun _ h => absurd h.symm (Option.some_ne_none _)) (.inr ?_)
    by_contra hnone
    refine hover (hwrapped.mpr fun m hm hbasic => ?_)
    by_contra hlarge
    exact hnone ⟨m, hm, hbasic, Nat.not_lt.mp hlarge⟩

/-- Below 2^31 code points, where the counters do not leave their range, this is the exact
condition. -/
theorem overflow_detected (s : Bytes) :
    ((codePoints s).length < 2 ^ 31 ∧ Noticed s → DetectsOverflow s) ∧
      ((codePoints s).length < 2 ^ 31 → DetectsOverflow s → Noticed s) :=
  ⟨fun h => (detectsOverflow_iff h.1).mpr h.2, fun h => (detectsOverflow_iff h).mp⟩

theorem overflow_detected_accent : DetectsOverflow [0x61, 0xc3, 0xa9] :=
  (overflow_detected _).1 ⟨by decide, .inl (by decide)⟩

/-! A large code point behind many letters -/

theorem codePoints_letters (n : ℕ) (s : Bytes) :
    codePoints (List.replicate n 97 ++ s) = List.replicate n 97 ++ codePoints s := by
  induction n with
  | zero => rfl
  | succ n ih =>
    rw [List.replicate_succ, List.cons_append, codePoints_cons]
    have hread : u8ToCp (97 :: (List.replicate n 97 ++ s)) = (97, 1) := rfl
    rw [hread, List.replicate_succ, List.cons_append]
    exact congrArg _ ih

section Letters

variable {n m : ℕ}

theorem distance_letters (hm : 128 ≤ m) :
    Bootstring.distance params (List.replicate n 97 ++ [m]) m = (m - 128) * (n + 1) := by
  have hnone : Bootstring.previous params (List.replicate n 97 ++ [m]) m = none := by
    unfold Bootstring.previous
    rw [List.max?_eq_none_iff, List.filter_eq_nil_iff]
    intro c hc hrange
    obtain ⟨hbasic, hless⟩ := of_decide_eq_true hrange
    change 128 ≤ c at hbasic
    obtain hc | hc := List.mem_append.mp hc
    · rw [List.eq_of_mem_replicate hc] at hbasic
      omega
    · rw [List.mem_singleton.mp hc] at hless
      omega
  have hbelow : ((List.replicate n 97 ++ [m]).filter (· < m)).length = n := by
    rw [List.filter_append, List.filter_eq_self.mpr, List.filter_cons_of_neg (by simp),
      List.filter_nil, List.append_nil, List.length_replicate]
    intro c hc
    rw [List.eq_of_mem_replicate hc]
    exact decide_eq_true (by omega)
  rw [Bootstring.distance, hnone, hbelow]
  rfl

theorem ahead_letters (hm : 128 ≤ m) :
    Bootstring.ahead (List.replicate n 97 ++ [m]) m = n := by
  have hother : ∀ c ∈ List.replicate n 97, decide (c ≠ m) = true := by
    intro c hc
    rw [List.eq_of_mem_replicate hc]
    exact decide_eq_true (by omega)
  have hless : ∀ c ∈ List.replicate n 97, decide (c < m) = true := by
    intro c hc
    rw [List.eq_of_mem_replicate hc]
    exact decide_eq_true (by omega)
  rw [Bootstring.ahead, List.takeWhile_append_of_pos hother, List.takeWhile_cons_of_neg (by simp),
    List.append_nil, List.countP_eq_length.mpr hless, List.length_replicate]

end Letters

theorem numbers_letters (n : ℕ) :
    numbers (codePoints (List.replicate n 97 ++ [0xf4, 0x8f, 0xbf, 0xbf])) =
      List.replicate n 97 ++ [0x10ffff] := by
  have hlast : codePoints [0xf4, 0x8f, 0xbf, 0xbf] = [0x10ffff] := by decide
  rw [codePoints_letters, hlast, numbers, List.map_append, List.map_replicate]
  rfl

/-- Behind 3855 letters the product for U+10FFFF is just above 2^32. -/
theorem overflow_hidden :
    ¬ DetectsOverflow (List.replicate 3855 97 ++ [0xf4, 0x8f, 0xbf, 0xbf]) := by
  have hnumbers := numbers_letters 3855
  have hlength : (codePoints (List.replicate 3855 97 ++ [0xf4, 0x8f, 0xbf, 0xbf])).length <
      2 ^ 31 := by
    have hcount := congrArg List.length hnumbers
    rw [numbers, List.length_map, List.length_append, List.length_replicate] at hcount
    rw [hcount]
    decide
  rw [detectsOverflow_iff hlength, Noticed, hnumbers]
  have hdistance := @distance_letters 3855 0x10ffff (by decide)
  have hahead := @ahead_letters 3855 0x10ffff (by decide)
  rintro (hquiet | ⟨m, hm, hbasic, hlarge⟩)
  · have hlt := hquiet 0x10ffff (List.mem_append_right _ List.mem_cons_self) (by decide)
    rw [peak, hdistance, hahead] at hlt
    revert hlt
    decide
  · obtain hm | hm := List.mem_append.mp hm
    · rw [List.eq_of_mem_replicate hm] at hbasic
      revert hbasic
      decide
    · rw [List.mem_singleton.mp hm, peak, hdistance, hahead] at hlarge
      revert hlarge
      decide

end Yans.Net.Punycode
