import Yans.Library.Memory

/-! `lib/util/u8.c`: the code points of a text in UTF-8. -/
namespace Yans.Util.U8

open Library.Memory

def unicodeReplacementChar : UInt32 := 0xfffd

/-- The code point in front of the bytes `s`, and its width. -/
def u8ToCp (s : Bytes) : UInt32 × ℕ :=
  let byte : ℕ → UInt32 := fun i => (s.getD i 0).toUInt32
  if s.length ≥ 1 ∧ byte 0 ≤ 0x7f then (byte 0, 1)
  else if s.length ≥ 2 ∧ byte 0 &&& 0xe0 = 0xc0 ∧ byte 1 &&& 0xc0 = 0x80 then
    ((byte 0 &&& 0x1f) <<< 6 ||| (byte 1 &&& 0x3f), 2)
  else if s.length ≥ 3 ∧ byte 0 &&& 0xf0 = 0xe0 ∧ byte 1 &&& 0xc0 = 0x80 ∧
      byte 2 &&& 0xc0 = 0x80 then
    ((byte 0 &&& 0x0f) <<< 12 ||| (byte 1 &&& 0x3f) <<< 6 ||| (byte 2 &&& 0x3f), 3)
  else if s.length ≥ 4 ∧ byte 0 &&& 0xf8 = 0xf0 ∧ byte 1 &&& 0xc0 = 0x80 ∧
      byte 2 &&& 0xc0 = 0x80 ∧ byte 3 &&& 0xc0 = 0x80 then
    ((byte 0 &&& 0x07) <<< 18 ||| (byte 1 &&& 0x3f) <<< 12 ||| (byte 2 &&& 0x3f) <<< 6 |||
      (byte 3 &&& 0x3f), 4)
  else (unicodeReplacementChar, 1)

/-- The code points at the positions of `for(pos = 0; pos < len; pos += width)`; `rounds`
bounds the loop. -/
def codePointLoop : ℕ → Bytes → List UInt32
  | 0, _ => []
  | rounds + 1, s =>
    match s with
    | [] => []
    | _ :: _ => (u8ToCp s).1 :: codePointLoop rounds (s.drop (u8ToCp s).2)

def codePoints (s : Bytes) : List UInt32 := codePointLoop s.length s

/-- The values of `width` in that loop. -/
def widthLoop : ℕ → Bytes → List ℕ
  | 0, _ => []
  | rounds + 1, s =>
    match s with
    | [] => []
    | _ :: _ => (u8ToCp s).2 :: widthLoop rounds (s.drop (u8ToCp s).2)

def widths (s : Bytes) : List ℕ := widthLoop s.length s

/-- The bytes that are written for `cp` where there is room for `len` of them. The outer
`none` is `goto again`, the inner one the result -1. -/
def u8FromCpRound (len : ℕ) (cp : Int32) : Option (Option Bytes) :=
  let bits := cp.toUInt32
  if cp ≥ 0 ∧ cp < 0x80 ∧ len ≥ 1 then some (some [bits.toUInt8])
  else if cp < 0x800 ∧ len ≥ 2 then
    some (some [(bits >>> 6 ||| 0xc0).toUInt8, (bits &&& 0x3f ||| 0x80).toUInt8])
  else if cp < 0x10000 ∧ len ≥ 3 then
    some (some [(bits >>> 12 ||| 0xe0).toUInt8, (bits >>> 6 &&& 0x3f ||| 0x80).toUInt8,
      (bits &&& 0x3f ||| 0x80).toUInt8])
  else if cp < 0x200000 ∧ len ≥ 4 then
    some (some [(bits >>> 18 ||| 0xf0).toUInt8, (bits >>> 12 &&& 0x3f ||| 0x80).toUInt8,
      (bits >>> 6 &&& 0x3f ||| 0x80).toUInt8, (bits &&& 0x3f ||| 0x80).toUInt8])
  else if len ≥ 2 then none
  else some none

/-- With room for two bytes only the replacement character is tried for ever, which is the
outer `none`. -/
def u8FromCp (len : ℕ) (cp : Int32) : Option (Option Bytes) :=
  match u8FromCpRound len cp with
  | some result => some result
  | none => u8FromCpRound len unicodeReplacementChar.toInt32

theorem u8ToCp_width_pos (s : Bytes) : 0 < (u8ToCp s).2 := by
  unfold u8ToCp
  dsimp only
  split
  · exact Nat.one_pos
  split
  · exact Nat.two_pos
  split
  · exact Nat.succ_pos 2
  split
  · exact Nat.succ_pos 3
  · exact Nat.one_pos

theorem codePointLoop_of_le (rounds : ℕ) : ∀ {s : Bytes}, s.length ≤ rounds →
    codePointLoop rounds s = codePointLoop s.length s := by
  induction rounds using Nat.strongRecOn with
  | _ rounds ih =>
    intro s hs
    cases rounds with
    | zero => rw [Nat.le_zero.mp hs]
    | succ rounds =>
      cases s with
      | nil => rfl
      | cons ch s =>
        have hpos := u8ToCp_width_pos (ch :: s)
        have hshort : ((ch :: s).drop (u8ToCp (ch :: s)).2).length ≤ s.length := by
          rw [List.length_drop, List.length_cons]
          omega
        rw [List.length_cons] at hs
        have hrounds := ih rounds (Nat.lt_succ_self rounds) (hshort.trans (Nat.le_of_succ_le_succ hs))
        rw [List.length_cons, codePointLoop, codePointLoop, hrounds]
        by_cases hless : s.length < rounds + 1
        · rw [ih s.length hless hshort]
        · omega

theorem codePoints_cons (ch : UInt8) (s : Bytes) :
    codePoints (ch :: s) =
      (u8ToCp (ch :: s)).1 :: codePoints ((ch :: s).drop (u8ToCp (ch :: s)).2) := by
  have hpos := u8ToCp_width_pos (ch :: s)
  unfold codePoints
  rw [List.length_cons, codePointLoop, codePointLoop_of_le s.length]
  rw [List.length_drop, List.length_cons]
  omega

theorem toNat_shiftLeft_and_lt (a mask : UInt32) {width : ℕ} (shift : UInt32)
    (hmask : mask.toNat < 2 ^ width) (hfits : width + shift.toNat % 32 ≤ 21) :
    ((a &&& mask) <<< shift).toNat < 2 ^ 21 := by
  rw [UInt32.toNat_shiftLeft, UInt32.toNat_and, Nat.shiftLeft_eq]
  refine (Nat.mod_le _ _).trans_lt ?_
  calc (a.toNat &&& mask.toNat) * 2 ^ (shift.toNat % 32)
      < 2 ^ width * 2 ^ (shift.toNat % 32) := by
        exact (Nat.mul_lt_mul_right (Nat.two_pow_pos _)).mpr (Nat.and_lt_two_pow _ hmask)
    _ = 2 ^ (width + shift.toNat % 32) := (Nat.pow_add 2 _ _).symm
    _ ≤ 2 ^ 21 := Nat.pow_le_pow_right Nat.two_pos hfits

theorem toNat_and_lt (a : UInt32) : (a &&& 0x3f).toNat < 2 ^ 21 := by
  rw [UInt32.toNat_and]
  exact Nat.and_lt_two_pow _ (by decide)

theorem toNat_or_lt {a b : UInt32} (ha : a.toNat < 2 ^ 21) (hb : b.toNat < 2 ^ 21) :
    (a ||| b).toNat < 2 ^ 21 := by
  rw [UInt32.toNat_or]
  exact Nat.or_lt_two_pow ha hb

theorem u8ToCp_lt (s : Bytes) : (u8ToCp s).1.toNat < 2 ^ 21 := by
  unfold u8ToCp
  dsimp only
  split
  · rw [UInt8.toNat_toUInt32]
    exact (UInt8.toNat_lt _).trans (by decide)
  split
  · exact toNat_or_lt (@toNat_shiftLeft_and_lt _ 0x1f 5 6 (by decide) (by decide)) (toNat_and_lt _)
  split
  · refine toNat_or_lt (toNat_or_lt ?_ ?_) (toNat_and_lt _)
    · exact @toNat_shiftLeft_and_lt _ 0x0f 4 12 (by decide) (by decide)
    · exact @toNat_shiftLeft_and_lt _ 0x3f 6 6 (by decide) (by decide)
  split
  · refine toNat_or_lt (toNat_or_lt (toNat_or_lt ?_ ?_) ?_) (toNat_and_lt _)
    · exact @toNat_shiftLeft_and_lt _ 0x07 3 18 (by decide) (by decide)
    · exact @toNat_shiftLeft_and_lt _ 0x3f 6 12 (by decide) (by decide)
    · exact @toNat_shiftLeft_and_lt _ 0x3f 6 6 (by decide) (by decide)
  · decide

theorem codePointLoop_lt (rounds : ℕ) : ∀ {s : Bytes}, ∀ cp ∈ codePointLoop rounds s,
    cp.toNat < 2 ^ 21 := by
  induction rounds with
  | zero => exact nofun
  | succ rounds ih =>
    intro s
    cases s with
    | nil => exact nofun
    | cons ch s => exact List.forall_mem_cons.mpr ⟨u8ToCp_lt _, ih⟩

theorem length_codePointLoop_le (rounds : ℕ) (s : Bytes) :
    (codePointLoop rounds s).length ≤ rounds := by
  induction rounds generalizing s with
  | zero => exact le_rfl
  | succ rounds ih =>
    cases s with
    | nil => exact Nat.zero_le _
    | cons ch s => exact Nat.succ_le_succ (ih _)

theorem length_codePoints_le (s : Bytes) : (codePoints s).length ≤ s.length :=
  length_codePointLoop_le _ _

theorem codePoints_lt {s : Bytes} {cp : UInt32} (h : cp ∈ codePoints s) : cp.toNat < 2 ^ 21 :=
  codePointLoop_lt _ _ h

end Yans.Util.U8

/-! When `u8_from_cp` returns. A value that does not fit is replaced, and the replacement
character is three bytes long although it is counted as two. -/
namespace Yans.Util.U8

open Library.Memory

/-- What a call returns, writes and stores in `width`. -/
structure FromCp where
  ret : ℤ
  written : Bytes
  width : ℕ
deriving DecidableEq

/-- The result of a round that does not go back; every byte written is counted. -/
def FromCp.ofRound : Option Bytes → FromCp
  | some bytes => ⟨0, bytes, bytes.length⟩
  | none => ⟨-1, [], 0⟩

/-- At most `rounds` rounds; `none` is a call that is still going on. -/
def u8FromCpSteps (len : ℕ) : ℕ → Int32 → Option FromCp
  | 0, _ => none
  | rounds + 1, cp =>
    match u8FromCpRound len cp with
    | some result => some (.ofRound result)
    | none => u8FromCpSteps len rounds unicodeReplacementChar.toInt32

/-- The call ends, with 0 and no more than `len` bytes or with -1 and no width. -/
def Returns (len : ℕ) (cp : Int32) : Prop :=
  ∃ rounds result, u8FromCpSteps len rounds cp = some result ∧
    (result.ret = 0 ∧ result.written.length ≤ len ∨ result.ret = -1 ∧ result.width = 0)

variable {len : ℕ} {cp : Int32}

theorem u8FromCpRound_fits {bytes : Bytes} (hround : u8FromCpRound len cp = some (some bytes)) :
    bytes.length ≤ len := by
  unfold u8FromCpRound at hround
  split at hround
  · rename_i hroom
    cases hround
    exact hroom.2.2
  split at hround
  · rename_i hroom
    cases hround
    exact hroom.2
  split at hround
  · rename_i hroom
    cases hround
    exact hroom.2
  split at hround
  · rename_i hroom
    cases hround
    exact hroom.2
  split at hround
  · cases hround
  · cases hround

theorem u8FromCpRound_eq_none_iff : u8FromCpRound len cp = none ↔
    2 ≤ len ∧ (0x200000 ≤ cp ∨ 0x10000 ≤ cp ∧ len < 4 ∨ 0x800 ≤ cp ∧ len < 3) := by
  have hsmall : cp < 0x800 ↔ cp.toInt < 0x800 := Int32.lt_iff_toInt_lt
  have hmiddle : cp < 0x10000 ↔ cp.toInt < 0x10000 := Int32.lt_iff_toInt_lt
  have hlarge : cp < 0x200000 ↔ cp.toInt < 0x200000 := Int32.lt_iff_toInt_lt
  have hbasic : cp < 0x80 ↔ cp.toInt < 0x80 := Int32.lt_iff_toInt_lt
  rw [← Int32.not_lt, ← Int32.not_lt (a := cp) (b := 0x10000), ← Int32.not_lt (a := cp) (b := 0x800),
    hsmall, hmiddle, hlarge]
  unfold u8FromCpRound
  simp only [hsmall, hmiddle, hlarge, hbasic]
  split
  · refine iff_of_false nofun (by omega)
  split
  · refine iff_of_false nofun (by omega)
  split
  · refine iff_of_false nofun (by omega)
  split
  · refine iff_of_false nofun (by omega)
  split
  · refine iff_of_true rfl (by omega)
  · refine iff_of_false nofun (by omega)

theorem returns_of_round (rounds : ℕ) {result : Option Bytes} {start : Int32}
    (hround : u8FromCpRound len cp = some result)
    (hsteps : u8FromCpSteps len rounds start = some (.ofRound result)) : Returns len start := by
  refine ⟨rounds, _, hsteps, ?_⟩
  cases result with
  | none => exact .inr ⟨rfl, rfl⟩
  | some bytes => exact .inl ⟨rfl, u8FromCpRound_fits hround⟩

theorem u8FromCpSteps_two (rounds : ℕ) :
    u8FromCpSteps 2 rounds unicodeReplacementChar.toInt32 = none := by
  induction rounds with
  | zero => rfl
  | succ rounds ih =>
    have hround : u8FromCpRound 2 unicodeReplacementChar.toInt32 = none :=
      u8FromCpRound_eq_none_iff.mpr (by decide)
    rw [u8FromCpSteps, hround]
    exact ih

theorem not_returns_two (hcp : 0x800 ≤ cp) : ¬ Returns 2 cp := by
  rintro ⟨rounds, result, hsteps, -⟩
  cases rounds with
  | zero => cases hsteps
  | succ rounds =>
    have hround : u8FromCpRound 2 cp = none :=
      u8FromCpRound_eq_none_iff.mpr ⟨Nat.le_refl 2, .inr (.inr ⟨hcp, by decide⟩)⟩
    rw [u8FromCpSteps, hround] at hsteps
    rw [u8FromCpSteps_two] at hsteps
    cases hsteps

theorem replacement_ends (h : len ≠ 2) :
    u8FromCpRound len unicodeReplacementChar.toInt32 ≠ none := by
  rw [ne_eq, u8FromCpRound_eq_none_iff]
  rintro ⟨htwo, hback⟩
  have hlarge : ¬ (0x200000 : Int32) ≤ unicodeReplacementChar.toInt32 := by decide
  have hmiddle : ¬ (0x10000 : Int32) ≤ unicodeReplacementChar.toInt32 := by decide
  rcases hback with hback | hback | hback
  · exact hlarge hback
  · exact hmiddle hback.1
  · omega

/-- Exactly the values beyond two bytes in a room of two are tried for ever. -/
theorem u8_from_cp_returns_iff (len : ℕ) (cp : Int32) :
    Returns len cp ↔ ¬ (len = 2 ∧ 0x800 ≤ cp) := by
  cases hround : u8FromCpRound len cp with
  | some result =>
    refine iff_of_true (returns_of_round 1 hround ?_) ?_
    · rw [u8FromCpSteps, hround]
    · rintro ⟨rfl, hcp⟩
      have hnone := u8FromCpRound_eq_none_iff.mpr ⟨Nat.le_refl 2, .inr (.inr ⟨hcp, by decide⟩)⟩
      rw [hnone] at hround
      cases hround
  | none =>
    obtain ⟨hroom, hback⟩ := u8FromCpRound_eq_none_iff.mp hround
    by_cases htwo : len = 2
    · have hcp : 0x800 ≤ cp := by
        have hmiddle : (0x10000 : Int32) ≤ cp ↔ 0x10000 ≤ cp.toInt := Int32.le_iff_toInt_le
        have hlarge : (0x200000 : Int32) ≤ cp ↔ 0x200000 ≤ cp.toInt := Int32.le_iff_toInt_le
        have hsmall : (0x800 : Int32) ≤ cp ↔ 0x800 ≤ cp.toInt := Int32.le_iff_toInt_le
        rw [hmiddle, hlarge, hsmall] at hback
        rw [hsmall]
        omega
      rw [htwo]
      exact iff_of_false (not_returns_two hcp) fun h => h ⟨rfl, hcp⟩
    · obtain ⟨result, hresult⟩ := Option.ne_none_iff_exists'.mp (replacement_ends htwo)
      refine iff_of_true (returns_of_round 2 hresult ?_) fun h => htwo h.1
      rw [u8FromCpSteps, hround]
      rw [u8FromCpSteps, hresult]

/-- Room for two bytes, and U+0800 -/
theorem two_bytes_of_room : ¬ ∀ (len : ℕ) (cp : Int32), Returns len cp := by
  intro h
  exact not_returns_two (by decide) (h 2 0x800)

end Yans.Util.U8
