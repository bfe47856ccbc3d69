import Mathlib.Data.Nat.Bitwise
import Yans.Util.U8

/-! Texts that are written code point by code point are read back. -/
namespace Yans.Util.U8

open Library.Memory

theorem continuation_spec : ∀ r < 64,
    (UInt8.ofNat (0x80 + r)).toUInt32 &&& 0xc0 = 0x80 ∧
      (UInt8.ofNat (0x80 + r)).toUInt32 &&& 0x3f = UInt32.ofNat r := by
  decide

theorem lead_two : ∀ q < 32, ¬ (UInt8.ofNat (0xc0 + q)).toUInt32 ≤ 0x7f ∧
    (UInt8.ofNat (0xc0 + q)).toUInt32 &&& 0xe0 = 0xc0 ∧
      (UInt8.ofNat (0xc0 + q)).toUInt32 &&& 0x1f = UInt32.ofNat q := by
  decide

theorem lead_three : ∀ q < 16, ¬ (UInt8.ofNat (0xe0 + q)).toUInt32 ≤ 0x7f ∧
    (UInt8.ofNat (0xe0 + q)).toUInt32 &&& 0xe0 ≠ 0xc0 ∧
    (UInt8.ofNat (0xe0 + q)).toUInt32 &&& 0xf0 = 0xe0 ∧
      (UInt8.ofNat (0xe0 + q)).toUInt32 &&& 0x0f = UInt32.ofNat q := by
  decide

theorem lead_four : ∀ q < 8, ¬ (UInt8.ofNat (0xf0 + q)).toUInt32 ≤ 0x7f ∧
    (UInt8.ofNat (0xf0 + q)).toUInt32 &&& 0xe0 ≠ 0xc0 ∧
    (UInt8.ofNat (0xf0 + q)).toUInt32 &&& 0xf0 ≠ 0xe0 ∧
    (UInt8.ofNat (0xf0 + q)).toUInt32 &&& 0xf8 = 0xf0 ∧
      (UInt8.ofNat (0xf0 + q)).toUInt32 &&& 0x07 = UInt32.ofNat q := by
  decide

theorem or_continuation : ∀ r < 64, (UInt32.ofNat r ||| 0x80).toUInt8 = UInt8.ofNat (0x80 + r) := by
  decide

theorem or_two : ∀ q < 32, (UInt32.ofNat q ||| 0xc0).toUInt8 = UInt8.ofNat (0xc0 + q) := by
  decide

theorem or_three : ∀ q < 16, (UInt32.ofNat q ||| 0xe0).toUInt8 = UInt8.ofNat (0xe0 + q) := by
  decide

theorem or_four : ∀ q < 8, (UInt32.ofNat q ||| 0xf0).toUInt8 = UInt8.ofNat (0xf0 + q) := by
  decide

theorem toNat_of_lt {n : ℕ} (h : n < 2 ^ 32) : (UInt32.ofNat n).toNat = n :=
  UInt32.toNat_ofNat_of_lt' h

theorem and_sextet (x : UInt32) : x &&& 0x3f = UInt32.ofNat (x.toNat % 64) := by
  apply UInt32.toNat_inj.mp
  rw [UInt32.toNat_and, toNat_of_lt (by omega)]
  exact Nat.and_two_pow_sub_one_eq_mod x.toNat 6

theorem shiftRight_eq (x : UInt32) {n : ℕ} (hn : n < 32) :
    x >>> UInt32.ofNat n = UInt32.ofNat (x.toNat / 2 ^ n) := by
  have hx := x.toNat_lt
  have hle : x.toNat / 2 ^ n ≤ x.toNat := Nat.div_le_self _ _
  apply UInt32.toNat_inj.mp
  rw [UInt32.toNat_shiftRight, toNat_of_lt (show n < 2 ^ 32 by omega),
    toNat_of_lt (hle.trans_lt hx), Nat.mod_eq_of_lt hn, Nat.shiftRight_eq_div_pow]

theorem shiftLeft_eq {a n : ℕ} (hn : n < 32) (ha : a < 2 ^ 32) (h : a * 2 ^ n < 2 ^ 32) :
    UInt32.ofNat a <<< UInt32.ofNat n = UInt32.ofNat (a * 2 ^ n) := by
  apply UInt32.toNat_inj.mp
  rw [UInt32.toNat_shiftLeft, toNat_of_lt (show n < 2 ^ 32 by omega), toNat_of_lt ha,
    toNat_of_lt h, Nat.mod_eq_of_lt hn, Nat.shiftLeft_eq, Nat.mod_eq_of_lt h]

theorem or_eq_add {a b n : ℕ} (hb : b < 2 ^ n) (h : a * 2 ^ n + b < 2 ^ 32) :
    UInt32.ofNat (a * 2 ^ n) ||| UInt32.ofNat b = UInt32.ofNat (a * 2 ^ n + b) := by
  apply UInt32.toNat_inj.mp
  rw [UInt32.toNat_or, toNat_of_lt (by omega), toNat_of_lt (show b < 2 ^ 32 by omega),
    toNat_of_lt h, ← Nat.shiftLeft_eq]
  exact (Nat.shiftLeft_add_eq_or_of_lt hb a).symm

theorem two_value {x y : ℕ} (hx : x < 0x40) (hy : y < 64) :
    UInt32.ofNat x <<< 6 ||| UInt32.ofNat y = UInt32.ofNat (x * 2 ^ 6 + y) := by
  have hshift : UInt32.ofNat x <<< 6 = UInt32.ofNat (x * 2 ^ 6) :=
    @shiftLeft_eq x 6 (by omega) (by omega) (by omega)
  rw [hshift, or_eq_add hy (by omega)]

theorem shift_sum (x y : ℕ) : x * 2 ^ 12 + y * 2 ^ 6 = (x * 2 ^ 6 + y) * 2 ^ 6 := by
  omega

theorem three_value {x y z : ℕ} (hx : x < 0x10) (hy : y < 64) (hz : z < 64) :
    UInt32.ofNat x <<< 12 ||| UInt32.ofNat y <<< 6 ||| UInt32.ofNat z =
      UInt32.ofNat ((x * 2 ^ 6 + y) * 2 ^ 6 + z) := by
  have hshift : UInt32.ofNat x <<< 12 = UInt32.ofNat (x * 2 ^ 12) :=
    @shiftLeft_eq x 12 (by omega) (by omega) (by omega)
  have hnext : UInt32.ofNat y <<< 6 = UInt32.ofNat (y * 2 ^ 6) :=
    @shiftLeft_eq y 6 (by omega) (by omega) (by omega)
  rw [hshift, hnext, or_eq_add (by omega) (by omega), shift_sum, or_eq_add hz (by omega)]

theorem four_value {x y z w : ℕ} (hx : x < 8) (hy : y < 64) (hz : z < 64) (hw : w < 64) :
    UInt32.ofNat x <<< 18 ||| UInt32.ofNat y <<< 12 ||| UInt32.ofNat z <<< 6 ||| UInt32.ofNat w =
      UInt32.ofNat (((x * 2 ^ 6 + y) * 2 ^ 6 + z) * 2 ^ 6 + w) := by
  have hshift : UInt32.ofNat x <<< 18 = UInt32.ofNat (x * 2 ^ 18) :=
    @shiftLeft_eq x 18 (by omega) (by omega) (by omega)
  have hnext : UInt32.ofNat y <<< 12 = UInt32.ofNat (y * 2 ^ 12) :=
    @shiftLeft_eq y 12 (by omega) (by omega) (by omega)
  have hthird : UInt32.ofNat z <<< 6 = UInt32.ofNat (z * 2 ^ 6) :=
    @shiftLeft_eq z 6 (by omega) (by omega) (by omega)
  have hsum : x * 2 ^ 18 + y * 2 ^ 12 = (x * 2 ^ 6 + y) * 2 ^ 12 := by omega
  rw [hshift, hnext, hthird, or_eq_add (by omega) (by omega), hsum, or_eq_add (by omega) (by omega),
    shift_sum, or_eq_add hw (by omega)]

theorem continuation_eq (x : UInt32) :
    (x &&& 0x3f ||| 0x80).toUInt8 = UInt8.ofNat (0x80 + x.toNat % 64) := by
  rw [and_sextet]
  exact or_continuation _ (Nat.mod_lt _ (by omega))

theorem continuation_shift_eq (x : UInt32) {n : ℕ} (hn : n < 32) :
    (x >>> UInt32.ofNat n &&& 0x3f ||| 0x80).toUInt8 =
      UInt8.ofNat (0x80 + x.toNat / 2 ^ n % 64) := by
  have hle : x.toNat / 2 ^ n ≤ x.toNat := Nat.div_le_self _ _
  rw [continuation_eq, shiftRight_eq x hn, toNat_of_lt (hle.trans_lt x.toNat_lt)]

def bytesOf (x : ℕ) : Bytes :=
  if x < 0x80 then [UInt8.ofNat x]
  else if x < 0x800 then [UInt8.ofNat (0xc0 + x / 64), UInt8.ofNat (0x80 + x % 64)]
  else if x < 0x10000 then
    [UInt8.ofNat (0xe0 + x / 4096), UInt8.ofNat (0x80 + x / 64 % 64), UInt8.ofNat (0x80 + x % 64)]
  else
    [UInt8.ofNat (0xf0 + x / 262144), UInt8.ofNat (0x80 + x / 4096 % 64),
      UInt8.ofNat (0x80 + x / 64 % 64), UInt8.ofNat (0x80 + x % 64)]

theorem int32_lt_iff {cp : Int32} (hcp : 0 ≤ cp) {n : ℕ} (hn : n < 2 ^ 31) :
    cp < Int32.ofNat n ↔ cp.toUInt32.toNat < n := by
  rw [Int32.le_iff_toInt_le, Int32.toInt_zero] at hcp
  rw [Int32.lt_iff_toInt_lt, Int32.toInt_ofNat_of_lt hn,
    Int32.toNat_toUInt32_of_le (Int32.le_iff_toInt_le.mpr hcp), Int32.toNatClampNeg]
  omega

theorem toNat_lt_of_le {cp : Int32} (hcp : 0 ≤ cp) (hmax : cp ≤ 0x1fffff) :
    cp.toUInt32.toNat < 0x200000 := by
  refine (@int32_lt_iff cp hcp 0x200000 (by omega)).mp ?_
  rw [Int32.le_iff_toInt_le] at hmax
  rw [Int32.lt_iff_toInt_lt]
  change cp.toInt ≤ 0x1fffff at hmax
  change cp.toInt < 0x200000
  omega

theorem u8FromCp_eq {len : ℕ} (hlen : 4 ≤ len) {cp : Int32} (hcp : 0 ≤ cp)
    (hmax : cp ≤ 0x1fffff) : u8FromCp len cp = some (some (bytesOf cp.toUInt32.toNat)) := by
  have hlt := toNat_lt_of_le hcp hmax
  have hround : u8FromCpRound len cp = some (some (bytesOf cp.toUInt32.toNat)) := by
    unfold u8FromCpRound bytesOf
    have h80 : cp < 0x80 ↔ _ := @int32_lt_iff cp hcp 0x80 (by omega)
    have h800 : cp < 0x800 ↔ _ := @int32_lt_iff cp hcp 0x800 (by omega)
    have h10000 : cp < 0x10000 ↔ _ := @int32_lt_iff cp hcp 0x10000 (by omega)
    have h200000 : cp < 0x200000 ↔ _ := @int32_lt_iff cp hcp 0x200000 (by omega)
    simp only [h80, h800, h10000, h200000, hlt, hcp, ge_iff_le, true_and,
      show 1 ≤ len by omega, show 2 ≤ len by omega, show 3 ≤ len by omega, hlen, and_true, if_true]
    generalize cp.toUInt32 = x at hlt ⊢
    have hsix : x >>> 6 = UInt32.ofNat (x.toNat / 64) := @shiftRight_eq x 6 (by omega)
    have htwelve : x >>> 12 = UInt32.ofNat (x.toNat / 4096) := @shiftRight_eq x 12 (by omega)
    have heighteen : x >>> 18 = UInt32.ofNat (x.toNat / 262144) := @shiftRight_eq x 18 (by omega)
    have hsecond : (x >>> 6 &&& 0x3f ||| 0x80).toUInt8 = UInt8.ofNat (0x80 + x.toNat / 64 % 64) :=
      @continuation_shift_eq x 6 (by omega)
    have hthird : (x >>> 12 &&& 0x3f ||| 0x80).toUInt8 =
        UInt8.ofNat (0x80 + x.toNat / 4096 % 64) :=
      @continuation_shift_eq x 12 (by omega)
    rw [hsecond, hthird, continuation_eq]
    split
    · rfl
    split
    · rw [hsix, or_two _ (by omega)]
    split
    · rw [htwelve, or_three _ (by omega)]
    · rw [heighteen, or_four _ (by omega)]
  unfold u8FromCp
  rw [hround]

section Read

variable {a b c d : UInt8} (rest : Bytes)

theorem u8ToCp_one (ha : a.toUInt32 ≤ 0x7f) : u8ToCp (a :: rest) = (a.toUInt32, 1) :=
  if_pos ⟨Nat.succ_pos _, ha⟩

theorem u8ToCp_two (hbig : ¬ a.toUInt32 ≤ 0x7f) (ha : a.toUInt32 &&& 0xe0 = 0xc0)
    (hb : b.toUInt32 &&& 0xc0 = 0x80) :
    u8ToCp (a :: b :: rest) =
      ((a.toUInt32 &&& 0x1f) <<< 6 ||| (b.toUInt32 &&& 0x3f), 2) := by
  unfold u8ToCp
  rw [if_neg fun h => hbig h.2, if_pos ⟨Nat.le_add_left 2 _, ha, hb⟩]
  rfl

theorem u8ToCp_three (hbig : ¬ a.toUInt32 ≤ 0x7f) (htwo : a.toUInt32 &&& 0xe0 ≠ 0xc0)
    (ha : a.toUInt32 &&& 0xf0 = 0xe0) (hb : b.toUInt32 &&& 0xc0 = 0x80)
    (hc : c.toUInt32 &&& 0xc0 = 0x80) :
    u8ToCp (a :: b :: c :: rest) =
      ((a.toUInt32 &&& 0x0f) <<< 12 ||| (b.toUInt32 &&& 0x3f) <<< 6 ||| (c.toUInt32 &&& 0x3f),
        3) := by
  unfold u8ToCp
  rw [if_neg fun h => hbig h.2, if_neg fun h => htwo h.2.1,
    if_pos ⟨Nat.le_add_left 3 _, ha, hb, hc⟩]
  rfl

theorem u8ToCp_four (hbig : ¬ a.toUInt32 ≤ 0x7f) (htwo : a.toUInt32 &&& 0xe0 ≠ 0xc0)
    (hthree : a.toUInt32 &&& 0xf0 ≠ 0xe0) (ha : a.toUInt32 &&& 0xf8 = 0xf0)
    (hb : b.toUInt32 &&& 0xc0 = 0x80) (hc : c.toUInt32 &&& 0xc0 = 0x80)
    (hd : d.toUInt32 &&& 0xc0 = 0x80) :
    u8ToCp (a :: b :: c :: d :: rest) =
      ((a.toUInt32 &&& 0x07) <<< 18 ||| (b.toUInt32 &&& 0x3f) <<< 12 |||
        (c.toUInt32 &&& 0x3f) <<< 6 ||| (d.toUInt32 &&& 0x3f), 4) := by
  unfold u8ToCp
  rw [if_neg fun h => hbig h.2, if_neg fun h => htwo h.2.1, if_neg fun h => hthree h.2.1,
    if_pos ⟨Nat.le_add_left 4 _, ha, hb, hc, hd⟩]
  rfl

end Read

theorem toUInt32_ofNat {x : ℕ} (hx : x < 256) : (UInt8.ofNat x).toUInt32 = UInt32.ofNat x := by
  apply UInt32.toNat_inj.mp
  rw [UInt8.toNat_toUInt32, UInt8.toNat_ofNat_of_lt' hx, toNat_of_lt (by omega)]

theorem u8ToCp_bytesOf {x : ℕ} (hx : x < 0x200000) (rest : Bytes) :
    u8ToCp (bytesOf x ++ rest) = (UInt32.ofNat x, (bytesOf x).length) := by
  obtain ⟨hlow, hlowBits⟩ := continuation_spec (x % 64) (Nat.mod_lt _ (by omega))
  obtain ⟨hmiddle, hmiddleBits⟩ := continuation_spec (x / 64 % 64) (Nat.mod_lt _ (by omega))
  obtain ⟨hhigh, hhighBits⟩ := continuation_spec (x / 4096 % 64) (Nat.mod_lt _ (by omega))
  have hwhole : x / 64 * 2 ^ 6 + x % 64 = x := by omega
  have hupper : x / 4096 * 2 ^ 6 + x / 64 % 64 = x / 64 := by omega
  have htop : x / 262144 * 2 ^ 6 + x / 4096 % 64 = x / 4096 := by omega
  unfold bytesOf
  split
  · have hone := @toUInt32_ofNat x (by omega)
    refine (u8ToCp_one rest ?_).trans (Prod.ext hone rfl)
    rw [hone, UInt32.le_iff_toNat_le, toNat_of_lt (by omega)]
    change x ≤ 0x7f
    omega
  split
  · obtain ⟨hbig, hlead, hbits⟩ := lead_two (x / 64) (by omega)
    refine (u8ToCp_two rest hbig hlead hlow).trans (Prod.ext ?_ rfl)
    rw [hbits, hlowBits, two_value (by omega) (by omega), hwhole]
  split
  · obtain ⟨hbig, htwo, hlead, hbits⟩ := lead_three (x / 4096) (by omega)
    refine (u8ToCp_three rest hbig htwo hlead hmiddle hlow).trans (Prod.ext ?_ rfl)
    rw [hbits, hmiddleBits, hlowBits, three_value (by omega) (by omega) (by omega), hupper, hwhole]
  · obtain ⟨hbig, htwo, hthree, hlead, hbits⟩ := lead_four (x / 262144) (by omega)
    refine (u8ToCp_four rest hbig htwo hthree hlead hhigh hmiddle hlow).trans (Prod.ext ?_ rfl)
    rw [hbits, hhighBits, hmiddleBits, hlowBits,
      four_value (by omega) (by omega) (by omega) (by omega), htop, hupper, hwhole]

theorem u8ToCp_width_le (ch : UInt8) (s : Bytes) : (u8ToCp (ch :: s)).2 ≤ (ch :: s).length := by
  unfold u8ToCp
  dsimp only
  split
  · exact Nat.le_add_left 1 _
  split
  · rename_i h
    exact h.1
  split
  · rename_i h
    exact h.1
  split
  · rename_i h
    exact h.1
  · exact Nat.le_add_left 1 _

theorem sum_widthLoop (rounds : ℕ) : ∀ {s : Bytes}, s.length ≤ rounds →
    (widthLoop rounds s).sum = s.length := by
  induction rounds with
  | zero =>
    intro s hs
    rw [Nat.le_zero.mp hs]
    rfl
  | succ rounds ih =>
    intro s hs
    cases s with
    | nil => rfl
    | cons ch s =>
      have hpos := u8ToCp_width_pos (ch :: s)
      have hle := u8ToCp_width_le ch s
      rw [widthLoop, List.sum_cons, ih]
      · rw [List.length_drop]
        omega
      · rw [List.length_drop]
        omega

theorem codePoints_append {x : ℕ} (hx : x < 0x200000) (s : Bytes) :
    codePoints (bytesOf x ++ s) = UInt32.ofNat x :: codePoints s := by
  have hread := u8ToCp_bytesOf hx s
  have hsome : bytesOf x ≠ [] := by
    unfold bytesOf
    split
    · exact List.cons_ne_nil _ _
    split
    · exact List.cons_ne_nil _ _
    split
    · exact List.cons_ne_nil _ _
    · exact List.cons_ne_nil _ _
  obtain ⟨ch, more, hcons⟩ := List.exists_cons_of_ne_nil hsome
  have hdrop : (ch :: (more ++ s)).drop (bytesOf x).length = s := by
    rw [hcons, ← List.cons_append, List.drop_left]
  rw [hcons, List.cons_append] at hread ⊢
  rw [← hcons] at hread
  rw [codePoints_cons, hread, hdrop]

/-- The code points, each with the room for it, written one behind the other. -/
def writeAll : List (Int32 × ℕ) → Option Bytes
  | [] => some []
  | (cp, len) :: rest =>
    match u8FromCp len cp, writeAll rest with
    | some (some bytes), some more => some (bytes ++ more)
    | _, _ => none

theorem text_read_back (text : List (Int32 × ℕ)) (hroom : ∀ entry ∈ text, 4 ≤ entry.2)
    (hrange : ∀ entry ∈ text, 0 ≤ entry.1 ∧ entry.1 ≤ 0x1fffff) :
    ∃ s, writeAll text = some s ∧ codePoints s = text.map (fun entry => entry.1.toUInt32) ∧
      (widths s).sum = s.length := by
  have hread : ∃ s, writeAll text = some s ∧
      codePoints s = text.map (fun entry => entry.1.toUInt32) := by
    induction text with
    | nil => exact ⟨[], rfl, rfl⟩
    | cons entry rest ih =>
      obtain ⟨cp, len⟩ := entry
      obtain ⟨hlen, hrest⟩ := List.forall_mem_cons.mp hroom
      obtain ⟨⟨hcp, hmax⟩, hranges⟩ := List.forall_mem_cons.mp hrange
      obtain ⟨s, hs, hpoints⟩ := ih hrest hranges
      refine ⟨bytesOf cp.toUInt32.toNat ++ s, ?_, ?_⟩
      · rw [writeAll, u8FromCp_eq hlen hcp hmax, hs]
      · rw [codePoints_append (toNat_lt_of_le hcp hmax), hpoints, UInt32.ofNat_toNat]
        rfl
  obtain ⟨s, hs, hpoints⟩ := hread
  exact ⟨s, hs, hpoints, sum_widthLoop _ le_rfl⟩

/-- An accented letter, and a letter behind it. -/
theorem text_read_back_accent : ∃ s, writeAll [(0xe9, 4), (0x78, 4)] = some s ∧
    codePoints s = [0xe9, 0x78] ∧ (widths s).sum = s.length :=
  text_read_back [(0xe9, 4), (0x78, 4)] (by decide) (by decide)

end Yans.Util.U8
