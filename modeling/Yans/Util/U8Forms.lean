import Mathlib.Data.List.Infix
import Yans.Util.U8Text

/-! Which bytes are read as a small code point: the byte itself and the longer forms, which
are read although they are not UTF-8. -/
namespace Yans.Util.U8

open Library.Memory

def longForms (x : ℕ) : List Bytes :=
  [[0xc0, UInt8.ofNat (0x80 + x)], [0xe0, 0x80, UInt8.ofNat (0x80 + x)],
    [0xf0, 0x80, 0x80, UInt8.ofNat (0x80 + x)]]

theorem mem_longForms {x : ℕ} {form : Bytes} : form ∈ longForms x ↔
    form = [0xc0, UInt8.ofNat (0x80 + x)] ∨ form = [0xe0, 0x80, UInt8.ofNat (0x80 + x)] ∨
      form = [0xf0, 0x80, 0x80, UInt8.ofNat (0x80 + x)] := by
  simp only [longForms, List.mem_cons, List.not_mem_nil, or_false]

def IsContinuation (c : UInt8) : Prop := 0x80 ≤ c.toNat ∧ c.toNat < 0xc0

theorem forall_byte {p : UInt8 → Prop} (h : ∀ n < 256, p (UInt8.ofNat n)) (c : UInt8) : p c := by
  have hc := h c.toNat c.toNat_lt
  rwa [UInt8.ofNat_toNat] at hc

theorem continuation_bits (c : UInt8) : c.toUInt32 &&& 0xc0 = 0x80 →
    (0x80 ≤ c.toNat ∧ c.toNat < 0xc0) ∧ c.toUInt32 &&& 0x3f = UInt32.ofNat (c.toNat - 0x80) :=
  forall_byte (p := fun c => c.toUInt32 &&& 0xc0 = 0x80 →
    (0x80 ≤ c.toNat ∧ c.toNat < 0xc0) ∧ c.toUInt32 &&& 0x3f = UInt32.ofNat (c.toNat - 0x80))
    (by set_option maxRecDepth 2000 in decide) c

theorem lead_two_bits (c : UInt8) : c.toUInt32 &&& 0xe0 = 0xc0 →
    (0xc0 ≤ c.toNat ∧ c.toNat < 0xe0) ∧ c.toUInt32 &&& 0x1f = UInt32.ofNat (c.toNat - 0xc0) :=
  forall_byte (p := fun c => c.toUInt32 &&& 0xe0 = 0xc0 →
    (0xc0 ≤ c.toNat ∧ c.toNat < 0xe0) ∧ c.toUInt32 &&& 0x1f = UInt32.ofNat (c.toNat - 0xc0))
    (by set_option maxRecDepth 2000 in decide) c

theorem lead_three_bits (c : UInt8) : c.toUInt32 &&& 0xf0 = 0xe0 →
    (0xe0 ≤ c.toNat ∧ c.toNat < 0xf0) ∧ c.toUInt32 &&& 0x0f = UInt32.ofNat (c.toNat - 0xe0) :=
  forall_byte (p := fun c => c.toUInt32 &&& 0xf0 = 0xe0 →
    (0xe0 ≤ c.toNat ∧ c.toNat < 0xf0) ∧ c.toUInt32 &&& 0x0f = UInt32.ofNat (c.toNat - 0xe0))
    (by set_option maxRecDepth 2000 in decide) c

theorem lead_four_bits (c : UInt8) : c.toUInt32 &&& 0xf8 = 0xf0 →
    (0xf0 ≤ c.toNat ∧ c.toNat < 0xf8) ∧ c.toUInt32 &&& 0x07 = UInt32.ofNat (c.toNat - 0xf0) :=
  forall_byte (p := fun c => c.toUInt32 &&& 0xf8 = 0xf0 →
    (0xf0 ≤ c.toNat ∧ c.toNat < 0xf8) ∧ c.toUInt32 &&& 0x07 = UInt32.ofNat (c.toNat - 0xf0))
    (by set_option maxRecDepth 2000 in decide) c

theorem toUInt32_le_iff {c : UInt8} : c.toUInt32 ≤ 0x7f ↔ c.toNat < 0x80 := by
  rw [UInt32.le_iff_toNat_le, UInt8.toNat_toUInt32]
  exact Nat.lt_succ_iff.symm

/-- A byte that is read as itself, or a byte from 0x80 on with continuation bytes behind it. -/
inductive Reads : Bytes → UInt32 → Prop where
  | plain {c : UInt8} (small : c.toNat < 0x80) : Reads [c] c.toUInt32
  | two {a b : UInt8} (lead : 0xc0 ≤ a.toNat) (next : IsContinuation b) :
      Reads [a, b] (UInt32.ofNat ((a.toNat - 0xc0) * 2 ^ 6 + (b.toNat - 0x80)))
  | three {a b c : UInt8} (lead : 0xe0 ≤ a.toNat) (next : IsContinuation b)
      (last : IsContinuation c) :
      Reads [a, b, c] (UInt32.ofNat
        (((a.toNat - 0xe0) * 2 ^ 6 + (b.toNat - 0x80)) * 2 ^ 6 + (c.toNat - 0x80)))
  | four {a b c d : UInt8} (lead : 0xf0 ≤ a.toNat) (next : IsContinuation b)
      (third : IsContinuation c) (last : IsContinuation d) :
      Reads [a, b, c, d] (UInt32.ofNat
        ((((a.toNat - 0xf0) * 2 ^ 6 + (b.toNat - 0x80)) * 2 ^ 6 + (c.toNat - 0x80)) * 2 ^ 6 +
          (d.toNat - 0x80)))
  | replaced {c : UInt8} (large : 0x80 ≤ c.toNat) : Reads [c] unicodeReplacementChar

theorem lead_two_ne {a : UInt8} (h : a.toUInt32 &&& 0xe0 = 0xc0) :
    a.toUInt32 &&& 0xf0 ≠ 0xe0 ∧ a.toUInt32 &&& 0xf8 ≠ 0xf0 := by
  have htwo := (lead_two_bits a h).1
  constructor
  · intro hthree
    have hlead := (lead_three_bits a hthree).1
    omega
  · intro hfour
    have hlead := (lead_four_bits a hfour).1
    omega

theorem lead_three_ne {a : UInt8} (h : a.toUInt32 &&& 0xf0 = 0xe0) :
    a.toUInt32 &&& 0xe0 ≠ 0xc0 ∧ a.toUInt32 &&& 0xf8 ≠ 0xf0 := by
  have hthree := (lead_three_bits a h).1
  constructor
  · intro htwo
    have hlead := (lead_two_bits a htwo).1
    omega
  · intro hfour
    have hlead := (lead_four_bits a hfour).1
    omega

theorem u8ToCp_reads (a : UInt8) (s : Bytes) : ∃ front rest cp, a :: s = front ++ rest ∧
    u8ToCp (a :: s) = (cp, front.length) ∧ Reads front cp := by
  by_cases hsmall : a.toUInt32 ≤ 0x7f
  · exact ⟨[a], s, _, rfl, u8ToCp_one s hsmall, .plain (toUInt32_le_iff.mp hsmall)⟩
  have hlarge : 0x80 ≤ a.toNat := Nat.not_lt.mp fun hlt => hsmall (toUInt32_le_iff.mpr hlt)
  have hreplaced : u8ToCp (a :: s) = (unicodeReplacementChar, 1) → ∃ front rest cp,
      a :: s = front ++ rest ∧ u8ToCp (a :: s) = (cp, front.length) ∧ Reads front cp :=
    fun heq => ⟨[a], s, _, rfl, heq, .replaced hlarge⟩
  by_cases htwo : a.toUInt32 &&& 0xe0 = 0xc0
  · obtain ⟨hlead, hbits⟩ := lead_two_bits a htwo
    obtain ⟨hthree, hfour⟩ := lead_two_ne htwo
    match s with
    | b :: s =>
      by_cases hb : b.toUInt32 &&& 0xc0 = 0x80
      · obtain ⟨hnext, hnextBits⟩ := continuation_bits b hb
        refine ⟨[a, b], s, _, rfl, ?_, .two hlead.1 hnext⟩
        refine (u8ToCp_two s hsmall htwo hb).trans (Prod.ext ?_ rfl)
        rw [hbits, hnextBits, two_value (by omega) (by omega)]
      · exact hreplaced (by simp [u8ToCp, hsmall, hthree, hfour, hb])
    | [] => exact hreplaced (by simp [u8ToCp, hsmall])
  by_cases hthree : a.toUInt32 &&& 0xf0 = 0xe0
  · obtain ⟨hlead, hbits⟩ := lead_three_bits a hthree
    have hfour := (lead_three_ne hthree).2
    match s with
    | b :: c :: s =>
      by_cases hb : b.toUInt32 &&& 0xc0 = 0x80
      · by_cases hc : c.toUInt32 &&& 0xc0 = 0x80
        · obtain ⟨hnext, hnextBits⟩ := continuation_bits b hb
          obtain ⟨hlast, hlastBits⟩ := continuation_bits c hc
          refine ⟨[a, b, c], s, _, rfl, ?_, .three hlead.1 hnext hlast⟩
          refine (u8ToCp_three s hsmall htwo hthree hb hc).trans (Prod.ext ?_ rfl)
          rw [hbits, hnextBits, hlastBits, three_value (by omega) (by omega) (by omega)]
        · exact hreplaced (by simp [u8ToCp, hsmall, htwo, hfour, hc])
      · exact hreplaced (by simp [u8ToCp, hsmall, htwo, hfour, hb])
    | [b] => exact hreplaced (by simp [u8ToCp, hsmall, htwo])
    | [] => exact hreplaced (by simp [u8ToCp, hsmall])
  by_cases hfour : a.toUInt32 &&& 0xf8 = 0xf0
  · obtain ⟨hlead, hbits⟩ := lead_four_bits a hfour
    match s with
    | b :: c :: d :: s =>
      by_cases hall : b.toUInt32 &&& 0xc0 = 0x80 ∧ c.toUInt32 &&& 0xc0 = 0x80 ∧
          d.toUInt32 &&& 0xc0 = 0x80
      · obtain ⟨hb, hc, hd⟩ := hall
        obtain ⟨hnext, hnextBits⟩ := continuation_bits b hb
        obtain ⟨hthird, hthirdBits⟩ := continuation_bits c hc
        obtain ⟨hlast, hlastBits⟩ := continuation_bits d hd
        refine ⟨[a, b, c, d], s, _, rfl, ?_, .four hlead.1 hnext hthird hlast⟩
        refine (u8ToCp_four s hsmall htwo hthree hfour hb hc hd).trans (Prod.ext ?_ rfl)
        rw [hbits, hnextBits, hthirdBits, hlastBits,
          four_value (by omega) (by omega) (by omega) (by omega)]
      · refine hreplaced ?_
        unfold u8ToCp
        rw [if_neg fun h => hsmall h.2, if_neg fun h => htwo h.2.1, if_neg fun h => hthree h.2.1,
          if_neg fun h => hall h.2.2]
    | [b, c] => exact hreplaced (by simp [u8ToCp, hsmall, htwo, hthree])
    | [b] => exact hreplaced (by simp [u8ToCp, hsmall, htwo])
    | [] => exact hreplaced (by simp [u8ToCp, hsmall])
  · refine hreplaced ?_
    unfold u8ToCp
    rw [if_neg fun h => hsmall h.2, if_neg fun h => htwo h.2.1, if_neg fun h => hthree h.2.1,
      if_neg fun h => hfour h.2.1]

theorem codePoints_reads (a : UInt8) (s : Bytes) : ∃ front rest cp, a :: s = front ++ rest ∧
    Reads front cp ∧ u8ToCp (front ++ rest) = (cp, front.length) ∧
      codePoints (a :: s) = cp :: codePoints rest := by
  obtain ⟨front, rest, cp, hsplit, hread, hreads⟩ := u8ToCp_reads a s
  refine ⟨front, rest, cp, hsplit, hreads, hsplit ▸ hread, ?_⟩
  rw [codePoints_cons, hread, hsplit, List.drop_left]

theorem Reads.length_pos {front : Bytes} {cp : UInt32} (h : Reads front cp) : 0 < front.length := by
  cases h with
  | _ => exact Nat.succ_pos _

theorem not_continuation_of_small {c : UInt8} (hc : c.toNat < 0x80) :
    c.toUInt32 &&& 0xc0 ≠ 0x80 := by
  intro h
  have hbits := (continuation_bits c h).1
  omega

theorem u8ToCp_append_small (a : UInt8) (s : Bytes) {c : UInt8} (hc : c.toNat < 0x80)
    (rest : Bytes) : u8ToCp (a :: s ++ c :: rest) = u8ToCp (a :: s) := by
  have hnot := not_continuation_of_small hc
  match s with
  | [] => simp [u8ToCp, hnot]
  | [b] => simp [u8ToCp, hnot]
  | [b, d] => simp [u8ToCp, hnot]
  | b :: d :: e :: s => simp [u8ToCp]

theorem codePoints_append_small (n : ℕ) : ∀ {s : Bytes}, s.length = n → ∀ {c : UInt8},
    c.toNat < 0x80 → ∀ rest, codePoints (s ++ c :: rest) =
      codePoints s ++ c.toUInt32 :: codePoints rest := by
  induction n using Nat.strongRecOn with
  | _ n ih =>
    intro s hlength c hc rest
    cases s with
    | nil =>
      rw [List.nil_append, codePoints_cons, u8ToCp_one rest (toUInt32_le_iff.mpr hc)]
      rfl
    | cons a s =>
      have hpos := u8ToCp_width_pos (a :: s)
      have hle := u8ToCp_width_le a s
      have hread := u8ToCp_append_small a s hc rest
      rw [List.cons_append] at hread ⊢
      rw [codePoints_cons, codePoints_cons, hread, ← List.cons_append,
        List.drop_append_of_le_length hle, ih _ ?_ rfl hc, List.cons_append]
      rw [List.length_drop]
      omega

theorem codePoints_of_small {s : Bytes} (h : ∀ c ∈ s, c.toNat < 0x80) :
    codePoints s = s.map UInt8.toUInt32 := by
  induction s with
  | nil => rfl
  | cons c s ih =>
    obtain ⟨hc, hs⟩ := List.forall_mem_cons.mp h
    have happend := @codePoints_append_small 0 [] rfl c hc s
    rw [List.nil_append] at happend
    rw [happend, ih hs]
    rfl

section Forms

variable {x : ℕ} (hx : x < 64)

include hx

variable {form : Bytes}

theorem u8ToCp_longForm (hform : form ∈ longForms x) (rest : Bytes) :
    u8ToCp (form ++ rest) = (UInt32.ofNat x, form.length) := by
  obtain ⟨hlast, hbits⟩ := continuation_spec x hx
  obtain rfl | rfl | rfl := mem_longForms.mp hform
  · refine (@u8ToCp_two 0xc0 (UInt8.ofNat (0x80 + x)) rest (by decide) (by decide) hlast).trans
      (Prod.ext ?_ rfl)
    rw [hbits]
    exact UInt32.zero_or
  · refine (@u8ToCp_three 0xe0 0x80 (UInt8.ofNat (0x80 + x)) rest (by decide) (by decide)
      (by decide) (by decide) hlast).trans
      (Prod.ext ?_ rfl)
    rw [hbits]
    exact UInt32.zero_or
  · refine (@u8ToCp_four 0xf0 0x80 0x80 (UInt8.ofNat (0x80 + x)) rest (by decide) (by decide)
      (by decide) (by decide) (by decide) (by decide) hlast).trans (Prod.ext ?_ rfl)
    rw [hbits]
    exact UInt32.zero_or

omit hx in
theorem longForm_cons (hform : form ∈ longForms x) :
    ∃ a s, form = a :: s ∧ 0xc0 ≤ a.toNat := by
  obtain rfl | rfl | rfl := mem_longForms.mp hform
  · exact ⟨_, _, rfl, by decide⟩
  · exact ⟨_, _, rfl, by decide⟩
  · exact ⟨_, _, rfl, by decide⟩

omit hx in
theorem infix_continuations (hform : form ∈ longForms x) {cont : Bytes}
    (hcont : ∀ c ∈ cont, IsContinuation c) (rest : Bytes) :
    form <:+: cont ++ rest ↔ form <:+: rest := by
  obtain ⟨a, s, rfl, ha⟩ := longForm_cons hform
  induction cont with
  | nil => rfl
  | cons c cont ih =>
    obtain ⟨hc, hrest⟩ := List.forall_mem_cons.mp hcont
    rw [List.cons_append, List.infix_cons_iff, ih hrest]
    refine or_iff_right fun hprefix => ?_
    rw [List.cons_prefix_cons] at hprefix
    have hlt := hc.2
    rw [← hprefix.1] at hlt
    omega

variable {front : Bytes} {cp : UInt32}

omit hx in
theorem Reads.tail (h : Reads front cp) :
    ∀ c ∈ front.tail, IsContinuation c := by
  cases h with
  | plain _ => exact nofun
  | two _ next => simpa using next
  | three _ next last => simpa using ⟨next, last⟩
  | four _ next third last => simpa using ⟨next, third, last⟩
  | replaced _ => exact nofun

theorem infix_read {rest : Bytes} (hform : form ∈ longForms x)
    (hreads : Reads front cp) (hread : u8ToCp (front ++ rest) = (cp, front.length)) :
    form <:+: front ++ rest ↔ front = form ∨ form <:+: rest := by
  obtain ⟨a, cont, rfl⟩ := List.exists_cons_of_length_pos hreads.length_pos
  have hcont : ∀ c ∈ cont, IsContinuation c := hreads.tail
  rw [List.cons_append, List.infix_cons_iff, infix_continuations hform hcont]
  apply or_congr_left
  rw [← List.cons_append]
  constructor
  · rintro ⟨more, hmore⟩
    have hlong := u8ToCp_longForm hx hform more
    rw [hmore, hread] at hlong
    exact (List.append_inj hmore (congrArg Prod.snd hlong).symm).1.symm
  · rintro rfl
    exact List.prefix_append _ _

theorem Reads.small_or_large (h : Reads front cp) :
    (∃ c : UInt8, c.toNat < 0x80 ∧ front = [c] ∧ cp = c.toUInt32) ∨
      (∀ c ∈ front, 0x80 ≤ c.toNat) ∧ (cp = UInt32.ofNat x ↔ front ∈ longForms x) := by
  have hword : (UInt32.ofNat x).toNat = x := toNat_of_lt (by omega)
  have hbyte : ∀ {c : UInt8} {n : ℕ}, n < 256 → (c = UInt8.ofNat n ↔ c.toNat = n) := by
    intro c n hn
    rw [← UInt8.toNat_inj, UInt8.toNat_ofNat_of_lt' hn]
  have hsame : ∀ {v : ℕ}, v < 2 ^ 32 → (UInt32.ofNat v = UInt32.ofNat x ↔ v = x) := by
    intro v hv
    rw [← UInt32.toNat_inj, toNat_of_lt hv, hword]
  cases h with
  | @plain c small => exact .inl ⟨c, small, rfl, rfl⟩
  | @two a b lead next =>
    right
    have ha := a.toNat_lt
    obtain ⟨hb, hb'⟩ := next
    have hlead : a = 0xc0 ↔ a.toNat = 0xc0 := @hbyte a 0xc0 (by omega)
    have hlast : b = UInt8.ofNat (0x80 + x) ↔ b.toNat = 0x80 + x := hbyte (by omega)
    constructor
    · simp
      omega
    · rw [hsame (by omega), mem_longForms]
      simp only [List.cons.injEq, and_true, List.cons_ne_nil, and_false, List.nil_eq, or_false,
        hlead, hlast]
      omega
  | @three a b c lead next last =>
    right
    have ha := a.toNat_lt
    obtain ⟨hb, hb'⟩ := next
    obtain ⟨hc, hc'⟩ := last
    have hlead : a = 0xe0 ↔ a.toNat = 0xe0 := @hbyte a 0xe0 (by omega)
    have hnext : b = 0x80 ↔ b.toNat = 0x80 := @hbyte b 0x80 (by omega)
    have hlast : c = UInt8.ofNat (0x80 + x) ↔ c.toNat = 0x80 + x := hbyte (by omega)
    constructor
    · simp
      omega
    · rw [hsame (by omega), mem_longForms]
      simp only [List.cons.injEq, and_true, List.cons_ne_nil, and_false, List.nil_eq, or_false,
        false_or, hlead, hnext, hlast]
      omega
  | @four a b c d lead next third last =>
    right
    have ha := a.toNat_lt
    obtain ⟨hb, hb'⟩ := next
    obtain ⟨hc, hc'⟩ := third
    obtain ⟨hd, hd'⟩ := last
    have hlead : a = 0xf0 ↔ a.toNat = 0xf0 := @hbyte a 0xf0 (by omega)
    have hnext : b = 0x80 ↔ b.toNat = 0x80 := @hbyte b 0x80 (by omega)
    have hthird : c = 0x80 ↔ c.toNat = 0x80 := @hbyte c 0x80 (by omega)
    have hlast : d = UInt8.ofNat (0x80 + x) ↔ d.toNat = 0x80 + x := hbyte (by omega)
    constructor
    · simp
      omega
    · rw [hsame (by omega), mem_longForms]
      simp only [List.cons.injEq, and_true, List.cons_ne_nil, and_false, false_or,
        hlead, hnext, hthird, hlast]
      omega
  | @replaced c large =>
    right
    constructor
    · simpa using large
    · have hcode : unicodeReplacementChar = UInt32.ofNat x ↔ 0xfffd = x :=
        @hsame 0xfffd (by omega)
      rw [hcode, mem_longForms]
      simp only [List.cons.injEq, and_false, List.nil_eq, reduceCtorEq, or_false, iff_false]
      omega

theorem count_codePoints (n : ℕ) : ∀ {s : Bytes}, s.length = n →
    s.count (UInt8.ofNat x) ≤ (codePoints s).count (UInt32.ofNat x) ∧
      ((codePoints s).count (UInt32.ofNat x) = s.count (UInt8.ofNat x) ↔
        ∀ form ∈ longForms x, ¬ form <:+: s) := by
  have hbyte : (UInt8.ofNat x).toNat = x := UInt8.toNat_ofNat_of_lt' (show x < 256 by omega)
  have hword : (UInt32.ofNat x).toNat = x := toNat_of_lt (by omega)
  induction n using Nat.strongRecOn with
  | _ n ih =>
    intro s hlength
    cases s with
    | nil =>
      refine ⟨le_rfl, iff_of_true rfl fun form hform hinfix => ?_⟩
      obtain ⟨a, more, rfl, -⟩ := longForm_cons hform
      exact absurd (List.infix_nil.mp hinfix) (List.cons_ne_nil _ _)
    | cons a s =>
      obtain ⟨front, rest, cp, hsplit, hreads, hread, hpoints⟩ := codePoints_reads a s
      have hpos := hreads.length_pos
      have hless : rest.length < n := by
        rw [← hlength, hsplit, List.length_append]
        omega
      obtain ⟨hle, hiff⟩ := ih _ hless rfl
      have hforms : (∀ form ∈ longForms x, ¬ form <:+: front ++ rest) ↔
          front ∉ longForms x ∧ ∀ form ∈ longForms x, ¬ form <:+: rest := by
        constructor
        · intro h
          refine ⟨fun hmem => h front hmem (List.prefix_append _ _).isInfix, ?_⟩
          exact fun form hform hinfix =>
            h form hform ((infix_read hx hform hreads hread).mpr (.inr hinfix))
        · rintro ⟨hfront, hrest⟩ form hform hinfix
          obtain rfl | hinfix := (infix_read hx hform hreads hread).mp hinfix
          · exact hfront hform
          · exact hrest form hform hinfix
      rw [hpoints, hsplit, hforms, List.count_append, List.count_cons, ← hiff]
      obtain ⟨c, hc, rfl, rfl⟩ | ⟨hlarge, hcode⟩ := hreads.small_or_large hx
      · have hplain : [c] ∉ longForms x := by
          rw [mem_longForms]
          simp
        have hsame : c.toUInt32 = UInt32.ofNat x ↔ c = UInt8.ofNat x := by
          rw [← UInt32.toNat_inj, ← UInt8.toNat_inj, hword, hbyte, UInt8.toNat_toUInt32]
        rw [List.count_singleton]
        simp only [beq_iff_eq, hsame, hplain, not_false_eq_true, true_and]
        omega
      · have hnone : front.count (UInt8.ofNat x) = 0 := by
          rw [List.count_eq_zero]
          intro hmem
          have hge := hlarge _ hmem
          omega
        rw [hnone]
        simp only [beq_iff_eq, hcode]
        split
        · rename_i hmem
          refine ⟨by omega, iff_of_false (by omega) fun h => h.1 hmem⟩
        · rename_i hmem
          simp only [hmem, not_false_eq_true, true_and]
          omega

end Forms

end Yans.Util.U8
