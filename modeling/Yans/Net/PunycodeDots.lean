import Mathlib.Data.List.Count
import Yans.Net.PunycodeSplit
import Yans.Util.U8Forms

/-! The dots and zeros of an encoded name are those of the code points that the input is read
as, so that a longer form of one of them is written as the character itself. -/
namespace Yans.Net.Punycode

open Library.Memory Util.U8

def Separates (input output : Bytes) : Prop :=
  (∀ c ∈ output, c ≠ 0 ∧ c ≤ 0x7f) ∧ output.count dot = input.count dot

instance (input output : Bytes) : Decidable (Separates input output) :=
  inferInstanceAs (Decidable (_ ∧ _))

def Marked (x : ℕ) : Prop := x = 0 ∨ x = 46

section
variable {x : ℕ}

theorem Marked.lt (hx : Marked x) : x < 0x40 := by
  rcases hx with rfl | rfl
  · decide
  · decide

theorem Harmless.count_eq {s : Bytes} (h : Harmless s) (hx : Marked x) :
    s.count (UInt8.ofNat x) = 0 := by
  refine List.count_eq_zero.mpr fun hmem => ?_
  obtain ⟨hzero, hdot⟩ := h _ hmem
  rcases hx with rfl | rfl
  · exact hzero rfl
  · exact hdot rfl

theorem count_acePrefix (hx : Marked x) : acePrefix.count (UInt8.ofNat x) = 0 := by
  rcases hx with rfl | rfl
  · rfl
  · rfl

theorem count_basicBytes (hx : x < 0x80) (cps : List UInt32) :
    (basicBytes cps).count (UInt8.ofNat x) = cps.count (UInt32.ofNat x) := by
  induction cps with
  | nil => rfl
  | cons r cps ih =>
    have hbyte : (UInt8.ofNat x).toNat = x := UInt8.toNat_ofNat_of_lt' (show x < 256 by omega)
    have hword : (UInt32.ofNat x).toNat = x := toNat_of_lt (by omega)
    rw [basicBytes, List.filter_cons]
    by_cases hr : r ≤ 0x7f
    · have hsmall : r.toNat ≤ 0x7f := UInt32.le_iff_toNat_le.mp hr
      have hsame : r.toUInt8 = UInt8.ofNat x ↔ r = UInt32.ofNat x := by
        rw [← UInt8.toNat_inj, ← UInt32.toNat_inj, hbyte, hword, UInt32.toNat_toUInt8,
          Nat.mod_eq_of_lt (by omega)]
      rw [if_pos (decide_eq_true hr), List.map_cons, List.count_cons, List.count_cons,
        ← basicBytes, ih]
      simp only [beq_iff_eq, hsame]
    · have hne : r ≠ UInt32.ofNat x := by
        rintro rfl
        exact hr (UInt32.le_iff_toNat_le.mpr (by rw [hword]; exact Nat.le_of_lt_succ hx))
      rw [if_neg fun h => hr (of_decide_eq_true h), ← basicBytes, ih, List.count_cons_of_ne hne]

theorem count_map_toUInt32 (hx : x < 0x100) (s : Bytes) :
    (s.map UInt8.toUInt32).count (UInt32.ofNat x) = s.count (UInt8.ofNat x) := by
  have hbyte : (UInt8.ofNat x).toUInt32 = UInt32.ofNat x := by
    rw [← UInt32.toNat_inj, UInt8.toNat_toUInt32, UInt8.toNat_ofNat_of_lt' hx,
      toNat_of_lt (by omega)]
  have hinj : Function.Injective UInt8.toUInt32 := fun _ _ h => UInt8.toUInt32_inj.mp h
  rw [← hbyte, List.count_map_of_injective s _ hinj]

theorem count_encodeOne (hx : Marked x) {label output : Bytes}
    (hrun : encodeOne label = some output) :
    output.count (UInt8.ofNat x) = (codePoints label).count (UInt32.ofNat x) := by
  have hlt := hx.lt
  unfold encodeOne at hrun
  split at hrun
  · rename_i hascii
    cases hrun
    rw [codePoints_of_small fun c hc => Nat.lt_succ_of_le (hascii c hc),
      count_map_toUInt32 (by omega)]
  · obtain ⟨tail, rfl, htail⟩ := encodeLabel_cases hrun
    rw [List.count_append, List.count_append, htail.count_eq hx, count_acePrefix hx,
      count_basicBytes (by omega), Nat.zero_add, Nat.add_zero]

def glue : List Bytes → Bytes
  | [] => []
  | [label] => label
  | label :: next :: labels => label ++ dot :: glue (next :: labels)

theorem glue_cons (ch : UInt8) (label : Bytes) (labels : List Bytes) :
    glue ((ch :: label) :: labels) = ch :: glue (label :: labels) := by
  cases labels with
  | nil => rfl
  | cons next labels => rfl

theorem glue_splitDots (s : Bytes) : glue (splitDots s) = s := by
  induction s with
  | nil => rfl
  | cons ch rest ih =>
    obtain ⟨label, labels, hsplit⟩ := List.exists_cons_of_ne_nil (splitDots_ne_nil rest)
    by_cases hdot : ch = dot
    · rw [hdot, splitDots_dot, hsplit, glue, ← hsplit, ih]
      rfl
    · rw [splitDots_cons hdot hsplit, glue_cons, ← hsplit, ih]

theorem count_dot_toUInt32 (hx : Marked x) (label rest : List UInt32) :
    (label ++ dot.toUInt32 :: rest).count (UInt32.ofNat x) =
      label.count (UInt32.ofNat x) + [dot].count (UInt8.ofNat x) + rest.count (UInt32.ofNat x) := by
  have hdot : [dot.toUInt32].count (UInt32.ofNat x) = [dot].count (UInt8.ofNat x) :=
    count_map_toUInt32 (Nat.lt_trans hx.lt (by decide)) [dot]
  rw [List.count_append, ← List.singleton_append, List.count_append, hdot, Nat.add_assoc]

theorem count_joinFrom (hx : Marked x) (labels : List Bytes) : ∀ {start output : Bytes},
    labels ≠ [] → joinFrom start labels = some output →
      output.count (UInt8.ofNat x) =
        (codePoints (start ++ glue labels)).count (UInt32.ofNat x) := by
  induction labels with
  | nil => exact fun h => absurd rfl h
  | cons label labels ih =>
    intro start output _ hrun
    cases labels with
    | nil => exact count_encodeOne hx hrun
    | cons next labels =>
      rw [joinFrom] at hrun
      rw [glue, ← List.append_assoc]
      by_cases hpiece : start ++ label = []
      · rw [if_pos hpiece] at hrun
        rw [hpiece]
        exact ih (List.cons_ne_nil _ _) hrun
      · rw [if_neg hpiece] at hrun
        obtain ⟨piece, hencode, hrest⟩ := Option.bind_eq_some_iff.mp hrun
        obtain ⟨more, hmore, hjoin⟩ := Option.bind_eq_some_iff.mp hrest
        cases hjoin
        rw [codePoints_append_small _ rfl (by decide), count_dot_toUInt32 hx,
          ← count_encodeOne hx hencode]
        have htail := ih (List.cons_ne_nil _ _) hmore
        rw [List.nil_append] at htail
        rw [← htail, List.count_append, ← List.singleton_append, List.count_append, Nat.add_assoc]

theorem count_punycodeEncode (hx : Marked x) {input output : Bytes} (hfree : 0 ∉ input)
    (hrun : punycodeEncode input = some output) :
    output.count (UInt8.ofNat x) = (codePoints input).count (UInt32.ofNat x) := by
  rw [punycodeEncode_eq_joinFrom hfree] at hrun
  have hcount := count_joinFrom hx _ (splitDots_ne_nil input) hrun
  rwa [glue_splitDots] at hcount

end

/-- Exactly the longer forms of a dot and of the zero change what the name is split into. -/
theorem dots_preserved_iff {input output : Bytes} (hfree : 0 ∉ input)
    (hrun : punycodeEncode input = some output) :
    Separates input output ↔ ∀ form ∈ longForms 0 ++ longForms 46, ¬ form <:+: input := by
  have hzero := count_punycodeEncode (.inl rfl) hfree hrun
  have hdot := count_punycodeEncode (.inr rfl) hfree hrun
  obtain ⟨-, hzeroForms⟩ := count_codePoints (show 0 < 64 by decide) _ (rfl : input.length = _)
  obtain ⟨-, hdotForms⟩ := count_codePoints (show 46 < 64 by decide) _ (rfl : input.length = _)
  have hinput : input.count (UInt8.ofNat 0) = 0 := List.count_eq_zero.mpr hfree
  rw [← hzero, hinput] at hzeroForms
  rw [← hdot] at hdotForms
  rw [List.forall_mem_append, ← hzeroForms, ← hdotForms, List.count_eq_zero]
  have hascii := isAscii_punycodeEncode hrun
  constructor
  · intro ⟨hall, hcount⟩
    exact ⟨fun hmem => (hall _ hmem).1 rfl, hcount⟩
  · intro ⟨hnone, hcount⟩
    refine ⟨fun c hc => ⟨?_, hascii c hc⟩, hcount⟩
    rintro rfl
    exact hnone hc

theorem separates_accent :
    Separates [0xc3, 0xa9, 0x2e, 0x66] (acePrefix ++ [0x39, 0x63, 0x61, 0x2e, 0x66]) :=
  (dots_preserved_iff (by decide) (by decide)).mpr (by decide)

/-- The longer form of the dot -/
theorem separator_smuggled : ¬ ∀ input output : Bytes, 0 ∉ input →
    punycodeEncode input = some output → Separates input output := by
  intro h
  have hseparates := h [0x61, 0xc0, 0xae, 0x62] (acePrefix ++ [0x61, 0x2e, 0x62, 0x2d]) (by decide)
    (by decide)
  exact absurd hseparates (by decide)

end Yans.Net.Punycode
