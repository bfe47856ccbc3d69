import Yans.Util.Nalphaver
import Mathlib.Data.List.TakeWhile

/-! What `strtoul` reads: blanks, a sign and digits, or nothing. -/
namespace Yans.Util.Nalphaver

open Library.Memory Library.Decimal

structure Numeral (blanks sign digits : Bytes) : Prop where
  spaces : ∀ ch ∈ blanks, isSpace ch = true
  signed : sign = [] ∨ sign = [43] ∨ sign = [45]
  decimal : ∀ ch ∈ digits, IsDigit ch
  nonempty : digits ≠ []

def numeralValue (sign digits : Bytes) : ℕ :=
  let n := value 0 digits
  if n > ulongMax then ulongMax else if sign = [45] then (2 ^ 64 - n) % 2 ^ 64 else n

def NoDigit (text : Bytes) : Prop := ∀ ch ∈ text.head?, ¬IsDigit ch

theorem not_isSpace_of_isDigit {ch : UInt8} (h : IsDigit ch) : isSpace ch = false := by
  obtain ⟨hlow, hhigh⟩ := isDigit_iff.mp h
  unfold isSpace
  rw [decide_eq_false_iff_not, UInt8.le_iff_toNat_le, UInt8.le_iff_toNat_le, ← UInt8.toNat_inj]
  change ¬ (ch.toNat = 32 ∨ 9 ≤ ch.toNat ∧ ch.toNat ≤ 13)
  omega

theorem not_isDigit_sign {ch : UInt8} (h : IsDigit ch) : ¬ (ch = 45 ∨ ch = 43) := by
  have hdigit := isDigit_iff.mp h
  rintro (rfl | rfl)
  · exact absurd hdigit (by decide)
  · exact absurd hdigit (by decide)

theorem NoDigit.takeWhile {text : Bytes} (h : NoDigit text) :
    text.takeWhile (IsDigit ·) = [] := by
  cases text with
  | nil => rfl
  | cons ch text =>
    exact List.takeWhile_cons_of_neg (by simpa using h ch rfl)

theorem NoDigit.dropWhile {text : Bytes} (h : NoDigit text) :
    text.dropWhile (IsDigit ·) = text := by
  cases text with
  | nil => rfl
  | cons ch text =>
    exact List.dropWhile_cons_of_neg (by simpa using h ch rfl)

theorem NoDigit.of_prefix {text cut : Bytes} (h : NoDigit text) (hcut : cut <+: text) :
    NoDigit cut := by
  obtain ⟨rest, rfl⟩ := hcut
  cases cut with
  | nil => exact nofun
  | cons ch cut => exact h

theorem noDigit_dropWhile (text : Bytes) : NoDigit (text.dropWhile (IsDigit ·)) := by
  intro ch hch hdigit
  have hne : text.dropWhile (IsDigit ·) ≠ [] := by
    intro hnil
    rw [hnil] at hch
    cases hch
  have hhead := List.head_dropWhile_not (IsDigit ·) hne
  rw [List.head?_eq_some_head hne, Option.mem_some_iff] at hch
  rw [hch, decide_eq_false_iff_not] at hhead
  exact hhead hdigit

section

variable {blanks sign digits : Bytes} (h : Numeral blanks sign digits)

include h

theorem Numeral.dropWhile (rest : Bytes) :
    (blanks ++ (sign ++ (digits ++ rest))).dropWhile isSpace = sign ++ (digits ++ rest) := by
  rw [List.dropWhile_append_of_pos h.spaces]
  obtain ⟨ch, digits, rfl⟩ := List.exists_cons_of_ne_nil h.nonempty
  have hspace := not_isSpace_of_isDigit (h.decimal ch List.mem_cons_self)
  obtain hsign | hsign | hsign := h.signed
  · rw [hsign]
    exact List.dropWhile_cons_of_neg (by simp [hspace])
  · rw [hsign]
    exact List.dropWhile_cons_of_neg (by decide)
  · rw [hsign]
    exact List.dropWhile_cons_of_neg (by decide)

theorem Numeral.head_eq (rest : Bytes) : (sign ++ (digits ++ rest)).head? = some 45 ↔ sign =
    [45] := by
  obtain ⟨ch, digits, rfl⟩ := List.exists_cons_of_ne_nil h.nonempty
  have hch := not_isDigit_sign (h.decimal ch List.mem_cons_self)
  obtain hsign | hsign | hsign := h.signed
  · rw [hsign]
    exact iff_of_false (by simpa using fun h => hch (.inl h)) nofun
  · rw [hsign]
    exact iff_of_false (by simp) (by decide)
  · rw [hsign]
    exact iff_of_true rfl rfl

theorem Numeral.unsignedPart (rest : Bytes) :
    unsignedPart (blanks ++ (sign ++ (digits ++ rest))) = digits ++ rest := by
  unfold Nalphaver.unsignedPart
  rw [h.dropWhile]
  obtain ⟨ch, digits, rfl⟩ := List.exists_cons_of_ne_nil h.nonempty
  have hch := not_isDigit_sign (h.decimal ch List.mem_cons_self)
  obtain hsign | hsign | hsign := h.signed
  · rw [hsign]
    exact if_neg (by simpa using hch)
  · rw [hsign]
    exact if_pos (.inr rfl)
  · rw [hsign]
    exact if_pos (.inl rfl)

theorem Numeral.strtoul {rest : Bytes} (hrest : NoDigit rest) :
    strtoul (blanks ++ (sign ++ (digits ++ rest))) = (numeralValue sign digits, rest) := by
  have hdigits : ∀ ch ∈ digits, decide (IsDigit ch) = true :=
    fun ch hch => decide_eq_true (h.decimal ch hch)
  unfold Nalphaver.strtoul numeralValue
  dsimp only
  rw [h.unsignedPart, h.dropWhile, List.takeWhile_append_of_pos hdigits,
    List.dropWhile_append_of_pos hdigits, hrest.takeWhile, hrest.dropWhile, List.append_nil,
    if_neg h.nonempty]
  simp only [h.head_eq]

end

theorem prefix_unsignedPart {text cut : Bytes} (h : cut <+: text) :
    unsignedPart cut <+: unsignedPart text := by
  obtain ⟨rest, rfl⟩ := h
  by_cases hspace : cut.dropWhile isSpace = []
  · have hcut : unsignedPart cut = [] := by
      unfold unsignedPart
      rw [hspace]
      rfl
    rw [hcut]
    exact List.nil_prefix
  · have htrim : (cut ++ rest).dropWhile isSpace = cut.dropWhile isSpace ++ rest := by
      rw [List.dropWhile_append, if_neg (by simpa using hspace)]
    unfold unsignedPart
    dsimp only
    rw [htrim]
    obtain ⟨ch, left, hleft⟩ := List.exists_cons_of_ne_nil hspace
    rw [hleft, List.cons_append, List.head?_cons, List.head?_cons, List.tail_cons, List.tail_cons]
    split
    · exact List.prefix_append left rest
    · exact List.prefix_append (ch :: left) rest

theorem strtoul_of_noDigit {nptr : Bytes} (h : NoDigit (unsignedPart nptr)) :
    strtoul nptr = (0, nptr) := by
  unfold strtoul
  dsimp only
  rw [h.takeWhile]
  exact if_pos rfl

theorem strtoul_cases (nptr : Bytes) :
    NoDigit (unsignedPart nptr) ∨ ∃ blanks sign digits rest,
      nptr = blanks ++ (sign ++ (digits ++ rest)) ∧ Numeral blanks sign digits ∧
        NoDigit rest := by
  by_cases hdigits : (unsignedPart nptr).takeWhile (IsDigit ·) = []
  · left
    have hall := @List.takeWhile_append_dropWhile _ (IsDigit ·) (unsignedPart nptr)
    rw [hdigits, List.nil_append] at hall
    rw [← hall]
    exact noDigit_dropWhile _
  · right
    obtain ⟨sign, htrim, hsign⟩ : ∃ sign, nptr.dropWhile isSpace = sign ++ unsignedPart nptr ∧
        (sign = [] ∨ sign = [43] ∨ sign = [45]) := by
      unfold unsignedPart
      cases nptr.dropWhile isSpace with
      | nil => exact ⟨[], rfl, .inl rfl⟩
      | cons ch text =>
        by_cases hch : ch = 45 ∨ ch = 43
        · refine ⟨[ch], ?_, ?_⟩
          · rw [if_pos (by simpa using hch)]
            rfl
          · obtain rfl | rfl := hch
            · exact .inr (.inr rfl)
            · exact .inr (.inl rfl)
        · refine ⟨[], ?_, .inl rfl⟩
          rw [if_neg (by simpa using hch)]
          rfl
    refine ⟨nptr.takeWhile isSpace, sign, (unsignedPart nptr).takeWhile (IsDigit ·),
      (unsignedPart nptr).dropWhile (IsDigit ·), ?_, ?_, noDigit_dropWhile _⟩
    · rw [List.takeWhile_append_dropWhile, ← htrim, List.takeWhile_append_dropWhile]
    · refine ⟨fun ch hch => List.mem_takeWhile_imp hch, hsign, fun ch hch => ?_, hdigits⟩
      simpa using List.mem_takeWhile_imp hch

theorem strtoul_cut {nptr cut : Bytes} (hcut : cut <+: (strtoul nptr).2) :
    ∃ text, nptr = text ++ (strtoul nptr).2 ∧
      strtoul (text ++ cut) = ((strtoul nptr).1, cut) := by
  obtain hnone | ⟨blanks, sign, digits, rest, rfl, hnumeral, hrest⟩ := strtoul_cases nptr
  · rw [strtoul_of_noDigit hnone] at hcut ⊢
    refine ⟨[], rfl, ?_⟩
    apply strtoul_of_noDigit
    exact hnone.of_prefix (prefix_unsignedPart hcut)
  · rw [hnumeral.strtoul hrest] at hcut ⊢
    refine ⟨blanks ++ (sign ++ digits), ?_, ?_⟩
    · rw [List.append_assoc, List.append_assoc]
    · rw [List.append_assoc, List.append_assoc]
      exact hnumeral.strtoul (hrest.of_prefix hcut)

theorem unsignedPart_suffix (nptr : Bytes) : unsignedPart nptr <:+ nptr := by
  have htrim : nptr.dropWhile isSpace <:+ nptr := List.dropWhile_suffix isSpace
  unfold unsignedPart
  dsimp only
  split
  · exact (List.tail_suffix _).trans htrim
  · exact htrim

theorem strtoul_suffix (nptr : Bytes) : (strtoul nptr).2 <:+ nptr := by
  unfold strtoul
  dsimp only
  split
  · exact List.suffix_refl nptr
  · exact (List.dropWhile_suffix _).trans (unsignedPart_suffix nptr)

end Yans.Util.Nalphaver
