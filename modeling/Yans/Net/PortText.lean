import Yans.Net.Ports

/-! The texts that `port_ranges_from_str` takes: elements `N` and `N-M` of ports
in decimal, with separators before, between and after them. The state machine of
the source accepts these texts and no others, and stores their ranges. -/
namespace Yans.Net.Ports

open Library Library.Memory Library.Decimal Util

/-- The ports from the smaller to the larger of the two. -/
def between (n m : ℕ) : PortRange := ⟨UInt16.ofNat (min n m), UInt16.ofNat (max n m)⟩

def Number (digits : Bytes) (n : ℕ) : Prop :=
  digits ≠ [] ∧ (∀ c ∈ digits, IsDigit c) ∧ value 0 digits = n ∧ n ≤ 65535

inductive Element : Bytes → PortRange → Prop
  | port {digits : Bytes} {n : ℕ} (hn : Number digits n) : Element digits (between n n)
  | range {left right : Bytes} {n m : ℕ} (hn : Number left n) (hm : Number right m) :
    Element (left ++ dash :: right) (between n m)

inductive PortList : Bytes → List PortRange → Prop
  | nil : PortList [] []
  | sep {c : UInt8} {rest : Bytes} {rs : List PortRange} (hc : isPortRangeSep c = true)
    (hrest : PortList rest rs) : PortList (c :: rest) rs
  | last {text : Bytes} {r : PortRange} (htext : Element text r) : PortList text [r]
  | element {text rest : Bytes} {c : UInt8} {r : PortRange} {rs : List PortRange}
    (htext : Element text r) (hc : isPortRangeSep c = true) (hrest : PortList rest rs) :
    PortList (text ++ c :: rest) (r :: rs)

def EndsWith (r : PortRange) (rs : List PortRange) (s : Bytes) : Prop :=
  (s = [] ∧ rs = [r]) ∨
    ∃ c rest more, s = c :: rest ∧ isPortRangeSep c = true ∧ PortList rest more ∧ rs = r :: more

/-- The rest of a number of which `num` was read, and something behind it. -/
def NumberThen (num : ℕ) (seen : Bool) (follows : ℕ → Bytes → Prop) (s : Bytes) : Prop :=
  ∃ digits rest, s = digits ++ rest ∧ (∀ c ∈ digits, IsDigit c) ∧
    (seen = true ∨ digits ≠ []) ∧ value num digits ≤ 65535 ∧ follows (value num digits) rest

def AfterDash (n : ℕ) (rs : List PortRange) (num : ℕ) (seen : Bool) : Bytes → Prop :=
  NumberThen num seen fun m => EndsWith (between n m) rs

def AfterNumber (rs : List PortRange) (n : ℕ) (s : Bytes) : Prop :=
  EndsWith (between n n) rs s ∨ ∃ rest, s = dash :: rest ∧ AfterDash n rs 0 false rest

def Remaining (p : FromStr) (s : Bytes) (rs : List PortRange) : Prop :=
  match p.s with
  | .skipSep => PortList s rs
  | .parseLhs => NumberThen p.num p.hasLhs (AfterNumber rs) s
  | .parseRhs => AfterDash p.range.start.toNat rs p.num p.hasRhs s

theorem not_isDigit_of_sep {c : UInt8} (hc : isPortRangeSep c = true) : ¬ IsDigit c := by
  simp only [isPortRangeSep, Bool.or_eq_true, decide_eq_true_eq] at hc
  obtain (((rfl | rfl) | rfl) | rfl) | rfl := hc <;> decide

theorem dash_not_digit : ¬ IsDigit dash := by decide

theorem dash_not_sep : isPortRangeSep dash = false := by decide

variable {s : Bytes}

section NumberThen

variable {num : ℕ} {seen : Bool} {follows : ℕ → Bytes → Prop} {c : UInt8}

theorem numberThen_nil :
    NumberThen num seen follows [] ↔ seen = true ∧ num ≤ 65535 ∧ follows num [] := by
  constructor
  · rintro ⟨digits, rest, hs, -, hseen, hvalue, hfollows⟩
    obtain ⟨rfl, rfl⟩ := List.append_eq_nil_iff.mp hs.symm
    exact ⟨hseen.resolve_right (fun h => h rfl), hvalue, hfollows⟩
  · rintro ⟨hseen, hvalue, hfollows⟩
    exact ⟨[], [], rfl, by simp, Or.inl hseen, hvalue, hfollows⟩

theorem numberThen_other (hc : ¬ IsDigit c) :
    NumberThen num seen follows (c :: s) ↔
      seen = true ∧ num ≤ 65535 ∧ follows num (c :: s) := by
  constructor
  · rintro ⟨digits, rest, hs, hdigits, hseen, hvalue, hfollows⟩
    cases digits with
    | nil =>
      rw [List.nil_append] at hs
      rw [← hs] at hfollows
      exact ⟨hseen.resolve_right (fun h => h rfl), hvalue, hfollows⟩
    | cons d digits =>
      rw [List.cons_append, List.cons.injEq] at hs
      rw [hs.1] at hc
      exact absurd (hdigits d List.mem_cons_self) hc
  · rintro ⟨hseen, hvalue, hfollows⟩
    exact ⟨[], c :: s, rfl, by simp, Or.inl hseen, hvalue, hfollows⟩

theorem numberThen_digit (hc : IsDigit c) (hfollows : ∀ n rest, ¬ follows n (c :: rest)) :
    NumberThen num seen follows (c :: s) ↔ num * 10 + digitValue c ≤ 65535 ∧
      NumberThen (num * 10 + digitValue c) true follows s := by
  constructor
  · rintro ⟨digits, rest, hs, hdigits, hseen, hvalue, hrest⟩
    cases digits with
    | nil =>
      rw [List.nil_append] at hs
      rw [← hs] at hrest
      exact absurd hrest (hfollows _ _)
    | cons d digits =>
      rw [List.cons_append, List.cons.injEq] at hs
      obtain ⟨rfl, rfl⟩ := hs
      refine ⟨(le_value digits _).trans hvalue, digits, rest, rfl, ?_, Or.inl rfl, hvalue, hrest⟩
      exact fun e he => hdigits e (List.mem_cons_of_mem _ he)
  · rintro ⟨-, digits, rest, rfl, hdigits, -, hvalue, hrest⟩
    refine ⟨c :: digits, rest, rfl, ?_, Or.inr (List.cons_ne_nil _ _), hvalue, hrest⟩
    intro e he
    obtain rfl | he := List.mem_cons.mp he
    · exact hc
    · exact hdigits e he

end NumberThen

variable {r : PortRange} {rs : List PortRange}

theorem endsWith_sep {c : UInt8}
    (hc : isPortRangeSep c = true) :
    EndsWith r rs (c :: s) ↔ ∃ more, rs = [r] ++ more ∧ PortList s more := by
  constructor
  · rintro (⟨h, -⟩ | ⟨_, _, more, hs, -, hmore, rfl⟩)
    · exact absurd h (List.cons_ne_nil _ _)
    · rw [List.cons.injEq] at hs
      rw [← hs.2] at hmore
      exact ⟨more, rfl, hmore⟩
  · rintro ⟨more, rfl, hmore⟩
    exact Or.inr ⟨c, s, more, rfl, hc, hmore, rfl⟩

theorem not_endsWith {c : UInt8}
    (hc : isPortRangeSep c = false) : ¬ EndsWith r rs (c :: s) := by
  rintro (⟨h, -⟩ | ⟨_, _, _, hs, hsep, -⟩)
  · exact absurd h (List.cons_ne_nil _ _)
  · rw [List.cons.injEq] at hs
    rw [← hs.1, hc] at hsep
    exact absurd hsep Bool.false_ne_true

variable {n : ℕ}

theorem afterNumber_sep {c : UInt8}
    (hc : isPortRangeSep c = true) :
    AfterNumber rs n (c :: s) ↔ ∃ more, rs = [between n n] ++ more ∧ PortList s more := by
  unfold AfterNumber
  rw [endsWith_sep hc, or_iff_left]
  rintro ⟨rest, hs, -⟩
  rw [List.cons.injEq] at hs
  rw [hs.1, dash_not_sep] at hc
  exact absurd hc Bool.false_ne_true

theorem afterNumber_dash :
    AfterNumber rs n (dash :: s) ↔ AfterDash n rs 0 false s := by
  unfold AfterNumber
  rw [or_iff_right (not_endsWith dash_not_sep)]
  constructor
  · rintro ⟨rest, hs, hrest⟩
    rw [List.cons.injEq] at hs
    rw [hs.2]
    exact hrest
  · intro h
    exact ⟨s, rfl, h⟩

theorem not_afterNumber {c : UInt8}
    (hsep : isPortRangeSep c = false) (hdash : c ≠ dash) : ¬ AfterNumber rs n (c :: s) := by
  rintro (h | ⟨_, hs, -⟩)
  · exact not_endsWith hsep h
  · rw [List.cons.injEq] at hs
    exact hdash hs.1

theorem portList_iff :
    PortList s rs ↔ (s = [] ∧ rs = []) ∨
      (∃ c rest, s = c :: rest ∧ isPortRangeSep c = true ∧ PortList rest rs) ∨
      NumberThen 0 false (AfterNumber rs) s := by
  have helement : ∀ {text tail : Bytes} {r : PortRange}, Element text r → EndsWith r rs tail →
      NumberThen 0 false (AfterNumber rs) (text ++ tail) := by
    intro text tail r htext hends
    cases htext with
    | port hn =>
      obtain ⟨hne, hdigits, rfl, hle⟩ := hn
      exact ⟨text, tail, rfl, hdigits, Or.inr hne, hle, Or.inl hends⟩
    | @range left right n m hn hm =>
      obtain ⟨hne, hdigits, rfl, hle⟩ := hn
      obtain ⟨hne', hdigits', rfl, hle'⟩ := hm
      refine ⟨left, dash :: (right ++ tail), by simp, hdigits, Or.inr hne, hle, Or.inr ⟨_, rfl, ?_⟩⟩
      exact ⟨right, tail, rfl, hdigits', Or.inr hne', hle', hends⟩
  have hclose : ∀ {text tail : Bytes} {r : PortRange}, Element text r → EndsWith r rs tail →
      PortList (text ++ tail) rs := by
    rintro text tail r htext (⟨rfl, rfl⟩ | ⟨c, rest, more, rfl, hc, hmore, rfl⟩)
    · rw [List.append_nil]
      exact PortList.last htext
    · exact PortList.element htext hc hmore
  constructor
  · intro h
    cases h with
    | nil => exact Or.inl ⟨rfl, rfl⟩
    | sep hc hrest => exact Or.inr (Or.inl ⟨_, _, rfl, hc, hrest⟩)
    | last htext =>
      rw [← List.append_nil s]
      exact Or.inr (Or.inr (helement htext (Or.inl ⟨rfl, rfl⟩)))
    | element htext hc hrest =>
      exact Or.inr (Or.inr (helement htext (Or.inr ⟨_, _, _, rfl, hc, hrest, rfl⟩)))
  · rintro (⟨rfl, rfl⟩ | ⟨c, rest, rfl, hc, hrest⟩ | ⟨digits, tail, rfl, hdigits, hne, hle, hafter⟩)
    · exact PortList.nil
    · exact PortList.sep hc hrest
    · have hnumber : Number digits (value 0 digits) :=
        ⟨hne.resolve_left Bool.false_ne_true, hdigits, rfl, hle⟩
      obtain hends | ⟨rest, rfl, right, tail, rfl, hright, hne', hle', hends⟩ := hafter
      · exact hclose (Element.port hnumber) hends
      · have hnumber' : Number right (value 0 right) :=
          ⟨hne'.resolve_left Bool.false_ne_true, hright, rfl, hle'⟩
        have htext := hclose (Element.range hnumber hnumber') hends
        rw [List.append_assoc, List.cons_append] at htext
        exact htext

theorem portList_sep {c : UInt8} (hc : isPortRangeSep c = true) :
    PortList (c :: s) rs ↔ PortList s rs := by
  constructor
  · intro h
    obtain ⟨hs, -⟩ | ⟨_, _, hs, -, hrest⟩ | hnumber := portList_iff.mp h
    · exact absurd hs (List.cons_ne_nil _ _)
    · rw [List.cons.injEq] at hs
      rw [hs.2]
      exact hrest
    · rw [numberThen_other (not_isDigit_of_sep hc)] at hnumber
      exact absurd hnumber.1 Bool.false_ne_true
  · exact PortList.sep hc

theorem portList_number {c : UInt8}
    (hc : isPortRangeSep c = false) :
    PortList (c :: s) rs ↔ NumberThen 0 false (AfterNumber rs) (c :: s) := by
  rw [portList_iff]
  constructor
  · rintro (⟨hs, -⟩ | ⟨_, _, hs, hsep, -⟩ | hnumber)
    · exact absurd hs (List.cons_ne_nil _ _)
    · rw [List.cons.injEq] at hs
      rw [← hs.1, hc] at hsep
      exact absurd hsep Bool.false_ne_true
    · exact hnumber
  · exact fun h => Or.inr (Or.inr h)

/-- The numbers read so far fit; in `PARSE_LHS` there is one, and no other. -/
def Live (p : FromStr) : Prop :=
  match p.s with
  | .skipSep => True
  | .parseLhs => p.hasLhs = true ∧ p.hasRhs = false ∧ p.num ≤ 65535
  | .parseRhs => p.num ≤ 65535

def Reads (p : FromStr) (c : UInt8) : Option FromStr → Prop
  | none => ∀ s rs, ¬ Remaining p (c :: s) rs
  | some p' => Live p' ∧ ∃ new, p'.buf.contents = p.buf.contents ++ new.flatMap rangeBytes ∧
    ∀ s rs, Remaining p (c :: s) rs ↔ ∃ more, rs = new ++ more ∧ Remaining p' s more

theorem ordered_eq_between {m : ℕ} (hn : n ≤ 65535) (hm : m ≤ 65535) :
    ordered ⟨UInt16.ofNat n, UInt16.ofNat m⟩ = between n m := by
  have hlt : UInt16.ofNat m < UInt16.ofNat n ↔ m < n := by
    rw [UInt16.lt_iff_toNat_lt, UInt16.toNat_ofNat', UInt16.toNat_ofNat']
    omega
  unfold ordered between
  by_cases h : m < n
  · rw [if_pos (hlt.mpr h), Nat.min_eq_right (by omega), Nat.max_eq_left (by omega)]
  · rw [if_neg (mt hlt.mp h), Nat.min_eq_left (by omega), Nat.max_eq_right (by omega)]

theorem ordered_end {m : ℕ} (hm : m ≤ 65535) :
    ordered { r with end_ := UInt16.ofNat m } = between r.start.toNat m := by
  have hlt := r.start.toNat_lt
  rw [← ordered_eq_between (by omega) hm, UInt16.ofNat_toNat]

variable {p : FromStr}

theorem reads_nothing {p' : FromStr} {c : UInt8} (hlive : Live p')
    (hbuf : p'.buf = p.buf) (h : ∀ s rs, Remaining p (c :: s) rs ↔ Remaining p' s rs) :
    Reads p c (some p') := by
  refine ⟨hlive, [], by simp [hbuf], fun s rs => ?_⟩
  rw [h]
  simp

theorem reads_element {c : UInt8}
    (h : ∀ s rs, Remaining p (c :: s) rs ↔ ∃ more, rs = [r] ++ more ∧ PortList s more) :
    Reads p c (some (p.append r)) := by
  refine ⟨trivial, [r], ?_, h⟩
  simp [FromStr.append]

theorem reads_congr {q : FromStr} {c : UInt8} {result : Option FromStr} (hbuf : q.buf = p.buf)
    (h : ∀ s rs, Remaining p (c :: s) rs ↔ Remaining q (c :: s) rs) (hq : Reads q c result) :
    Reads p c result := by
  cases result with
  | none => exact fun s rs hp => hq s rs ((h s rs).mp hp)
  | some p' =>
    obtain ⟨hlive, new, hnew, hstep⟩ := hq
    refine ⟨hlive, new, by rw [hnew, hbuf], fun s rs => ?_⟩
    rw [h, hstep]

theorem parseLhs_reads {c : UInt8} (hs : p.s = .parseLhs) (hrhs : p.hasRhs = false)
    (hnum : p.num ≤ 65535)
    (hseen : isPortRangeSep c = true → p.hasLhs = true) : Reads p c (parseLhs p c) := by
  have hremaining : ∀ s rs, Remaining p (c :: s) rs ↔
      NumberThen p.num p.hasLhs (AfterNumber rs) (c :: s) := by
    intro s rs
    simp only [Remaining, hs]
  have hstart : (UInt16.ofNat p.num).toNat = p.num := by
    rw [UInt16.toNat_ofNat']
    omega
  unfold parseLhs
  by_cases hdash : c = dash
  · subst hdash
    rw [if_pos (Or.inl rfl)]
    rw [if_pos rfl]
    by_cases hlhs : p.hasLhs = true
    · rw [if_neg (by simpa using hlhs)]
      apply reads_nothing
      · exact Nat.zero_le _
      · rfl
      · intro s rs
        rw [hremaining, numberThen_other dash_not_digit, afterNumber_dash]
        simp only [Remaining, hstart, hlhs, hrhs, hnum, true_and]
    · rw [if_pos hlhs]
      intro s rs h
      rw [hremaining, numberThen_other dash_not_digit] at h
      exact hlhs h.1
  by_cases hsep : isPortRangeSep c = true
  · rw [if_pos (Or.inr hsep)]
    rw [if_neg hdash, ordered_eq_between hnum hnum]
    apply reads_element
    intro s rs
    rw [hremaining, numberThen_other (not_isDigit_of_sep hsep), afterNumber_sep hsep]
    simp only [hseen hsep, hnum, true_and]
  rw [if_neg (by simp [hdash, hsep])]
  rw [Bool.not_eq_true] at hsep
  by_cases hdigit : IsDigit c
  · rw [if_neg (by simpa using hdigit)]
    dsimp only
    have hstep := fun s rs => (hremaining s rs).trans
      (numberThen_digit hdigit (fun n rest => not_afterNumber hsep hdash))
    split
    · rename_i hlarge
      intro s rs h
      exact absurd ((hstep s rs).mp h).1 (by omega)
    · rename_i hfits
      apply reads_nothing
      · simp only [Live, hs, hrhs, true_and]
        omega
      · rfl
      · intro s rs
        rw [hstep, and_iff_right (by omega)]
        simp only [Remaining, hs]
  · rw [if_pos hdigit]
    intro s rs h
    rw [hremaining, numberThen_other hdigit] at h
    exact not_afterNumber hsep hdash h.2.2

theorem parseRhs_reads {c : UInt8} (hs : p.s = .parseRhs) (hnum : p.num ≤ 65535) :
    Reads p c (parseRhs p c) := by
  have hremaining : ∀ s rs, Remaining p (c :: s) rs ↔
      NumberThen p.num p.hasRhs (fun m => EndsWith (between p.range.start.toNat m) rs) (c :: s) := by
    intro s rs
    simp only [Remaining, hs, AfterDash]
  unfold parseRhs
  by_cases hsep : isPortRangeSep c = true
  · rw [if_pos hsep]
    have hstep := fun s rs => (hremaining s rs).trans (numberThen_other (not_isDigit_of_sep hsep))
    by_cases hrhs : p.hasRhs = true
    · rw [if_neg (by simpa using hrhs), ordered_end hnum]
      apply reads_element
      intro s rs
      rw [hstep, endsWith_sep hsep]
      simp only [hrhs, hnum, true_and]
    · rw [if_pos hrhs]
      intro s rs h
      exact hrhs ((hstep s rs).mp h).1
  rw [if_neg hsep]
  rw [Bool.not_eq_true] at hsep
  by_cases hdigit : IsDigit c
  · rw [if_neg (by simpa using hdigit)]
    dsimp only
    have hstep := fun s rs => (hremaining s rs).trans
      (numberThen_digit hdigit (fun n rest => not_endsWith hsep))
    split
    · intro s rs h
      exact absurd ((hstep s rs).mp h).1 (by omega)
    · apply reads_nothing
      · simp only [Live, hs]
        omega
      · rfl
      · intro s rs
        rw [hstep, and_iff_right (by omega)]
        simp only [Remaining, hs, AfterDash]
  · rw [if_pos hdigit]
    intro s rs h
    rw [hremaining, numberThen_other hdigit] at h
    exact not_endsWith hsep h.2.2

theorem fromStrStep_reads {c : UInt8} (hlive : Live p) :
    Reads p c (fromStrStep p c) := by
  unfold fromStrStep
  unfold Live at hlive
  split <;> rename_i hs <;> simp only [hs] at hlive
  · by_cases hsep : isPortRangeSep c = true
    · rw [if_pos hsep]
      apply reads_nothing
      · simp only [Live, hs]
      · rfl
      · intro s rs
        simp only [Remaining, hs]
        exact portList_sep hsep
    · rw [if_neg hsep]
      apply reads_congr _ _ (parseLhs_reads rfl rfl (Nat.zero_le _) (fun h => absurd h hsep))
      · rfl
      · intro s rs
        simp only [Remaining, hs]
        exact portList_number (Bool.not_eq_true _ ▸ hsep)
  · exact parseLhs_reads hs hlive.2.1 hlive.2.2 (fun _ => hlive.1)
  · exact parseRhs_reads hs hlive

theorem endsWith_nil : EndsWith r rs [] ↔ rs = [r] := by
  constructor
  · rintro (⟨-, hrs⟩ | ⟨_, _, _, hs, -⟩)
    · exact hrs
    · exact absurd hs.symm (List.cons_ne_nil _ _)
  · exact fun hrs => Or.inl ⟨rfl, hrs⟩

theorem afterNumber_nil :
    AfterNumber rs n [] ↔ rs = [between n n] := by
  unfold AfterNumber
  rw [endsWith_nil, or_iff_left]
  rintro ⟨rest, hs, -⟩
  exact absurd hs.symm (List.cons_ne_nil _ _)

theorem portList_nil : PortList [] rs ↔ rs = [] := by
  rw [portList_iff, numberThen_nil]
  simp

theorem fromStrLast_spec (hlive : Live p) :
    match fromStrLast p with
    | none => ∀ rs, ¬ Remaining p [] rs
    | some buf => ∃ last, buf.contents = p.buf.contents ++ last.flatMap rangeBytes ∧
      ∀ rs, Remaining p [] rs ↔ rs = last := by
  unfold fromStrLast Remaining
  unfold Live at hlive
  cases hs : p.s with
  | skipSep => exact ⟨[], by simp, fun rs => portList_nil⟩
  | parseLhs =>
    simp only [hs] at hlive
    obtain ⟨hlhs, -, hnum⟩ := hlive
    refine ⟨[between p.num p.num], ?_, fun rs => ?_⟩
    · rw [ordered_eq_between hnum hnum, Buf.contents_adata, List.flatMap_singleton]
    · dsimp only
      rw [numberThen_nil, afterNumber_nil]
      simp only [hlhs, hnum, true_and]
  | parseRhs =>
    simp only [hs] at hlive
    dsimp only
    unfold AfterDash
    by_cases hrhs : p.hasRhs = true
    · rw [if_neg (by simpa using hrhs), ordered_end hlive]
      refine ⟨[between p.range.start.toNat p.num], ?_, fun rs => ?_⟩
      · rw [Buf.contents_adata, List.flatMap_singleton]
      · rw [numberThen_nil, endsWith_nil]
        simp only [hrhs, hlive, true_and]
    · rw [if_pos hrhs]
      intro rs h
      exact hrhs (numberThen_nil.mp h).1

/-- The loop: a failure means that the text is no list, otherwise the text is one
if the end is reached in a state that may end. -/
theorem fromStrLoop_spec (s : Bytes) : ∀ {p : FromStr} (off : ℕ), Live p →
    match fromStrLoop p off s with
    | .error _ => ∀ rs, ¬ Remaining p s rs
    | .ok p' => Live p' ∧ ∃ new, p'.buf.contents = p.buf.contents ++ new.flatMap rangeBytes ∧
      ∀ rs, Remaining p s rs ↔ ∃ more, rs = new ++ more ∧ Remaining p' [] more := by
  induction s with
  | nil =>
    intro p off hlive
    exact ⟨hlive, [], by simp, fun rs => by simp⟩
  | cons c s ih =>
    intro p off hlive
    have hreads := @fromStrStep_reads p c hlive
    unfold fromStrLoop
    cases hstep : fromStrStep p c with
    | none =>
      rw [hstep] at hreads
      exact fun rs => hreads s rs
    | some p' =>
      rw [hstep] at hreads
      obtain ⟨hlive', new, hnew, hmore⟩ := hreads
      have hloop := @ih p' (off + 1) hlive'
      dsimp only
      cases hrest : fromStrLoop p' (off + 1) s with
      | error e =>
        rw [hrest] at hloop
        intro rs h
        obtain ⟨more, -, hp'⟩ := (hmore s rs).mp h
        exact hloop more hp'
      | ok p'' =>
        rw [hrest] at hloop
        obtain ⟨hlive'', new', hnew', hmore'⟩ := hloop
        refine ⟨hlive'', new ++ new', ?_, fun rs => ?_⟩
        · rw [hnew', hnew, List.append_assoc, List.flatMap_append]
        · rw [hmore]
          constructor
          · rintro ⟨more, rfl, hp'⟩
            obtain ⟨more', rfl, hp''⟩ := (hmore' more).mp hp'
            exact ⟨more', by rw [List.append_assoc], hp''⟩
          · rintro ⟨more', rfl, hp''⟩
            exact ⟨new' ++ more', by rw [List.append_assoc], (hmore' _).mpr ⟨more', rfl, hp''⟩⟩

theorem rangesOfBytes_append (rs : List PortRange) (rest : Bytes) :
    rangesOfBytes (rs.flatMap rangeBytes ++ rest) = rs ++ rangesOfBytes rest := by
  induction rs with
  | nil => rfl
  | cons r rs ih =>
    have hbytes : ∀ x : UInt16,
        UInt16.ofNat (ofLittleEndian (littleEndian 2 x.toNat)) = x := by
      intro x
      rw [ofLittleEndian_littleEndian x.toNat_lt, UInt16.ofNat_toNat]
    calc rangesOfBytes ((r :: rs).flatMap rangeBytes ++ rest)
        = ⟨UInt16.ofNat (ofLittleEndian (littleEndian 2 r.start.toNat)),
            UInt16.ofNat (ofLittleEndian (littleEndian 2 r.end_.toNat))⟩ ::
          rangesOfBytes (rs.flatMap rangeBytes ++ rest) := rfl
      _ = r :: rs ++ rangesOfBytes rest := by
        rw [hbytes, hbytes, ih]
        rfl

theorem length_flatMap_rangeBytes (rs : List PortRange) :
    (rs.flatMap rangeBytes).length = 4 * rs.length := by
  induction rs with
  | nil => rfl
  | cons r rs ih =>
    rw [List.flatMap_cons, List.length_append, ih, List.length_cons]
    simp only [rangeBytes, List.length_append, length_littleEndian]
    omega

theorem takeBuf_spec {buf : Buf} (h : buf.contents = rs.flatMap rangeBytes) :
    (takeBuf buf).nranges ≤ (takeBuf buf).cap ∧ (takeBuf buf).currRange = 0 ∧
      (takeBuf buf).currPort = 0 ∧ ((takeBuf buf).dirty = true ↔ (takeBuf buf).nranges ≠ 0) ∧
      (takeBuf buf).entries = rs := by
  have hlen : buf.len = 4 * rs.length := by
    rw [← Buf.length_contents, h, length_flatMap_rangeBytes]
  have hranges : rangesOfBytes buf.data = rs ++ rangesOfBytes (buf.data.drop buf.len) := by
    rw [← rangesOfBytes_append, ← h, ← Buf.data_eq]
  have hcount : buf.len / 4 = rs.length := by omega
  unfold takeBuf
  split
  · refine ⟨?_, rfl, rfl, iff_of_true rfl (by dsimp only; omega), ?_⟩
    · simp only [PortRanges.cap, hranges, hcount, List.length_append]
      omega
    · simp only [PortRanges.entries, hranges, hcount, List.take_left]
  · have hrs : rs = [] := List.eq_nil_of_length_eq_zero (by omega)
    exact ⟨Nat.le_refl _, rfl, rfl, by simp [PortRanges.zero], hrs.symm⟩

theorem portRangesFromStr_spec (s : Bytes) :
    match portRangesFromStr s with
    | (some _, rs) => rs = .zero ∧ ∀ list, ¬ PortList s list
    | (none, rs) => rs.nranges ≤ rs.cap ∧ rs.currRange = 0 ∧ rs.currPort = 0 ∧
      (rs.dirty = true ↔ rs.nranges ≠ 0) ∧ ∀ list, PortList s list ↔ list = rs.entries := by
  unfold portRangesFromStr
  by_cases hs : s = []
  · rw [if_pos hs, hs]
    exact ⟨Nat.le_refl _, rfl, rfl, by simp [PortRanges.zero], fun list => portList_nil⟩
  · rw [if_neg hs]
    set p₀ : FromStr := ⟨.skipSep, 0, false, false, ⟨0, 0⟩, Buf.init (256 * 4)⟩ with hp₀
    have hloop := @fromStrLoop_spec s p₀ 0 trivial
    cases hrun : fromStrLoop p₀ 0 s with
    | error off =>
      rw [hrun] at hloop
      exact ⟨rfl, hloop⟩
    | ok p =>
      rw [hrun] at hloop
      obtain ⟨hlive, new, hnew, hlist⟩ := hloop
      have hend := fromStrLast_spec hlive
      dsimp only
      cases hlast : fromStrLast p with
      | none =>
        rw [hlast] at hend
        refine ⟨rfl, fun list h => ?_⟩
        obtain ⟨more, -, hmore⟩ := (hlist list).mp h
        exact hend more hmore
      | some buf =>
        rw [hlast] at hend
        obtain ⟨last, hcontents, hmore⟩ := hend
        have hbuf : buf.contents = (new ++ last).flatMap rangeBytes := by
          rw [hcontents, hnew, List.flatMap_append, hp₀, Buf.contents_init, List.nil_append]
        obtain ⟨hcap, hrange, hport, hdirty, hentries⟩ := takeBuf_spec hbuf
        refine ⟨hcap, hrange, hport, hdirty, fun list => ?_⟩
        rw [hentries]
        calc PortList s list ↔ ∃ more, list = new ++ more ∧ Remaining p [] more := hlist list
          _ ↔ list = new ++ last := by simp only [hmore, exists_eq_right]

theorem portList_unique {left right : List PortRange} (hleft : PortList s left)
    (hright : PortList s right) : left = right := by
  have hspec := portRangesFromStr_spec s
  revert hspec
  generalize portRangesFromStr s = parsed
  obtain ⟨result, rs⟩ := parsed
  intro hspec
  cases result with
  | some off => exact absurd hleft (hspec.2 left)
  | none =>
    obtain ⟨-, -, -, -, hlist⟩ := hspec
    rw [(hlist left).mp hleft, (hlist right).mp hright]

end Yans.Net.Ports
