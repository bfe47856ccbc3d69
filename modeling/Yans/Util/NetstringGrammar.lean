import Yans.Util.NetstringLocality

/-! What the parser takes for a netstring: blanks, digits, a colon and then a comma
where the length that the digits leave in 64 bits says. The length may wrap around
as long as it does not become smaller. -/
namespace Yans.Util.Netstring

open Library.Memory Library.Decimal Library.Strings

def accumulate (len : ℕ) (c : UInt8) : ℕ := (len * 10 + digitValue c) % 2 ^ 64

def Grows (len : ℕ) : Bytes → Prop
  | [] => True
  | c :: digits => len ≤ accumulate len c ∧ Grows (accumulate len c) digits

structure Header (src blanks digits rest : Bytes) : Prop where
  src_eq : src = blanks ++ digits ++ colon :: rest
  isWs : ∀ c ∈ blanks, IsWs c
  isDigit : ∀ c ∈ digits, IsDigit c

def wrapped (digits : Bytes) : ℕ := value 0 digits % 2 ^ 64

theorem value_mod (digits : Bytes) : ∀ start,
    value (start % 2 ^ 64) digits % 2 ^ 64 = value start digits % 2 ^ 64 := by
  induction digits with
  | nil => exact fun start => Nat.mod_mod _ _
  | cons c digits ih =>
    intro start
    have hcons : ∀ n, value n (c :: digits) = value (n * 10 + digitValue c) digits := fun _ => rfl
    rw [hcons, hcons, ← ih (start % 2 ^ 64 * 10 + digitValue c), ← ih (start * 10 + digitValue c)]
    congr 2
    omega

theorem value_accumulate (len : ℕ) (c : UInt8) (digits : Bytes) :
    value (accumulate len c) digits % 2 ^ 64 = value len (c :: digits) % 2 ^ 64 :=
  value_mod digits (len * 10 + digitValue c)

variable {src : Bytes}

section

variable {rest : Bytes} {i len : ℕ}

theorem parseLoop_length_cons {c : UInt8} {S : ParseState} (hS : S ≠ .sdata)
    (hws : ¬ (S = .sws ∧ IsWs c)) :
    parseLoop src (c :: rest) i S len =
      if IsDigit c then
        if accumulate len c < len then .error .errtoolarge
        else parseLoop src rest (i + 1) .slen (accumulate len c)
      else if i > 0 ∧ c = colon then parseLoop src rest (i + 1) .sdata len
      else .error .errfmt := by
  have hsum : (len * 10 % 2 ^ 64 + digitValue c) % 2 ^ 64 = accumulate len c :=
    Nat.mod_add_mod _ _ _
  rw [parseLoop, if_neg hws, if_pos hS]
  rw [hsum]

theorem parseLoop_slen_cons (c : UInt8) :
    parseLoop src (c :: rest) i .slen len =
      if IsDigit c then
        if accumulate len c < len then .error .errtoolarge
        else parseLoop src rest (i + 1) .slen (accumulate len c)
      else if i > 0 ∧ c = colon then parseLoop src rest (i + 1) .sdata len
      else .error .errfmt := parseLoop_length_cons nofun nofun

theorem parseLoop_sws_cons (c : UInt8) :
    parseLoop src (c :: rest) i .sws len =
      if IsWs c then parseLoop src rest (i + 1) .sws len
      else parseLoop src (c :: rest) i .slen len := by
  by_cases hws : IsWs c
  · rw [if_pos hws, parseLoop, if_pos ⟨rfl, hws⟩]
  · have hsws : ParseState.sws ≠ .sdata := by decide
    rw [if_neg hws, parseLoop_slen_cons, parseLoop_length_cons hsws fun h => hws h.2]

theorem parseLoop_sdata_cons (c : UInt8) :
    parseLoop src (c :: rest) i .sdata len =
      if (i + len) % 2 ^ 64 ≥ src.length then .error .errincomplete
      else if src.getD ((i + len) % 2 ^ 64) 0 ≠ comma then .error .errfmt
      else .ok (i, len) := by
  have hsdata : ParseState.sdata ≠ .sws := by decide
  rw [parseLoop, if_neg (fun h => hsdata h.1), if_neg (fun h => h rfl)]

structure Found (src : Bytes) (i len : ℕ) (digits rest : Bytes) (off nslen : ℕ) : Prop where
  isDigit : ∀ c ∈ digits, IsDigit c
  grows : Grows len digits
  before : i + digits.length > 0
  off_eq : off = i + digits.length + 1
  nslen_eq : nslen = value len digits % 2 ^ 64
  more : rest ≠ []
  inside : (off + nslen) % 2 ^ 64 < src.length
  comma : src.getD ((off + nslen) % 2 ^ 64) 0 = Netstring.comma

theorem parseLoop_sdata_iff {off nslen : ℕ} :
    parseLoop src rest i .sdata len = .ok (off, nslen) ↔
      rest ≠ [] ∧ off = i ∧ nslen = len ∧ (i + len) % 2 ^ 64 < src.length ∧
        src.getD ((i + len) % 2 ^ 64) 0 = comma := by
  cases rest with
  | nil => exact iff_of_false nofun fun h => h.1 rfl
  | cons c rest =>
    rw [parseLoop_sdata_cons]
    by_cases hinside : (i + len) % 2 ^ 64 ≥ src.length
    · rw [if_pos hinside]
      exact iff_of_false nofun fun h => absurd h.2.2.2.1 (Nat.not_lt.mpr hinside)
    rw [if_neg hinside]
    by_cases hcomma : src.getD ((i + len) % 2 ^ 64) 0 = comma
    · rw [if_neg (not_not.mpr hcomma), Except.ok.injEq, Prod.mk.injEq]
      constructor
      · rintro ⟨rfl, rfl⟩
        exact ⟨nofun, rfl, rfl, Nat.not_le.mp hinside, hcomma⟩
      · rintro ⟨-, rfl, rfl, -⟩
        exact ⟨rfl, rfl⟩
    · rw [if_pos hcomma]
      exact iff_of_false nofun fun h => hcomma h.2.2.2.2

/-- The induction is on the bytes that are left: a digit moves into the run. -/
theorem parseLoop_slen_iff {off nslen : ℕ} : ∀ {i len : ℕ}, len < 2 ^ 64 →
    (parseLoop src rest i .slen len = .ok (off, nslen) ↔
      ∃ digits tail, rest = digits ++ colon :: tail ∧ Found src i len digits tail off nslen) := by
  induction rest with
  | nil =>
    intro i len _
    refine iff_of_false nofun ?_
    rintro ⟨digits, tail, hrest, -⟩
    simp at hrest
  | cons c rest ih =>
    intro i len hlen
    have haccumulate : accumulate len c < 2 ^ 64 := Nat.mod_lt _ (Nat.two_pow_pos 64)
    rw [parseLoop_slen_cons]
    by_cases hdigit : IsDigit c
    · rw [if_pos hdigit]
      have hcolon : c ≠ colon := by
        rintro rfl
        exact not_isDigit_colon hdigit
      constructor
      · intro h
        split at h
        · cases h
        · rename_i hgrows
          obtain ⟨digits, tail, rfl, hfound⟩ := (ih haccumulate).mp h
          refine ⟨c :: digits, tail, rfl, ?_⟩
          have hoff := hfound.off_eq
          have hnslen := hfound.nslen_eq
          rw [value_accumulate] at hnslen
          refine ⟨?_, ⟨Nat.not_lt.mp hgrows, hfound.grows⟩, ?_, ?_, hnslen, hfound.more,
            hfound.inside, hfound.comma⟩
          · simpa [hdigit] using hfound.isDigit
          · rw [List.length_cons]
            omega
          · rw [List.length_cons]
            omega
      · rintro ⟨digits, tail, hrest, hfound⟩
        cases digits with
        | nil => exact absurd (List.cons.inj hrest).1 hcolon
        | cons d digits =>
          obtain ⟨rfl, rfl⟩ := List.cons.inj hrest
          obtain ⟨hstep, hgrows⟩ := hfound.grows
          have hoff := hfound.off_eq
          have hnslen := hfound.nslen_eq
          rw [← value_accumulate] at hnslen
          rw [List.length_cons] at hoff
          rw [if_neg (Nat.not_lt.mpr hstep)]
          refine (ih haccumulate).mpr ⟨digits, tail, rfl, ?_, hgrows, by omega, by omega, hnslen,
            hfound.more, hfound.inside, hfound.comma⟩
          exact fun e he => hfound.isDigit e (List.mem_cons_of_mem _ he)
    · rw [if_neg hdigit]
      constructor
      · intro h
        split at h
        · rename_i hcolon
          obtain ⟨hmore, rfl, rfl, hinside, hcomma⟩ := parseLoop_sdata_iff.mp h
          refine ⟨[], rest, by rw [hcolon.2]; rfl, nofun, trivial, hcolon.1, rfl, ?_, hmore,
            hinside, hcomma⟩
          exact (Nat.mod_eq_of_lt hlen).symm
        · cases h
      · rintro ⟨digits, tail, hrest, hfound⟩
        cases digits with
        | nil =>
          obtain ⟨rfl, rfl⟩ := List.cons.inj hrest
          have hoff : off = i + 1 := hfound.off_eq
          have hnslen : nslen = len := hfound.nslen_eq.trans (Nat.mod_eq_of_lt hlen)
          have hinside := hfound.inside
          have hcomma := hfound.comma
          rw [hoff, hnslen] at hinside hcomma
          rw [if_pos ⟨hfound.before, rfl⟩]
          exact parseLoop_sdata_iff.mpr ⟨hfound.more, hoff, hnslen, hinside, hcomma⟩
        | cons d digits =>
          obtain ⟨rfl, -⟩ := List.cons.inj hrest
          exact absurd (hfound.isDigit _ List.mem_cons_self) hdigit

theorem not_ok_of_isWs {c : UInt8} (hws : IsWs c) {found : ℕ × ℕ} :
    parseLoop src (c :: rest) i .slen len ≠ .ok found := by
  have hdigit : ¬ IsDigit c := fun hdigit => not_isWs_of_isDigit hdigit hws
  have hcolon : c ≠ colon := by
    rintro rfl
    exact absurd hws (by decide)
  rw [parseLoop_slen_cons, if_neg hdigit, if_neg fun h => hcolon h.2]
  exact nofun

theorem parseLoop_sws_iff {found : ℕ × ℕ} : ∀ {i : ℕ},
    (parseLoop src rest i .sws len = .ok found ↔
      ∃ blanks more, rest = blanks ++ more ∧ (∀ c ∈ blanks, IsWs c) ∧
        parseLoop src more (i + blanks.length) .slen len = .ok found) := by
  induction rest with
  | nil =>
    intro i
    refine iff_of_false nofun ?_
    rintro ⟨blanks, more, hrest, -, h⟩
    rw [(List.append_eq_nil_iff.mp hrest.symm).2] at h
    cases h
  | cons c rest ih =>
    intro i
    rw [parseLoop_sws_cons]
    by_cases hws : IsWs c
    · rw [if_pos hws, ih]
      constructor
      · rintro ⟨blanks, more, rfl, hblanks, h⟩
        refine ⟨c :: blanks, more, rfl, by simpa [hws] using hblanks, ?_⟩
        rwa [List.length_cons, ← Nat.add_right_comm, Nat.add_assoc] at *
      · rintro ⟨blanks, more, hrest, hblanks, h⟩
        cases blanks with
        | nil =>
          obtain rfl : c :: rest = more := hrest
          exact absurd h (not_ok_of_isWs hws)
        | cons d blanks =>
          obtain ⟨rfl, rfl⟩ := List.cons.inj hrest
          refine ⟨blanks, more, rfl, fun e he => hblanks e (List.mem_cons_of_mem _ he), ?_⟩
          rwa [List.length_cons, ← Nat.add_right_comm, Nat.add_assoc] at *
    · rw [if_neg hws]
      constructor
      · exact fun h => ⟨[], c :: rest, rfl, nofun, h⟩
      · rintro ⟨blanks, more, hrest, hblanks, h⟩
        cases blanks with
        | nil =>
          obtain rfl : c :: rest = more := hrest
          exact h
        | cons d blanks =>
          obtain ⟨rfl, -⟩ := List.cons.inj hrest
          exact absurd (hblanks _ List.mem_cons_self) hws

end

theorem Header.getElem? {blanks digits rest : Bytes} (h : Header src blanks digits rest)
    (n : ℕ) : src[(blanks ++ digits).length + 1 + n]? = rest[n]? := by
  have hsrc : src = (blanks ++ digits ++ [colon]) ++ rest := by
    rw [h.src_eq, List.append_assoc _ [colon]]
    rfl
  have hlength : (blanks ++ digits).length + 1 = (blanks ++ digits ++ [colon]).length := by
    rw [← List.concat_eq_append, List.length_concat]
  rw [hsrc, hlength, List.getElem?_append_right (Nat.le_add_right _ _), Nat.add_sub_cancel_left]

theorem parse_eq_ok_iff (hsize : src.length < 2 ^ 64) {off nslen : ℕ} :
    parse src = .ok (off, nslen) ↔ ∃ blanks digits rest, Header src blanks digits rest ∧
      blanks ++ digits ≠ [] ∧ Grows 0 digits ∧ off = (blanks ++ digits).length + 1 ∧
        nslen = wrapped digits ∧ rest[nslen]? = some comma := by
  constructor
  · intro h
    have hlt := parseLoop_lt hsize src rfl List.not_mem_nil (Nat.two_pow_pos 64) h
    obtain ⟨blanks, more, hsrc, hblanks, h⟩ := parseLoop_sws_iff.mp h
    obtain ⟨digits, rest, rfl, hfound⟩ := (parseLoop_slen_iff (Nat.two_pow_pos 64)).mp h
    have hheader : Header src blanks digits rest :=
      ⟨hsrc.trans (List.append_assoc _ _ _).symm, hblanks, hfound.isDigit⟩
    have hoff : off = (blanks ++ digits).length + 1 := by
      rw [hfound.off_eq, List.length_append]
      omega
    have hbefore := hfound.before
    have hcomma := hfound.comma
    rw [Nat.mod_eq_of_lt (hlt.trans hsize), List.getD_eq_getElem?_getD,
      List.getElem?_eq_getElem hlt] at hcomma
    refine ⟨blanks, digits, rest, hheader, ?_, hfound.grows, hoff, hfound.nslen_eq, ?_⟩
    · refine List.ne_nil_of_length_pos ?_
      rw [List.length_append]
      omega
    · rw [← hheader.getElem?, ← hoff, List.getElem?_eq_getElem hlt]
      exact congrArg some hcomma
  · rintro ⟨blanks, digits, rest, hheader, hne, hgrows, hoff, hnslen, hcomma⟩
    have hindex : src[off + nslen]? = some comma := by
      rw [hoff, hheader.getElem?, hcomma]
    obtain ⟨hlt, hthere⟩ := List.getElem?_eq_some_iff.mp hindex
    have hmod : (off + nslen) % 2 ^ 64 = off + nslen := Nat.mod_eq_of_lt (hlt.trans hsize)
    have hpos := List.length_pos_iff.mpr hne
    rw [List.length_append] at hpos hoff
    refine parseLoop_sws_iff.mpr ⟨blanks, digits ++ colon :: rest, ?_, hheader.isWs, ?_⟩
    · rw [hheader.src_eq, List.append_assoc]
    · refine (parseLoop_slen_iff (Nat.two_pow_pos 64)).mpr ⟨digits, rest, rfl, hheader.isDigit,
        hgrows, by omega, by omega, hnslen, ?_, ?_, ?_⟩
      · rintro rfl
        cases hcomma
      · rwa [hmod]
      · rw [hmod, List.getD_eq_getElem?_getD, hindex]
        rfl

/-- Blanks, digits, a colon, as many bytes as the digits denote, and a comma, which the
offset is behind. -/
def WellFormed (src : Bytes) (nextoff : ℕ) : Prop :=
  ∃ blanks digits data rest, Header src blanks digits (data ++ comma :: rest) ∧ digits ≠ [] ∧
    data.length = value 0 digits ∧ nextoff = (blanks ++ digits).length + 1 + data.length + 1

/-- There are blanks in the place of the digits, and nothing between the colon and
the comma. -/
def LacksDigits (src : Bytes) : Prop :=
  ∃ blanks rest, Header src blanks [] rest ∧ blanks ≠ [] ∧ rest[0]? = some comma

/-- The digits denote a number that is not kept in 64 bits, but the length never became
smaller, and there is a comma where it leads to. -/
def Overflows (src : Bytes) : Prop :=
  ∃ blanks digits rest, Header src blanks digits rest ∧ 2 ^ 64 ≤ value 0 digits ∧
    Grows 0 digits ∧ rest[wrapped digits]? = some comma

theorem takeWhile_stop {p : UInt8 → Bool} {front rest : Bytes} {c : UInt8}
    (hfront : ∀ d ∈ front, p d = true) (hc : ¬ p c = true) :
    (front ++ c :: rest).takeWhile p = front := by
  rw [List.takeWhile_append_of_pos hfront, List.takeWhile_cons_of_neg hc, List.append_nil]

theorem Header.unique {blanks digits rest blanks' digits' rest' : Bytes}
    (h : Header src blanks digits rest) (h' : Header src blanks' digits' rest') :
    blanks = blanks' ∧ digits = digits' ∧ rest = rest' := by
  have hblanks : ∀ {blanks digits rest : Bytes}, Header src blanks digits rest →
      src.takeWhile (fun c => decide (IsWs c)) = blanks := by
    rintro blanks digits rest ⟨rfl, hws, hdigits⟩
    rw [List.append_assoc]
    cases digits with
    | nil => exact takeWhile_stop (fun d hd => decide_eq_true (hws d hd)) (by decide)
    | cons c digits =>
      refine takeWhile_stop (fun d hd => decide_eq_true (hws d hd)) ?_
      rw [decide_eq_true_eq]
      exact not_isWs_of_isDigit (hdigits c List.mem_cons_self)
  have hdigits : ∀ {digits rest : Bytes}, (∀ c ∈ digits, IsDigit c) →
      (digits ++ colon :: rest).takeWhile (fun c => decide (IsDigit c)) = digits :=
    fun hdigits => takeWhile_stop (fun d hd => decide_eq_true (hdigits d hd)) (by decide)
  obtain rfl : blanks = blanks' := (hblanks h).symm.trans (hblanks h')
  have hrest : digits ++ colon :: rest = digits' ++ colon :: rest' := by
    have hsrc := h.src_eq.symm.trans h'.src_eq
    rwa [List.append_assoc, List.append_assoc, List.append_cancel_left_eq] at hsrc
  obtain rfl : digits = digits' := by
    rw [← hdigits h.isDigit, hrest, hdigits h'.isDigit]
  exact ⟨rfl, rfl, (List.cons.inj (List.append_cancel_left hrest)).2⟩

theorem grows_of_value_lt (digits : Bytes) : ∀ {len : ℕ}, value len digits < 2 ^ 64 →
    Grows len digits := by
  induction digits with
  | nil => exact fun _ => trivial
  | cons c digits ih =>
    intro len h
    have hcons : value len (c :: digits) = value (len * 10 + digitValue c) digits := rfl
    have hle := le_value digits (len * 10 + digitValue c)
    have haccumulate : accumulate len c = len * 10 + digitValue c := Nat.mod_eq_of_lt (by omega)
    refine ⟨by omega, ih ?_⟩
    rw [haccumulate]
    exact h

section

variable (hsize : src.length < 2 ^ 64)

include hsize

theorem tryparse_eq_ok_iff {nextoff : ℕ} :
    netstringTryparse src = .ok nextoff ↔ ∃ blanks digits rest, Header src blanks digits rest ∧
      blanks ++ digits ≠ [] ∧ Grows 0 digits ∧ rest[wrapped digits]? = some comma ∧
        nextoff = (blanks ++ digits).length + 1 + wrapped digits + 1 := by
  have hnext : ∀ {off nslen : ℕ}, parse src = .ok (off, nslen) →
      (off + nslen + 1) % 2 ^ 64 = off + nslen + 1 := by
    intro off nslen h
    have hlt := parseLoop_lt hsize src rfl List.not_mem_nil (Nat.two_pow_pos 64) h
    exact Nat.mod_eq_of_lt (by omega)
  unfold netstringTryparse
  constructor
  · intro h
    cases hparse : parse src with
    | error code =>
      rw [hparse] at h
      cases h
    | ok found =>
      obtain ⟨off, nslen⟩ := found
      rw [hparse] at h
      obtain rfl : (off + nslen + 1) % 2 ^ 64 = nextoff := Except.ok.inj h
      obtain ⟨blanks, digits, rest, hheader, hne, hgrows, rfl, rfl, hcomma⟩ :=
        (parse_eq_ok_iff hsize).mp hparse
      exact ⟨blanks, digits, rest, hheader, hne, hgrows, hcomma, hnext hparse⟩
  · rintro ⟨blanks, digits, rest, hheader, hne, hgrows, hcomma, rfl⟩
    have hparse := (parse_eq_ok_iff hsize).mpr
      ⟨blanks, digits, rest, hheader, hne, hgrows, rfl, rfl, hcomma⟩
    rw [hparse]
    exact congrArg Except.ok (hnext hparse)

theorem tryparse_of_wellFormed {nextoff : ℕ}
    (h : WellFormed src nextoff) : netstringTryparse src = .ok nextoff := by
  obtain ⟨blanks, digits, data, rest, hheader, hne, hdata, rfl⟩ := h
  have hvalue : value 0 digits < 2 ^ 64 := by
    have hlength := congrArg List.length hheader.src_eq
    simp only [List.length_append, List.length_cons] at hlength
    omega
  have hwrapped : wrapped digits = data.length := (Nat.mod_eq_of_lt hvalue).trans hdata.symm
  refine (tryparse_eq_ok_iff hsize).mpr ⟨blanks, digits, _, hheader, ?_,
    grows_of_value_lt digits hvalue, ?_, by rw [hwrapped]⟩
  · exact fun hnil => hne (List.append_eq_nil_iff.mp hnil).2
  · rw [hwrapped, List.getElem?_append_right le_rfl, Nat.sub_self]
    rfl

theorem cases_of_tryparse {nextoff : ℕ}
    (h : netstringTryparse src = .ok nextoff) :
    WellFormed src nextoff ∨ LacksDigits src ∨ Overflows src := by
  obtain ⟨blanks, digits, rest, hheader, hne, hgrows, hcomma, rfl⟩ :=
    (tryparse_eq_ok_iff hsize).mp h
  by_cases hdigits : digits = []
  · subst hdigits
    rw [List.append_nil] at hne
    exact .inr (.inl ⟨blanks, rest, hheader, hne, hcomma⟩)
  by_cases hvalue : 2 ^ 64 ≤ value 0 digits
  · exact .inr (.inr ⟨blanks, digits, rest, hheader, hvalue, hgrows, hcomma⟩)
  · left
    have hwrapped : wrapped digits = value 0 digits := Nat.mod_eq_of_lt (Nat.not_le.mp hvalue)
    rw [hwrapped] at hcomma ⊢
    obtain ⟨hlt, hthere⟩ := List.getElem?_eq_some_iff.mp hcomma
    have htake : (rest.take (value 0 digits)).length = value 0 digits :=
      List.length_take_of_le hlt.le
    have hrest : rest = rest.take (value 0 digits) ++ comma :: rest.drop (value 0 digits + 1) := by
      rw [← hthere, ← List.drop_eq_getElem_cons hlt, List.take_append_drop]
    rw [hrest] at hheader
    exact ⟨blanks, digits, _, _, hheader, hdigits, htake, by rw [htake]⟩

theorem not_wellFormed (h : LacksDigits src ∨ Overflows src) :
    ∃ nextoff, netstringTryparse src = .ok nextoff ∧ ¬ WellFormed src nextoff := by
  cases h with
  | inl hlacks =>
    obtain ⟨blanks, rest, hheader, hne, hcomma⟩ := hlacks
    refine ⟨_, (tryparse_eq_ok_iff hsize).mpr ⟨blanks, [], rest, hheader, ?_, trivial, hcomma,
      rfl⟩, ?_⟩
    · rwa [List.append_nil]
    · rintro ⟨blanks', digits, data, rest', hheader', hdigits, -⟩
      exact hdigits (hheader.unique hheader').2.1.symm
  | inr hoverflows =>
    obtain ⟨blanks, digits, rest, hheader, hvalue, hgrows, hcomma⟩ := hoverflows
    refine ⟨_, (tryparse_eq_ok_iff hsize).mpr ⟨blanks, digits, rest, hheader, ?_, hgrows, hcomma,
      rfl⟩, ?_⟩
    · intro hnil
      rw [(List.append_eq_nil_iff.mp hnil).2] at hvalue
      exact absurd hvalue (by decide)
    · rintro ⟨blanks', digits', data, rest', hheader', -, hdata, -⟩
      obtain ⟨-, rfl, -⟩ := hheader.unique hheader'
      have hlength := congrArg List.length hheader'.src_eq
      simp only [List.length_append, List.length_cons] at hlength
      omega

end

/-- `netstring_tryparse` accepts what is well formed, and only that, unless blanks stand
for the digits or the digits overflow. -/
theorem tryparse_wellFormed_iff {src : Bytes} (hsize : src.length < 2 ^ 64) :
    (∀ nextoff, netstringTryparse src = .ok nextoff ↔ WellFormed src nextoff) ↔
      ¬ LacksDigits src ∧ ¬ Overflows src := by
  rw [← not_or]
  constructor
  · intro h hbad
    obtain ⟨nextoff, haccepted, hmalformed⟩ := not_wellFormed hsize hbad
    exact hmalformed ((h nextoff).mp haccepted)
  · intro hgood nextoff
    constructor
    · exact fun h => (cases_of_tryparse hsize h).resolve_right hgood
    · exact tryparse_of_wellFormed hsize

/-- A string of three bytes with blanks and zeros before its length. -/
def padded : Bytes := ascii " \t003:abc,"

theorem tryparse_wellFormed_iff_padded :
    (∀ nextoff, netstringTryparse padded = .ok nextoff ↔ WellFormed padded nextoff) ↔
      ¬ LacksDigits padded ∧ ¬ Overflows padded :=
  tryparse_wellFormed_iff (by decide)

/-- A blank before the colon counts as a digit. -/
theorem blank_counts_as_digit : netstringTryparse [32, 58, 44] = .ok 3 ∧
    ¬ ∃ nextoff, WellFormed [32, 58, 44] nextoff := by
  refine ⟨by decide, ?_⟩
  rintro ⟨nextoff, blanks, digits, data, rest, hheader, hdigits, -⟩
  have hblank : Header [32, 58, 44] [32] [] [44] := ⟨rfl, by decide, nofun⟩
  exact hdigits (hblank.unique hheader).2.1.symm

/-- The indices that the loop reads, in their order. -/
def readsLoop (src : Bytes) : Bytes → ℕ → ParseState → ℕ → List ℕ
  | [], _, _, _ => []
  | c :: rest, i, S, len =>
    if S = .sws ∧ IsWs c then i :: readsLoop src rest (i + 1) .sws len
    else if S ≠ .sdata then
      i ::
        if IsDigit c then
          let lenbuf := (len * 10 % 2 ^ 64 + digitValue c) % 2 ^ 64
          if lenbuf < len then [] else readsLoop src rest (i + 1) .slen lenbuf
        else if i > 0 ∧ c = colon then readsLoop src rest (i + 1) .sdata len
        else []
    else if (i + len) % 2 ^ 64 ≥ src.length then []
    else [(i + len) % 2 ^ 64]

def reads (src : Bytes) : List ℕ := readsLoop src src 0 .sws 0

theorem lt_of_mem_readsLoop (rest : Bytes) : ∀ {i : ℕ} {S : ParseState} {len : ℕ},
    i + rest.length ≤ src.length → ∀ j ∈ readsLoop src rest i S len, j < src.length := by
  induction rest with
  | nil => exact fun _ => nofun
  | cons c rest ih =>
    intro i S len hi j hj
    rw [List.length_cons] at hi
    unfold readsLoop at hj
    split at hj
    · cases List.mem_cons.mp hj with
      | inl hhere => omega
      | inr hlater => exact ih (by omega) j hlater
    · split at hj
      · cases List.mem_cons.mp hj with
        | inl hhere => omega
        | inr hlater =>
          dsimp only at hlater
          split at hlater
          · split at hlater
            · cases hlater
            · exact ih (by omega) j hlater
          · split at hlater
            · exact ih (by omega) j hlater
            · cases hlater
      · split at hj
        · cases hj
        · rename_i hinside
          rw [List.mem_singleton.mp hj]
          exact Nat.not_le.mp hinside

theorem value_eq_of_grows (digits : Bytes) : ∀ {len : ℕ}, len < 2 ^ 64 → Grows len digits →
    value len digits % 2 ^ 64 < 2 ^ 60 →
      len ≤ value len digits % 2 ^ 64 ∧ value len digits % 2 ^ 64 = value len digits := by
  induction digits with
  | nil => exact fun hlen _ _ => ⟨(Nat.mod_eq_of_lt hlen).ge, Nat.mod_eq_of_lt hlen⟩
  | cons c digits ih =>
    rintro len hlen ⟨hstep, hgrows⟩ hsmall
    have hlt : accumulate len c < 2 ^ 64 := Nat.mod_lt _ (Nat.two_pow_pos 64)
    rw [← value_accumulate] at hsmall ⊢
    obtain ⟨hle, hvalue⟩ := ih hlt hgrows hsmall
    have hdigit : digitValue c < 2 ^ 8 := lt_of_le_of_lt (Nat.sub_le _ _) c.toNat_lt
    have hwhole : accumulate len c = len * 10 + digitValue c := Nat.mod_eq_of_lt (by omega)
    refine ⟨hstep.trans hle, hvalue.trans ?_⟩
    rw [hwhole]
    rfl

/-- In a buffer shorter than `2 ^ 60` bytes what is found lies before a comma in the
buffer and has the length that the digits denote, and nothing is read or written behind
the end of the buffer. -/
theorem parse_inside {src : Bytes} (hsize : src.length < 2 ^ 60) :
    (∀ nsoff nslen, parse src = .ok (nsoff, nslen) →
      nsoff + nslen < src.length ∧ src[nsoff + nslen]? = some comma ∧
        ∃ blanks digits rest, Header src blanks digits rest ∧
          nsoff = (blanks ++ digits).length + 1 ∧ nslen = value 0 digits) ∧
    (∀ i ∈ reads src, i < src.length) ∧
    ∀ mem at_, at_ + src.length ≤ mem.length → slice mem at_ src.length = src →
      ∀ i, ¬ (at_ ≤ i ∧ i < at_ + src.length) →
        (netstringParse mem at_ src.length).2[i]? = mem[i]? := by
  have hfound : ∀ {nsoff nslen : ℕ}, parse src = .ok (nsoff, nslen) →
      nsoff + nslen < src.length := fun h =>
    parseLoop_lt (by omega) src rfl List.not_mem_nil (Nat.two_pow_pos 64) h
  refine ⟨?_, lt_of_mem_readsLoop src (by omega), ?_⟩
  · intro nsoff nslen h
    have hlt := hfound h
    obtain ⟨blanks, digits, rest, hheader, -, hgrows, hoff, hnslen, hcomma⟩ :=
      (parse_eq_ok_iff (by omega)).mp h
    refine ⟨hlt, by rw [hoff, hheader.getElem?, hcomma], blanks, digits, rest, hheader, hoff, ?_⟩
    have hsmall : value 0 digits % 2 ^ 64 < 2 ^ 60 := by
      change nslen = value 0 digits % 2 ^ 64 at hnslen
      omega
    exact hnslen.trans (value_eq_of_grows digits (Nat.two_pow_pos 64) hgrows hsmall).2
  · intro mem at_ hfits hslice i hi
    unfold netstringParse
    rw [hslice]
    split
    · rfl
    · rename_i nsoff nslen hparse
      have hlt := hfound hparse
      have hroom : at_ + nsoff + nslen + [(0 : UInt8)].length ≤ mem.length := by
        rw [List.length_singleton]
        omega
      rw [getElem?_write hroom, if_neg]
      rw [List.length_singleton]
      omega

theorem parse_inside_padded :
    parse padded = .ok (6, 3) ∧ 6 + 3 < padded.length ∧ padded[6 + 3]? = some comma ∧
      ∀ i ∈ reads padded, i < padded.length := by
  have hparse : parse padded = .ok (6, 3) := by decide
  obtain ⟨hfound, hreads, -⟩ := @parse_inside padded (by decide)
  obtain ⟨hlt, hcomma, -⟩ := hfound 6 3 hparse
  exact ⟨hparse, hlt, hcomma, hreads⟩

end Yans.Util.Netstring
