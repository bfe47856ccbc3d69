import Yans.Net.Punycode

/-! `punycode_encode` label by label. A dot where a label would start is part of the label,
so that every other one of several dots in a row separates nothing. -/
namespace Yans.Net.Punycode

open Library.Memory

instance (s : Bytes) : Decidable (IsAscii s) := inferInstanceAs (Decidable (∀ c ∈ s, c ≤ 0x7f))

def encodeOne (label : Bytes) : Option Bytes :=
  if IsAscii label then some label else encodeLabel label

def splitDots : Bytes → List Bytes
  | [] => [[]]
  | ch :: rest =>
    if ch = dot then [] :: splitDots rest
    else
      match splitDots rest with
      | [] => [[ch]]
      | label :: labels => (ch :: label) :: labels

/-- Labels joined with dots, each encoded by `encode`. -/
def joinDots (encode : Bytes → Option Bytes) : List Bytes → Option Bytes
  | [] => some []
  | [label] => encode label
  | label :: labels => do
    let output ← encode label
    let more ← joinDots encode labels
    some (output ++ dot :: more)

def labelByLabel (input : Bytes) : Option Bytes := joinDots encodeOne (splitDots input)

/-- No label that is not ASCII has an odd number of empty labels right in front of it.
`odd` says whether there is one in front of the first label. -/
def Aligned : Bool → List Bytes → Prop
  | _, [] => True
  | odd, label :: labels =>
    if label = [] then Aligned (!odd) labels
    else (odd = true → IsAscii label) ∧ Aligned false labels

instance decidableAligned : ∀ (odd : Bool) (labels : List Bytes), Decidable (Aligned odd labels)
  | _, [] => inferInstanceAs (Decidable True)
  | odd, label :: labels =>
    have := decidableAligned (!odd) labels
    have := decidableAligned false labels
    inferInstanceAs (Decidable (if label = [] then _ else _))

theorem splitDots_ne_nil (s : Bytes) : splitDots s ≠ [] := by
  cases s with
  | nil => exact List.cons_ne_nil _ _
  | cons ch rest =>
    rw [splitDots]
    split
    · exact List.cons_ne_nil _ _
    split
    · exact List.cons_ne_nil _ _
    · exact List.cons_ne_nil _ _

theorem splitDots_dot (rest : Bytes) : splitDots (dot :: rest) = [] :: splitDots rest := by
  rw [splitDots, if_pos rfl]

variable {label : Bytes}

theorem splitDots_cons {ch : UInt8} (h : ch ≠ dot) {rest : Bytes} {labels : List Bytes}
    (hrest : splitDots rest = label :: labels) :
    splitDots (ch :: rest) = (ch :: label) :: labels := by
  rw [splitDots, if_neg h, hrest]

/-- The labels as the loop forms them, where `start` is already part of the first one. -/
def joinFrom (start : Bytes) : List Bytes → Option Bytes
  | [] => some start
  | [label] => encodeOne (start ++ label)
  | label :: next :: labels =>
    if start ++ label = [] then joinFrom [dot] (next :: labels)
    else do
      let output ← encodeOne (start ++ label)
      let more ← joinFrom [] (next :: labels)
      some (output ++ dot :: more)

theorem joinFrom_cons (start : Bytes) (ch : UInt8) (label : Bytes) (labels : List Bytes) :
    joinFrom start ((ch :: label) :: labels) = joinFrom (start ++ [ch]) (label :: labels) := by
  have hsame : start ++ ch :: label = start ++ [ch] ++ label := by simp
  cases labels with
  | nil => rw [joinFrom, joinFrom, hsame]
  | cons next labels => rw [joinFrom, joinFrom, hsame]

/-- The end of `punycode_encode`. -/
def lastLabel : Bytes × Bytes × Bool → Option Bytes
  | (outbuf, label, isAscii) =>
    if label ≠ [] then punycodeLabel outbuf label isAscii else some outbuf

theorem punycodeEncode_eq (input : Bytes) :
    punycodeEncode input = (punycodeLoop [] [] true input).bind lastLabel := by
  unfold punycodeEncode
  cases punycodeLoop [] [] true input with
  | none => rfl
  | some state => rfl

theorem punycodeLabel_eq (outbuf : Bytes) {isAscii : Bool}
    (hascii : isAscii = true ↔ IsAscii label) :
    punycodeLabel outbuf label isAscii = (encodeOne label).map (outbuf ++ ·) := by
  unfold punycodeLabel encodeOne
  by_cases h : IsAscii label
  · rw [if_pos (hascii.mpr h), if_pos h]
    rfl
  · rw [if_neg fun htrue => h (hascii.mp htrue), if_neg h]

/-- The induction is on what has not been read; `label` has been. -/
theorem punycodeLoop_eq (input : Bytes) : ∀ {outbuf label : Bytes} {isAscii : Bool}, 0 ∉ input →
    (isAscii = true ↔ IsAscii label) →
    (punycodeLoop outbuf label isAscii input).bind lastLabel =
      (joinFrom label (splitDots input)).map (outbuf ++ ·) := by
  induction input with
  | nil =>
    intro outbuf label isAscii _ hascii
    rw [punycodeLoop, Option.bind_some, lastLabel, splitDots, joinFrom, List.append_nil]
    by_cases hlabel : label = []
    · rw [if_neg (not_not.mpr hlabel), hlabel, encodeOne, if_pos isAscii_nil, Option.map_some,
        List.append_nil]
    · rw [if_pos hlabel, punycodeLabel_eq outbuf hascii]
  | cons ch rest ih =>
    intro outbuf label isAscii hfree hascii
    have hch : ch ≠ 0 := fun h => hfree (h ▸ List.mem_cons_self)
    have hrest : 0 ∉ rest := fun h => hfree (List.mem_cons_of_mem _ h)
    obtain ⟨first, labels, hsplit⟩ := List.exists_cons_of_ne_nil (splitDots_ne_nil rest)
    rw [punycodeLoop, if_neg hch]
    by_cases hdot : ch = dot
    · subst hdot
      rw [splitDots_dot, hsplit, joinFrom, List.append_nil]
      by_cases hlabel : label = []
      · -- the dot becomes part of the next label
        subst hlabel
        rw [if_neg fun h => h.2 rfl, if_pos rfl, if_neg (by decide), ← hsplit]
        refine ih hrest ?_
        rw [hascii]
        exact iff_of_true isAscii_nil (isAscii_singleton.mpr (by decide))
      · rw [if_pos ⟨rfl, hlabel⟩, if_neg hlabel, punycodeLabel_eq outbuf hascii]
        cases encodeOne label with
        | none => rfl
        | some output =>
          simp only [Option.map_some]
          rw [ih hrest (iff_of_true rfl isAscii_nil), hsplit]
          cases joinFrom [] (first :: labels) with
          | none => rfl
          | some more => simp
    · rw [if_neg fun h => hdot h.1, splitDots_cons hdot hsplit, joinFrom_cons, ← hsplit]
      by_cases hlarge : ch > 0x7f
      · rw [if_pos hlarge]
        refine ih hrest (iff_of_false Bool.false_ne_true fun h => ?_)
        have hle := isAscii_singleton.mp (isAscii_append.mp h).2
        exact absurd hlarge (UInt8.not_lt.mpr hle)
      · rw [if_neg hlarge]
        refine ih hrest ?_
        rw [hascii, isAscii_append, isAscii_singleton]
        exact (and_iff_left (UInt8.not_lt.mp hlarge)).symm

theorem punycodeEncode_eq_joinFrom {input : Bytes} (hfree : 0 ∉ input) :
    punycodeEncode input = joinFrom [] (splitDots input) := by
  rw [punycodeEncode_eq, punycodeLoop_eq input hfree (iff_of_true rfl isAscii_nil)]
  cases joinFrom [] (splitDots input) with
  | none => rfl
  | some output => rfl

/-! What is written for a label that is not ASCII -/

def Harmless (s : Bytes) : Prop := ∀ c ∈ s, c ≠ 0 ∧ c ≠ dot

theorem encDigit_harmless : ∀ digit < 36,
    encDigit (digit : ℕ) ≠ 0 ∧ encDigit (digit : ℕ) ≠ dot := by
  decide

theorem threshold_range (k bias : ℤ) : 1 ≤ threshold k bias ∧ threshold k bias ≤ 26 := by
  unfold threshold bsTmin bsTmax
  dsimp only
  split
  · omega
  split
  · omega
  · omega

theorem digitLoop_harmless (bias : ℤ) (rounds : ℕ) : ∀ {k q : ℤ}, 0 ≤ q → q ≤ rounds →
    Harmless (digitLoop bias rounds k q) := by
  have hdigit : ∀ {digit : ℤ}, 0 ≤ digit → digit < 36 →
      encDigit digit ≠ 0 ∧ encDigit digit ≠ dot := by
    intro digit hnonneg hlt
    have h := encDigit_harmless digit.toNat (by omega)
    rwa [Int.toNat_of_nonneg hnonneg] at h
  induction rounds with
  | zero =>
    intro k q hnonneg hle
    exact List.forall_mem_singleton.mpr (hdigit hnonneg (by omega))
  | succ rounds ih =>
    intro k q hnonneg hle
    obtain ⟨hone, hmax⟩ := threshold_range k bias
    rw [digitLoop]
    by_cases hlast : q < threshold k bias
    · rw [if_pos hlast]
      exact List.forall_mem_singleton.mpr (hdigit hnonneg (by omega))
    · rw [if_neg hlast]
      have hrest : 0 ≤ q - threshold k bias := by omega
      have hbase : 0 < bsBase - threshold k bias := by
        unfold bsBase
        omega
      have hmod := Int.tmod_lt_of_pos (q - threshold k bias) hbase
      have hmodNonneg := Int.tmod_nonneg (bsBase - threshold k bias) hrest
      have hdiv := Int.tdiv_le_self (bsBase - threshold k bias) hrest
      have hdivNonneg := Int.tdiv_nonneg hrest (Int.le_of_lt hbase)
      refine List.forall_mem_cons.mpr ⟨hdigit (by omega) ?_, ih hdivNonneg (by omega)⟩
      unfold bsBase at hmod ⊢
      omega

theorem encodeRound_grows {l l' : Label} {r : UInt32} (hrun : encodeRound l r = some l')
    (hdelta : 0 ≤ l.delta) :
    0 ≤ l'.delta ∧ ∃ tail, l'.buf = l.buf ++ tail ∧ Harmless tail := by
  unfold encodeRound at hrun
  dsimp only at hrun
  split at hrun
  · split at hrun
    · cases hrun
    · rename_i hnonneg
      cases hrun
      exact ⟨Int.not_lt.mp hnonneg, [], (List.append_nil _).symm, List.forall_mem_nil _⟩
  split at hrun
  · cases hrun
    exact ⟨hdelta, [], (List.append_nil _).symm, List.forall_mem_nil _⟩
  · cases hrun
    exact ⟨Int.le_refl 0, _, rfl, digitLoop_harmless l.bias _ hdelta (Int.self_le_toNat _)⟩

theorem foldlM_grows {cps : List UInt32} : ∀ {l l' : Label},
    cps.foldlM encodeRound l = some l' → 0 ≤ l.delta →
      ∃ tail, l'.buf = l.buf ++ tail ∧ Harmless tail := by
  induction cps with
  | nil =>
    intro l l' hrun _
    cases hrun
    exact ⟨[], (List.append_nil _).symm, List.forall_mem_nil _⟩
  | cons r cps ih =>
    intro l l' hrun hdelta
    rw [List.foldlM_cons] at hrun
    obtain ⟨next, hround, hrest⟩ := Option.bind_eq_some_iff.mp hrun
    obtain ⟨hnext, tail, hbuf, htail⟩ := encodeRound_grows hround hdelta
    obtain ⟨more, hmore, hrestTail⟩ := ih hrest hnext
    refine ⟨tail ++ more, ?_, List.forall_mem_append.mpr ⟨htail, hrestTail⟩⟩
    rw [hmore, hbuf, List.append_assoc]

theorem encodeLoop_grows {cps : List UInt32} (rounds : ℕ) : ∀ {l l' : Label},
    encodeLoop cps rounds l = some l' → ∃ tail, l'.buf = l.buf ++ tail ∧ Harmless tail := by
  induction rounds with
  | zero =>
    intro l l' hrun
    rw [encodeLoop] at hrun
    split at hrun
    · cases hrun
      exact ⟨[], (List.append_nil _).symm, List.forall_mem_nil _⟩
    · cases hrun
  | succ rounds ih =>
    intro l l' hrun
    rw [encodeLoop] at hrun
    dsimp only at hrun
    split at hrun
    · cases hrun
      exact ⟨[], (List.append_nil _).symm, List.forall_mem_nil _⟩
    split at hrun
    · cases hrun
    · rename_i hnonneg
      obtain ⟨next, hfold, hrest⟩ := Option.bind_eq_some_iff.mp hrun
      obtain ⟨tail, hbuf, htail⟩ := foldlM_grows hfold (Int.not_lt.mp hnonneg)
      obtain ⟨more, hmore, hrestTail⟩ := ih hrest
      refine ⟨tail ++ more, ?_, List.forall_mem_append.mpr ⟨htail, hrestTail⟩⟩
      rw [hmore]
      rw [hbuf, List.append_assoc]

def basicBytes (cps : List UInt32) : Bytes := (cps.filter (· ≤ 0x7f)).map UInt32.toUInt8

theorem countRound_buf (cps : List UInt32) : ∀ l : Label,
    (cps.foldl countRound l).buf = l.buf ++ basicBytes cps := by
  induction cps with
  | nil => exact fun l => (List.append_nil _).symm
  | cons r cps ih =>
    intro l
    rw [List.foldl_cons, ih, countRound, basicBytes, basicBytes, List.filter_cons]
    by_cases hr : r ≤ 0x7f
    · rw [if_pos hr, if_pos (decide_eq_true hr), List.map_cons, List.append_assoc]
      rfl
    · rw [if_neg hr, if_neg fun h => hr (of_decide_eq_true h)]

variable {output : Bytes}

theorem encodeLabel_cases {s : Bytes} (hrun : encodeLabel s = some output) :
    ∃ tail, output = acePrefix ++ basicBytes (Util.U8.codePoints s) ++ tail ∧ Harmless tail := by
  obtain ⟨l, hloop, rfl⟩ := Option.map_eq_some_iff.mp hrun
  obtain ⟨tail, hbuf, htail⟩ := encodeLoop_grows _ hloop
  rw [hbuf]
  rw [countRound_buf]
  split
  · refine ⟨hyphen :: tail, by simp, List.forall_mem_cons.mpr ⟨by decide, htail⟩⟩
  · exact ⟨tail, rfl, htail⟩

/-! When the labels are encoded one by one -/

theorem encodeOne_dot (h : IsAscii label) :
    encodeOne (dot :: label) = some (dot :: label) :=
  if_pos (isAscii_cons.mpr ⟨by decide, h⟩)

theorem encodeOne_ne_dot (hlabel : ¬ IsAscii label)
    (hrun : encodeOne label = some output) (back rest : Bytes) : output ++ back ≠ dot :: rest := by
  rw [encodeOne, if_neg hlabel] at hrun
  obtain ⟨tail, rfl, -⟩ := encodeLabel_cases hrun
  rintro heq
  cases heq

theorem not_isAscii_dot (h : ¬ IsAscii label) : ¬ IsAscii (dot :: label) :=
  fun hdot => h (isAscii_cons.mp hdot).2

theorem joinDots_cons (h : encodeOne label = some output) (next : Bytes)
    (labels : List Bytes) : joinDots encodeOne (label :: next :: labels) =
      (joinDots encodeOne (next :: labels)).map (output ++ dot :: ·) := by
  rw [joinDots, h]
  · cases joinDots encodeOne (next :: labels) with
    | none => rfl
    | some more => rfl
  · exact List.cons_ne_nil _ _

theorem joinFrom_cons_iff {start : Bytes} {next : Bytes} {labels : List Bytes}
    {aligned : Prop} (hpiece : start ++ label ≠ []) (hone : encodeOne label = some label ∧
      encodeOne (start ++ label) = some (start ++ label) ∨ start = [])
    (ih : ∀ {more}, joinFrom [] (next :: labels) = some more →
      (joinDots encodeOne (next :: labels) = some more ↔ aligned))
    (hrun : joinFrom start (label :: next :: labels) = some output) :
    (joinDots encodeOne (label :: next :: labels)).map (start ++ ·) = some output ↔ aligned := by
  rw [joinFrom, if_neg hpiece] at hrun
  obtain ⟨piece, hencode, hrest⟩ := Option.bind_eq_some_iff.mp hrun
  obtain ⟨more, hmore, hjoin⟩ := Option.bind_eq_some_iff.mp hrest
  cases hjoin
  have hlabel : ∃ own, encodeOne label = some own ∧ piece = start ++ own := by
    rcases hone with ⟨hown, hsame⟩ | rfl
    · exact ⟨label, hown, Option.some.inj (hencode.symm.trans hsame)⟩
    · exact ⟨piece, hencode, rfl⟩
  obtain ⟨own, hown, rfl⟩ := hlabel
  rw [joinDots_cons hown, Option.map_map, ← ih hmore]
  cases joinDots encodeOne (next :: labels) with
  | none => exact iff_of_false (Option.some_ne_none _).symm (Option.some_ne_none _).symm
  | some joined => simp

def leading (odd : Bool) : Bytes := if odd then [dot] else []

theorem map_leading_false (output : Option Bytes) : output.map (leading false ++ ·) = output := by
  cases output with
  | none => rfl
  | some output => rfl

theorem ne_nil_of_not_isAscii (h : ¬ IsAscii label) : label ≠ [] := by
  rintro rfl
  exact h isAscii_nil

theorem encodeOne_leading (h : IsAscii label) (odd : Bool) :
    encodeOne (leading odd ++ label) = some (leading odd ++ label) := by
  cases odd with
  | false => exact if_pos h
  | true => exact encodeOne_dot h

theorem aligned_cons_of_isAscii (h : IsAscii label) {odd : Bool}
    (hpiece : leading odd ++ label ≠ []) (labels : List Bytes) :
    Aligned odd (label :: labels) ↔ Aligned false labels := by
  rw [Aligned]
  by_cases hempty : label = []
  · rw [if_pos hempty]
    cases odd with
    | false => exact absurd hempty hpiece
    | true => rfl
  · rw [if_neg hempty]
    exact and_iff_right fun _ => h

theorem not_aligned_cons (h : ¬ IsAscii label) (labels : List Bytes) :
    ¬ Aligned true (label :: labels) := by
  rw [Aligned, if_neg (ne_nil_of_not_isAscii h)]
  exact fun haligned => h (haligned.1 rfl)

theorem joinFrom_iff_aligned (labels : List Bytes) : ∀ {odd : Bool} {output : Bytes},
    labels ≠ [] → joinFrom (leading odd) labels = some output →
      ((joinDots encodeOne labels).map (leading odd ++ ·) = some output ↔ Aligned odd labels) := by
  induction labels with
  | nil => exact fun h => absurd rfl h
  | cons label labels ih =>
    intro odd output _ hrun
    have hfalse : ¬ IsAscii label → odd = true →
        ¬ (joinDots encodeOne (label :: labels)).map (leading odd ++ ·) = some output := by
      intro hlabel hodd heq
      subst hodd
      obtain ⟨joined, -, rfl⟩ := Option.map_eq_some_iff.mp heq
      have hpiece := not_isAscii_dot hlabel
      cases labels with
      | nil =>
        exact encodeOne_ne_dot hpiece hrun [] joined (List.append_nil _)
      | cons next labels =>
        have hne : leading true ++ label ≠ [] := List.cons_ne_nil dot label
        rw [joinFrom, if_neg hne] at hrun
        obtain ⟨piece, hencode, hrest⟩ := Option.bind_eq_some_iff.mp hrun
        obtain ⟨more, -, hjoin⟩ := Option.bind_eq_some_iff.mp hrest
        exact encodeOne_ne_dot hpiece hencode _ joined (Option.some.inj hjoin)
    cases labels with
    | nil =>
      rw [joinFrom] at hrun
      by_cases hascii : IsAscii label
      · rw [encodeOne_leading hascii] at hrun
        cases hrun
        rw [joinDots, encodeOne, if_pos hascii, Aligned]
        refine iff_of_true rfl ?_
        split
        · trivial
        · exact ⟨fun _ => hascii, trivial⟩
      · cases odd with
        | false =>
          rw [joinDots, map_leading_false, Aligned, if_neg (ne_nil_of_not_isAscii hascii)]
          exact iff_of_true hrun ⟨fun h => absurd h Bool.false_ne_true, trivial⟩
        | true => exact iff_of_false (hfalse hascii rfl) (not_aligned_cons hascii [])
    | cons next labels =>
      have hnext : ∀ {more}, joinFrom [] (next :: labels) = some more →
          (joinDots encodeOne (next :: labels) = some more ↔ Aligned false (next :: labels)) := by
        intro more hmore
        have h := @ih false _ (List.cons_ne_nil _ _) hmore
        rwa [map_leading_false] at h
      by_cases hpiece : leading odd ++ label = []
      · -- the dot behind the empty label is put in front of the next one
        obtain ⟨hodd, rfl⟩ := List.append_eq_nil_iff.mp hpiece
        cases odd with
        | true => cases hodd
        | false =>
          rw [joinFrom, if_pos hpiece] at hrun
          have hdot := @ih true _ (List.cons_ne_nil _ _) hrun
          rw [joinDots_cons (if_pos isAscii_nil), map_leading_false, Aligned, if_pos rfl]
          exact hdot
      by_cases hascii : IsAscii label
      · rw [aligned_cons_of_isAscii hascii hpiece]
        exact joinFrom_cons_iff hpiece (.inl ⟨if_pos hascii, encodeOne_leading hascii odd⟩)
          hnext hrun
      cases odd with
      | true => exact iff_of_false (hfalse hascii rfl) (not_aligned_cons hascii _)
      | false =>
        rw [Aligned, if_neg (ne_nil_of_not_isAscii hascii), 
          and_iff_right fun h => absurd h Bool.false_ne_true]
        exact joinFrom_cons_iff hpiece (.inr rfl) hnext hrun

theorem punycodeEncode_iff_aligned {input : Bytes} (hfree : 0 ∉ input)
    (hrun : punycodeEncode input = some output) :
    labelByLabel input = some output ↔ Aligned false (splitDots input) := by
  rw [punycodeEncode_eq_joinFrom hfree] at hrun
  rw [← @joinFrom_iff_aligned _ false _ (splitDots_ne_nil input) hrun, map_leading_false]
  rfl

/-! The buffers between two calls -/

/-- What the buffers of a `struct punycode_ctx` hold. -/
structure PunycodeCtx where
  outbuf : Bytes
  lblbuf : Bytes
deriving DecidableEq

/-- The calls of a run, where `leftover` is what an `encode_label` that fails has appended. -/
def contextLabel (leftover : Bytes → Bytes) (ctx : PunycodeCtx) (label : Bytes) (isAscii : Bool) :
    Except PunycodeCtx PunycodeCtx :=
  if isAscii then .ok { ctx with outbuf := ctx.outbuf ++ label }
  else
    match encodeLabel label with
    | none => .error { ctx with lblbuf := ctx.lblbuf ++ leftover label }
    | some written => .ok { outbuf := ctx.outbuf ++ (ctx.lblbuf ++ written), lblbuf := [] }

/-- The loop of `punycode_encode` on the buffers; `.error` is `return NULL`. -/
def contextLoop (leftover : Bytes → Bytes) (ctx : PunycodeCtx) (label : Bytes) (isAscii : Bool) :
    Bytes → Except PunycodeCtx (PunycodeCtx × Bytes × Bool)
  | [] => .ok (ctx, label, isAscii)
  | ch :: rest =>
    if ch = 0 then .error ctx
    else if ch = dot ∧ label ≠ [] then
      match contextLabel leftover ctx label isAscii with
      | .error ctx => .error ctx
      | .ok ctx => contextLoop leftover { ctx with outbuf := ctx.outbuf ++ [dot] } [] true rest
    else if ch > 0x7f then contextLoop leftover ctx (label ++ [ch]) false rest
    else contextLoop leftover ctx (label ++ [ch]) isAscii rest

/-- `punycode_encode` on a context, and the context it leaves. The result is the contents of
`outbuf`, with the final zero. -/
def punycodeEncodeIn (leftover : Bytes → Bytes) (ctx : PunycodeCtx) (input : Bytes) :
    Option Bytes × PunycodeCtx :=
  let ctx := { ctx with outbuf := [], lblbuf := [] }
  match contextLoop leftover ctx [] true input with
  | .error ctx => (none, ctx)
  | .ok (ctx, label, isAscii) =>
    match if label ≠ [] then contextLabel leftover ctx label isAscii else .ok ctx with
    | .error ctx => (none, ctx)
    | .ok ctx => (some (ctx.outbuf ++ [0]), { outbuf := ctx.outbuf ++ [0], lblbuf := [] })

section
variable (leftover : Bytes → Bytes)

theorem contextLabel_eq (outbuf label : Bytes) (isAscii : Bool) :
    (contextLabel leftover ⟨outbuf, []⟩ label isAscii).toOption =
      (punycodeLabel outbuf label isAscii).map fun outbuf => ⟨outbuf, []⟩ := by
  unfold contextLabel punycodeLabel
  cases isAscii with
  | true => rfl
  | false =>
    cases encodeLabel label with
    | none => rfl
    | some written => rfl

theorem contextLoop_eq (input : Bytes) : ∀ (outbuf label : Bytes) (isAscii : Bool),
    (contextLoop leftover ⟨outbuf, []⟩ label isAscii input).toOption =
      (punycodeLoop outbuf label isAscii input).map fun state => (⟨state.1, []⟩, state.2) := by
  induction input with
  | nil => exact fun _ _ _ => rfl
  | cons ch rest ih =>
    intro outbuf label isAscii
    rw [contextLoop, punycodeLoop]
    by_cases hzero : ch = 0
    · rw [if_pos hzero, if_pos hzero]
      rfl
    rw [if_neg hzero, if_neg hzero]
    by_cases hdot : ch = dot ∧ label ≠ []
    · rw [if_pos hdot, if_pos hdot]
      have hlabel := contextLabel_eq leftover outbuf label isAscii
      cases hcontext : contextLabel leftover ⟨outbuf, []⟩ label isAscii with
      | error ctx =>
        rw [hcontext] at hlabel
        rw [Option.map_eq_none_iff.mp hlabel.symm]
        rfl
      | ok ctx =>
        rw [hcontext] at hlabel
        obtain ⟨written, hwritten, rfl⟩ := Option.map_eq_some_iff.mp hlabel.symm
        rw [hwritten]
        exact ih (written ++ [dot]) [] true
    rw [if_neg hdot, if_neg hdot]
    split
    · exact ih outbuf (label ++ [ch]) false
    · exact ih outbuf (label ++ [ch]) isAscii

theorem punycodeEncodeIn_eq (ctx : PunycodeCtx) (input : Bytes) :
    (punycodeEncodeIn leftover ctx input).1 = (punycodeEncode input).map (· ++ [0]) := by
  unfold punycodeEncodeIn punycodeEncode
  dsimp only
  have hloop := contextLoop_eq leftover input [] [] true
  cases hcontext : contextLoop leftover ⟨[], []⟩ [] true input with
  | error ctx =>
    rw [hcontext] at hloop
    rw [Option.map_eq_none_iff.mp hloop.symm]
    rfl
  | ok state =>
    rw [hcontext] at hloop
    obtain ⟨⟨outbuf, label, isAscii⟩, hstate, rfl⟩ := Option.map_eq_some_iff.mp hloop.symm
    rw [hstate]
    dsimp only
    by_cases hlabel : label ≠ []
    · rw [if_pos hlabel, if_pos hlabel]
      have hlast := contextLabel_eq leftover outbuf label isAscii
      cases hcontextLabel : contextLabel leftover ⟨outbuf, []⟩ label isAscii with
      | error ctx =>
        rw [hcontextLabel] at hlast
        rw [Option.map_eq_none_iff.mp hlast.symm]
        rfl
      | ok ctx =>
        rw [hcontextLabel] at hlast
        obtain ⟨written, hwritten, rfl⟩ := Option.map_eq_some_iff.mp hlast.symm
        rw [hwritten]
        rfl
    · rw [if_neg hlabel, if_neg hlabel]
      rfl

/-- A dot that is not between two labels is encoded with the label behind it. -/
theorem label_by_label_iff {input : Bytes} (hfree : 0 ∉ input)
    (hrun : ∃ ctx, (punycodeEncodeIn leftover ctx input).1 ≠ none) :
    (∀ ctx, (punycodeEncodeIn leftover ctx input).1 = (labelByLabel input).map (· ++ [0])) ↔
      Aligned false (splitDots input) := by
  obtain ⟨start, hstart⟩ := hrun
  rw [punycodeEncodeIn_eq] at hstart
  obtain ⟨output, houtput⟩ := Option.ne_none_iff_exists'.mp
    fun h : punycodeEncode input = none => hstart (by rw [h]; rfl)
  rw [← punycodeEncode_iff_aligned hfree houtput]
  simp only [punycodeEncodeIn_eq, houtput]
  constructor
  · intro h
    obtain ⟨joined, hjoined, heq⟩ := Option.map_eq_some_iff.mp (h start).symm
    rw [hjoined, List.append_cancel_right heq]
  · intro h _
    rw [h]

end

theorem label_by_label_in_domain :
    (punycodeEncodeIn id ⟨[1], [2]⟩ [0x62, 0xc3, 0xbc, 0x2e, 0x2e, 0x63]).1 =
      (labelByLabel [0x62, 0xc3, 0xbc, 0x2e, 0x2e, 0x63]).map (· ++ [0]) :=
  (label_by_label_iff id (by decide) ⟨⟨[], []⟩, by decide⟩).mpr (by decide)
    ⟨[1], [2]⟩

/-- `.é` -/
theorem leading_dot_encoded : ¬ ∀ (leftover : Bytes → Bytes) (input : Bytes), 0 ∉ input →
    (∃ ctx, (punycodeEncodeIn leftover ctx input).1 ≠ none) →
      ∀ ctx, (punycodeEncodeIn leftover ctx input).1 =
        (labelByLabel input).map (· ++ [0]) := by
  intro h
  have heq := h id [0x2e, 0xc3, 0xa9] (by decide) ⟨⟨[], []⟩, by decide⟩ ⟨[], []⟩
  exact absurd heq (by decide)

end Yans.Net.Punycode
