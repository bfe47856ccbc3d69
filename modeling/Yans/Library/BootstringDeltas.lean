import Yans.Library.Bootstring

/-! The values that `delta` takes while a text is encoded. They are determined by where
the code points are. -/
namespace Yans.Library.Bootstring

variable (p : Params)

/-- The values of `delta` in a pass. -/
def Encoder.passValues (reduce : ℕ → ℕ) (b : ℕ) (cps : List ℕ) (e : Encoder) : List ℕ :=
  (cps.scanl (Encoder.round p b) (e.jump reduce cps)).map Encoder.delta ++
    [(e.pass p reduce b cps).delta]

/-- The values of `delta` in `encodeLoop`. -/
def valuesLoop (reduce : ℕ → ℕ) (b : ℕ) (cps : List ℕ) : ℕ → Encoder → List ℕ
  | 0, _ => []
  | rounds + 1, e =>
    if e.h < cps.length then
      e.passValues p reduce b cps ++ valuesLoop reduce b cps rounds (e.pass p reduce b cps)
    else []

def values (reduce : ℕ → ℕ) (cps : List ℕ) : List ℕ :=
  valuesLoop p reduce (basics p cps).length cps cps.length (initial p cps)

/-- How many smaller code points stand in front of the first `m` and behind the last one. -/
def ahead (cps : List ℕ) (m : ℕ) : ℕ := (cps.takeWhile (· ≠ m)).countP (· < m)

def trailing (cps : List ℕ) (m : ℕ) : ℕ := (cps.rtakeWhile (· ≠ m)).countP (· < m)

/-- The code point that is inserted before `m`. -/
def previous (cps : List ℕ) (m : ℕ) : Option ℕ :=
  (cps.filter fun c => p.initialN ≤ c ∧ c < m).max?

/-- What `delta` is when the next code point is `m`. -/
def distance (cps : List ℕ) (m : ℕ) : ℕ :=
  let below := (cps.filter (· < m)).length
  match previous p cps m with
  | none => (m - p.initialN) * (below + 1)
  | some q => 1 + trailing cps q + (m - (q + 1)) * (below + 1)

section Pass

variable {p} {limit b : ℕ} {cps : List ℕ}

theorem scanl_lt_of_add_lt : ∀ {cps : List ℕ} {e : Encoder}, e.delta + cps.length < limit →
    ∀ v ∈ (cps.scanl (Encoder.round p b) e).map Encoder.delta, v < limit := by
  intro cps
  induction cps with
  | nil =>
    intro e h
    rw [List.scanl_nil]
    exact List.forall_mem_singleton.mpr h
  | cons c cps ih =>
    intro e h
    rw [List.length_cons] at h
    rw [List.scanl_cons, List.map_cons]
    refine List.forall_mem_cons.mpr ⟨by omega, ih ?_⟩
    unfold Encoder.round
    split
    · dsimp only
      omega
    split
    · omega
    · dsimp only
      omega

theorem scanl_lt_iff : ∀ {cps : List ℕ}, cps.length < limit → ∀ {e : Encoder},
    (∀ v ∈ (cps.scanl (Encoder.round p b) e).map Encoder.delta, v < limit) ↔
      e.delta + ahead cps e.n < limit := by
  intro cps
  induction cps with
  | nil =>
    intro _ e
    rw [List.scanl_nil]
    exact List.forall_mem_singleton
  | cons c cps ih =>
    intro hlength e
    rw [List.length_cons] at hlength
    rw [List.scanl_cons, List.map_cons, List.forall_mem_cons]
    have hround := @ih (by omega) (e.round p b c)
    rw [round_n] at hround
    unfold ahead at hround ⊢
    obtain hless | heq | hmore := Nat.lt_trichotomy c e.n
    · rw [hround, List.takeWhile_cons_of_pos (by simpa using hless.ne),
        List.countP_cons_of_pos (by simpa using hless), Encoder.round, if_pos hless]
      dsimp only
      omega
    · have hinserted : (e.round p b c).delta = 0 := by
        rw [Encoder.round, if_neg heq.not_lt, if_neg heq.not_gt]
      rw [List.takeWhile_cons_of_neg (by simpa using heq), List.countP_nil, Nat.add_zero]
      refine and_iff_left (scanl_lt_of_add_lt ?_)
      omega
    · rw [hround, List.takeWhile_cons_of_pos (by simpa using hmore.ne'),
        List.countP_cons_of_neg (by simpa using hmore.le), Encoder.round, if_neg hmore.asymm,
        if_pos hmore]
      omega

theorem foldl_delta {e : Encoder} (h : e.n ∈ cps) :
    (cps.foldl (Encoder.round p b) e).delta = trailing cps e.n := by
  induction cps using List.reverseRecOn with
  | nil => cases h
  | append_singleton cps c ih =>
    have hn := foldl_round_n (p := p) b cps e
    rw [List.foldl_append, List.foldl_cons, List.foldl_nil]
    unfold trailing at ih ⊢
    generalize cps.foldl (Encoder.round p b) e = last at ih hn ⊢
    rw [Encoder.round, hn]
    have hmem : c ≠ e.n → e.n ∈ cps := by
      intro hne
      obtain hmem | hmem := List.mem_append.mp h
      · exact hmem
      · exact absurd (List.mem_singleton.mp hmem).symm hne
    obtain hless | heq | hmore := Nat.lt_trichotomy c e.n
    · rw [if_pos hless, List.rtakeWhile_concat_pos _ _ _ (by simpa using hless.ne),
        List.countP_append, ← ih (hmem hless.ne)]
      simp [hless]
    · rw [if_neg heq.not_lt, if_neg heq.not_gt,
        List.rtakeWhile_concat_neg _ _ _ (by simpa using heq)]
      rfl
    · rw [if_neg hmore.asymm, if_pos hmore,
        List.rtakeWhile_concat_pos _ _ _ (by simpa using hmore.ne'), List.countP_append,
        ← ih (hmem hmore.ne')]
      simp [hmore.le]

theorem trailing_lt {m : ℕ} (h : m ∈ cps) : trailing cps m < cps.length := by
  have hsuffix := List.rtakeWhile_suffix (· ≠ m) cps
  refine List.countP_le_length.trans_lt (Nat.lt_of_not_le fun hle => ?_)
  have hwhole := hsuffix.eq_of_length (Nat.le_antisymm hsuffix.length_le hle)
  have hne := List.mem_rtakeWhile_imp (hwhole.symm ▸ h)
  simp at hne

theorem passValues_lt_iff (reduce : ℕ → ℕ) {e : Encoder} (hlength : cps.length < limit)
    (hmore : ∃ c ∈ cps, e.n ≤ c) :
    (∀ v ∈ e.passValues p reduce b cps, v < limit) ↔
      (e.jump reduce cps).delta + ahead cps (least cps e.n) < limit := by
  have hmem := (least_spec hmore).1
  have hlast : (e.pass p reduce b cps).delta = trailing cps (least cps e.n) + 1 :=
    congrArg (· + 1) (foldl_delta (p := p) (e := e.jump reduce cps) hmem)
  have htrailing := trailing_lt hmem
  unfold Encoder.passValues
  rw [List.forall_mem_append, scanl_lt_iff hlength, List.forall_mem_singleton, hlast]
  exact and_iff_left (by omega)

end Pass

/-- What `delta` is between two passes. -/
def Starts (cps : List ℕ) (e : Encoder) : Prop :=
  e.n = p.initialN ∧ e.delta = 0 ∨
    ∃ q ∈ cps, p.initialN ≤ q ∧ e.n = q + 1 ∧ e.delta = 1 + trailing cps q

section Passes

variable {p} {limit b : ℕ} {cps : List ℕ} {e : Encoder}

theorem Starts.initialN_le (h : Starts p cps e) : p.initialN ≤ e.n := by
  obtain ⟨hn, -⟩ | ⟨q, -, hq, hn, -⟩ := h
  · exact hn.ge
  · omega

theorem Starts.pass (reduce : ℕ → ℕ) (b : ℕ) (h : Starts p cps e) (hmore : ∃ c ∈ cps, e.n ≤ c) :
    Starts p cps (e.pass p reduce b cps) := by
  obtain ⟨hmem, hge, -⟩ := least_spec hmore
  refine .inr ⟨least cps e.n, hmem, h.initialN_le.trans hge, pass_n reduce b cps e, ?_⟩
  rw [Nat.add_comm]
  exact congrArg (· + 1) (foldl_delta (p := p) (e := e.jump reduce cps) hmem)

theorem Starts.distance_eq (h : Starts p cps e) (hbetween : Between cps e)
    (hmore : ∃ c ∈ cps, e.n ≤ c) :
    e.delta + (least cps e.n - e.n) * (e.h + 1) = distance p cps (least cps e.n) := by
  obtain ⟨hmem, hge, hleast⟩ := least_spec hmore
  have hsmaller : ∀ c ∈ cps, c < least cps e.n → c < e.n := by
    intro c hc hlt
    by_contra hn
    exact absurd (hleast c hc (Nat.not_lt.mp hn)) (Nat.not_le.mpr hlt)
  unfold distance
  rw [filter_lt_least hmore, ← hbetween]
  obtain ⟨hn, hdelta⟩ | ⟨q, hq, hbasic, hn, hdelta⟩ := h
  · have hnone : previous p cps (least cps e.n) = none := by
      unfold previous
      rw [List.max?_eq_none_iff, List.filter_eq_nil_iff]
      intro c hc hrange
      obtain ⟨hinitial, hlt⟩ := of_decide_eq_true hrange
      exact absurd (hsmaller c hc hlt) (Nat.not_lt.mpr (hn ▸ hinitial))
    rw [hnone, hdelta, hn, Nat.zero_add]
  · have hsome : previous p cps (least cps e.n) = some q := by
      refine List.max?_eq_some_iff.mpr ⟨?_, ?_⟩
      · exact List.mem_filter.mpr ⟨hq, decide_eq_true ⟨hbasic, by omega⟩⟩
      · intro c hc
        obtain ⟨hc, hrange⟩ := List.mem_filter.mp hc
        have hlt := hsmaller c hc (of_decide_eq_true hrange).2
        omega
    rw [hsome, hdelta, hn]

theorem valuesLoop_lt_iff (reduce : ℕ → ℕ) (hlength : cps.length < limit) (rounds : ℕ) :
    ∀ {e : Encoder}, Starts p cps e → Between cps e → cps.length ≤ e.h + rounds →
      ((∀ v ∈ valuesLoop p reduce b cps rounds e, v < limit) ↔
        ∀ m ∈ cps, e.n ≤ m → reduce (distance p cps m) + ahead cps m < limit) := by
  have hdone : ∀ {e : Encoder}, Between cps e → cps.length ≤ e.h →
      ∀ m ∈ cps, e.n ≤ m → reduce (distance p cps m) + ahead cps m < limit := by
    intro e hbetween hall m hm hge
    rw [hbetween] at hall
    have hkept := (List.filter_sublist (p := (· < e.n)) (l := cps)).eq_of_length_le hall
    rw [← hkept] at hm
    exact absurd (of_decide_eq_true (List.mem_filter.mp hm).2) (Nat.not_lt.mpr hge)
  induction rounds with
  | zero =>
    intro e _ hbetween hall
    exact iff_of_true nofun (hdone hbetween hall)
  | succ rounds ih =>
    intro e hstarts hbetween hall
    rw [valuesLoop]
    by_cases hshort : e.h < cps.length
    · have hmore := hbetween.more hshort
      obtain ⟨hmem, hge, hleast⟩ := least_spec hmore
      obtain ⟨hpass, hprogress⟩ := hbetween.pass (p := p) reduce b hshort
      rw [if_pos hshort, List.forall_mem_append, passValues_lt_iff reduce hlength hmore,
        ih (hstarts.pass reduce b hmore) hpass (by omega), pass_n]
      have hjump : (e.jump reduce cps).delta = reduce (distance p cps (least cps e.n)) :=
        congrArg reduce (hstarts.distance_eq hbetween hmore)
      rw [hjump]
      constructor
      · rintro ⟨hfirst, hlater⟩ m hm hn
        obtain heq | hlt := (hleast m hm hn).eq_or_lt
        · exact heq ▸ hfirst
        · exact hlater m hm hlt
      · exact fun h => ⟨h _ hmem hge, fun m hm hlt => h m hm (by omega)⟩
    · rw [if_neg hshort]
      exact iff_of_true nofun (hdone hbetween (Nat.not_lt.mp hshort))

theorem encodeLoop_congr {reduce : ℕ → ℕ} (rounds : ℕ) : ∀ {e : Encoder}, Starts p cps e →
    Between cps e →
    (∀ m ∈ cps, e.n ≤ m → reduce (distance p cps m) = distance p cps m) →
    encodeLoop p reduce b cps rounds e = encodeLoop p id b cps rounds e := by
  induction rounds with
  | zero => exact fun _ _ _ => rfl
  | succ rounds ih =>
    intro e hstarts hbetween hsame
    rw [encodeLoop, encodeLoop]
    by_cases hshort : e.h < cps.length
    · have hmore := hbetween.more hshort
      obtain ⟨hmem, hge, -⟩ := least_spec hmore
      have hjump : e.jump reduce cps = e.jump id cps := by
        unfold Encoder.jump
        rw [hstarts.distance_eq hbetween hmore, hsame _ hmem hge]
        rfl
      have hpass : e.pass p reduce b cps = e.pass p id b cps := by
        rw [Encoder.pass, hjump, Encoder.pass]
      rw [if_pos hshort, if_pos hshort, hpass]
      refine ih (hstarts.pass id b hmore) (hbetween.pass id b hshort).1 fun m hm hn => ?_
      rw [pass_n] at hn
      exact hsame m hm (by omega)
    · rw [if_neg hshort, if_neg hshort]

end Passes

theorem starts_initial (cps : List ℕ) : Starts p cps (initial p cps) := .inl ⟨rfl, rfl⟩

theorem between_initial (cps : List ℕ) : Between cps (initial p cps) := rfl

theorem previous_mem {cps : List ℕ} {m q : ℕ} (h : previous p cps m = some q) : q ∈ cps :=
  (List.mem_filter.mp (List.max?_eq_some_iff.mp h).1).1

theorem distance_le (cps : List ℕ) (m : ℕ) :
    distance p cps m ≤ cps.length + m * (cps.length + 1) := by
  have hbelow : (cps.filter (· < m)).length + 1 ≤ cps.length + 1 :=
    Nat.succ_le_succ (List.length_filter_le _ _)
  unfold distance
  cases hprevious : previous p cps m with
  | none =>
    refine le_trans ?_ (Nat.le_add_left _ _)
    exact Nat.mul_le_mul (Nat.sub_le _ _) hbelow
  | some q =>
    have htrailing := trailing_lt (previous_mem p hprevious)
    refine Nat.add_le_add (by omega) ?_
    exact Nat.mul_le_mul (Nat.sub_le _ _) hbelow

theorem ahead_le (cps : List ℕ) (m : ℕ) : ahead cps m ≤ cps.length :=
  List.countP_le_length.trans (List.takeWhile_prefix _).length_le

theorem values_lt_iff (reduce : ℕ → ℕ) {cps : List ℕ} {limit : ℕ} (hlength : cps.length < limit) :
    (∀ v ∈ values p reduce cps, v < limit) ↔
      ∀ m ∈ cps, p.initialN ≤ m → reduce (distance p cps m) + ahead cps m < limit :=
  valuesLoop_lt_iff reduce hlength cps.length (starts_initial p cps) (between_initial p cps)
    (Nat.le_add_left _ _)

theorem encode_congr {reduce : ℕ → ℕ} {cps : List ℕ}
    (hsame : ∀ m ∈ cps, p.initialN ≤ m → reduce (distance p cps m) = distance p cps m) :
    encode p reduce cps = encode p id cps :=
  congrArg Encoder.digits
    (encodeLoop_congr cps.length (starts_initial p cps) (between_initial p cps) hsame)

end Yans.Library.Bootstring
