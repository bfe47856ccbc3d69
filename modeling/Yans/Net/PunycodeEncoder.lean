import Yans.Library.BootstringDeltas
import Yans.Net.Punycode

/-! `encode_label` is Bootstring with the parameters of Punycode, where the value of
`delta` is taken modulo 2^32 at each jump and a value from 2^31 on is an overflow. -/
namespace Yans.Net.Punycode

open Library Library.Memory Util.U8

def params : Bootstring.Params where
  base := 36
  tmin := 1
  tmax := 26
  skew := 38
  damp := 700
  initialBias := 72
  initialN := 128
  tmin_pos := by decide
  tmin_le := by decide
  tmax_lt := by decide
  two_le := by decide

/-- What an addition makes of `delta` before its sign is tested. -/
def wrapped (delta : ℕ) : ℕ := delta % 2 ^ 32

/-! Arithmetic that stays in range -/

theorem wrap_of_lt {x : ℤ} (hnonneg : 0 ≤ x) (h : x < 2 ^ 31) : wrap x = x :=
  Int.bmod_eq_of_le (by omega) (by omega)

theorem wrap_natCast (x : ℕ) :
    (wrapped x < 2 ^ 31 → wrap x = wrapped x) ∧ (¬ wrapped x < 2 ^ 31 → wrap x < 0) := by
  unfold wrap wrapped
  rw [Int.bmod_eq_emod]
  constructor
  · intro h
    rw [if_neg (by omega)]
    omega
  · intro h
    rw [if_pos (by omega)]
    omega

theorem threshold_agrees (bias k : ℕ) :
    threshold k bias = (Bootstring.threshold params bias k : ℕ) := by
  unfold threshold Bootstring.threshold bsTmin bsTmax params
  dsimp only
  split_ifs <;> omega

theorem adaptLoop_agrees (rounds : ℕ) : ∀ {delta k : ℕ}, delta ≤ rounds →
    ((adaptLoop rounds delta k).2 +
      ((bsBase - bsTmin + 1) * (adaptLoop rounds delta k).1).tdiv
        ((adaptLoop rounds delta k).1 + bsSkew) : ℤ) =
      (Bootstring.adaptLoop params delta k : ℕ) := by
  induction rounds with
  | zero =>
    intro delta k h
    obtain rfl := Nat.le_zero.mp h
    rw [Bootstring.adaptLoop, dif_neg (Nat.not_lt_zero _), adaptLoop]
    rfl
  | succ rounds ih =>
    intro delta k h
    rw [Bootstring.adaptLoop, adaptLoop]
    by_cases hbig : delta > 455
    · have hbound : ((delta : ℤ) > ((bsBase - bsTmin) * bsTmax).tdiv 2) := by
        change (delta : ℤ) > 455
        omega
      have hdiv : (delta : ℤ).tdiv (bsBase - bsTmin) = (delta / 35 : ℕ) := rfl
      have hk : (k : ℤ) + bsBase = (k + 36 : ℕ) := rfl
      rw [dif_pos (show delta > (params.base - params.tmin) * params.tmax / 2 from hbig),
        if_pos hbound, hdiv, hk]
      exact ih (by omega)
    · have hbound : ¬ ((delta : ℤ) > ((bsBase - bsTmin) * bsTmax).tdiv 2) := by
        change ¬ (delta : ℤ) > 455
        omega
      rw [dif_neg (show ¬ delta > (params.base - params.tmin) * params.tmax / 2 from hbig),
        if_neg hbound]
      rfl

theorem adapt_agrees {delta npoints : ℕ} (hdelta : delta < 2 ^ 31) (firstTime : Bool) :
    adapt delta npoints firstTime = (Bootstring.adapt params delta npoints firstTime : ℕ) := by
  unfold adapt Bootstring.adapt
  dsimp only
  have hdiv : (delta : ℤ).tdiv (if firstTime = true then bsDamp else 2) =
      (delta / (if firstTime = true then params.damp else 2) : ℕ) := by
    cases firstTime with
    | true => rfl
    | false => rfl
  have hhalf : delta / (if firstTime = true then params.damp else 2) < 2 ^ 30 := by
    cases firstTime with
    | true =>
      change delta / 700 < 2 ^ 30
      omega
    | false =>
      change delta / 2 < 2 ^ 30
      omega
  rw [hdiv]
  generalize delta / (if firstTime = true then params.damp else 2) = half at hhalf ⊢
  have hquotient : half / npoints ≤ half := Nat.div_le_self _ _
  have hsum : wrap ((half : ℤ) + (half : ℤ).tdiv npoints) = (half + half / npoints : ℕ) := by
    change wrap ((half + half / npoints : ℕ) : ℤ) = _
    generalize half / npoints = quotient at hquotient ⊢
    exact wrap_of_lt (by omega) (by omega)
  rw [hsum]
  exact adaptLoop_agrees _ le_rfl

def digitText (digits : List ℕ) : Bytes := digits.map fun digit : ℕ => encDigit digit

theorem digitText_append (digits more : List ℕ) :
    digitText (digits ++ more) = digitText digits ++ digitText more :=
  List.map_append

theorem digitLoop_agrees (bias : ℕ) (rounds : ℕ) : ∀ {k q : ℕ}, q ≤ rounds →
    digitLoop bias rounds k q = digitText (Bootstring.encodeInt params bias k q) := by
  induction rounds with
  | zero =>
    intro k q h
    obtain rfl := Nat.le_zero.mp h
    rw [digitLoop, Bootstring.encodeInt, dif_pos (Bootstring.threshold_pos _ _ _)]
    rfl
  | succ rounds ih =>
    intro k q h
    have hlt : Bootstring.threshold params bias k < 36 := Bootstring.threshold_lt params bias k
    rw [digitLoop, Bootstring.encodeInt, threshold_agrees]
    by_cases hlast : q < Bootstring.threshold params bias k
    · rw [if_pos (by omega), dif_pos hlast]
      rfl
    · have hrest := Bootstring.rest_lt params hlast
      rw [if_neg (by omega), dif_neg hlast, digitText, List.map_cons, ← digitText,
        ← ih (Nat.le_of_lt_succ (hrest.trans_le h))]
      generalize Bootstring.threshold params bias k = t at hlt hlast
      have hq : (q : ℤ) - t = (q - t : ℕ) := by omega
      have hbase : bsBase - t = (36 - t : ℕ) := by
        unfold bsBase
        omega
      rw [hq, hbase]
      rfl

def numbers (cps : List UInt32) : List ℕ := cps.map UInt32.toNat

theorem leastRound_foldl (n : ℤ) (cps : List UInt32) : ∀ m : ℤ,
    (cps.foldl (leastRound n) m = m ∨ ∃ c ∈ numbers cps, cps.foldl (leastRound n) m = c ∧ n ≤ c) ∧
      cps.foldl (leastRound n) m ≤ m ∧
      ∀ c ∈ numbers cps, n ≤ c → cps.foldl (leastRound n) m ≤ c := by
  induction cps with
  | nil => exact fun m => ⟨.inl rfl, le_rfl, List.forall_mem_nil _⟩
  | cons r cps ih =>
    intro m
    obtain ⟨hfrom, hle, hleast⟩ := ih (leastRound n m r)
    have hround : leastRound n m r ≤ m ∧ (n ≤ r.toNat → leastRound n m r ≤ r.toNat) ∧
        (leastRound n m r = m ∨ leastRound n m r = r.toNat ∧ n ≤ r.toNat) := by
      unfold leastRound
      split
      · omega
      · omega
    obtain ⟨hstep, hsmall, hvalue⟩ := hround
    rw [List.foldl_cons]
    refine ⟨?_, hle.trans hstep, ?_⟩
    · obtain hsame | ⟨c, hc, heq, hn⟩ := hfrom
      · rw [hsame]
        obtain hm | ⟨hr, hn⟩ := hvalue
        · exact .inl hm
        · exact .inr ⟨r.toNat, List.mem_cons_self, hr, hn⟩
      · exact .inr ⟨c, List.mem_cons_of_mem _ hc, heq, hn⟩
    · intro c hc hn
      obtain rfl | hc := List.mem_cons.mp hc
      · exact hle.trans (hsmall hn)
      · exact hleast c hc hn

theorem leastRound_agrees {cps : List UInt32} {n : ℕ} (hmore : ∃ c ∈ numbers cps, n ≤ c)
    (hsmall : ∀ c ∈ numbers cps, c < 0x7fffffff) :
    cps.foldl (leastRound n) 0x7fffffff = (Bootstring.least (numbers cps) n : ℕ) := by
  obtain ⟨hmem, hge, hleast⟩ := Bootstring.least_spec hmore
  obtain ⟨hfrom, -, hle⟩ := leastRound_foldl n cps 0x7fffffff
  have hbound := hle _ hmem (by omega)
  have hfits := hsmall _ hmem
  obtain hnone | ⟨c, hc, heq, hn⟩ := hfrom
  · omega
  · have hc := hleast c hc (by omega)
    omega

/-- The variables of the code are those of the algorithm; `front` is what was written
before the first digit. -/
structure Agrees (cps : List ℕ) (front : Bytes) (l : Label) (e : Bootstring.Encoder) : Prop where
  delta : l.delta = e.delta
  n : l.n = e.n
  bias : l.bias = e.bias
  h_eq : l.h = e.h
  b : l.b = (Bootstring.basics params cps).length
  remaining : l.remaining = cps.length - e.h
  buf : l.buf = front ++ digitText e.digits

section Loops

variable {cps : List UInt32} {front : Bytes} {l : Label} {e : Bootstring.Encoder}

theorem Agrees.round (h : Agrees (numbers cps) front l e) (hlength : cps.length < 2 ^ 31)
    (hdelta : e.delta < 2 ^ 31) {r : UInt32} (hroom : r.toNat = e.n → e.h < cps.length) :
    let next := e.round params (Bootstring.basics params (numbers cps)).length r.toNat
    next.delta < 2 ^ 31 ∧ (∃ l', encodeRound l r = some l' ∧ Agrees (numbers cps) front l' next) ∨
      ¬ next.delta < 2 ^ 31 ∧ encodeRound l r = none := by
  unfold encodeRound Bootstring.Encoder.round
  rw [h.n]
  obtain hless | heq | hmore := Nat.lt_trichotomy r.toNat e.n
  · have hnext : wrap (l.delta + 1) = wrap ((e.delta + 1 : ℕ) : ℤ) := by
      rw [h.delta]
      rfl
    obtain ⟨hfits, hover⟩ := wrap_natCast (e.delta + 1)
    have hwrapped : wrapped (e.delta + 1) = e.delta + 1 := Nat.mod_eq_of_lt (by omega)
    rw [hwrapped] at hfits hover
    rw [if_pos (show (r.toNat : ℤ) < e.n by omega), if_pos hless, hnext]
    by_cases hsmall : e.delta + 1 < 2 ^ 31
    · rw [hfits hsmall, if_neg (by omega)]
      exact .inl ⟨hsmall, _, rfl, rfl, rfl, h.bias, h.h_eq, h.b, h.remaining, h.buf⟩
    · rw [if_pos (hover hsmall)]
      exact .inr ⟨hsmall, rfl⟩
  · have hshort := hroom heq
    have hnext : wrap (l.h + 1) = (e.h + 1 : ℕ) := by
      rw [h.h_eq]
      exact wrap_of_lt (by omega) (by omega)
    have hremaining : wrap (l.remaining - 1) = (numbers cps).length - (e.h + 1 : ℕ) := by
      have hleft := h.remaining
      rw [numbers, List.length_map] at hleft ⊢
      rw [wrap_of_lt (by omega) (by omega)]
      omega
    have hfirst : decide (l.h = l.b) =
        decide (e.h = (Bootstring.basics params (numbers cps)).length) := by
      rw [h.h_eq, h.b]
      exact decide_eq_decide.mpr Int.ofNat_inj
    rw [if_neg (show ¬ (r.toNat : ℤ) < e.n by omega), if_neg (show ¬ (r.toNat : ℤ) > e.n by omega),
      if_neg heq.not_lt, if_neg heq.not_gt, hnext, hfirst,
      hremaining, h.delta, h.bias, Int.toNat_natCast, adapt_agrees hdelta]
    have hdigits : digitLoop e.bias e.delta bsBase e.delta =
        digitText (Bootstring.encodeInt params e.bias params.base e.delta) :=
      digitLoop_agrees e.bias e.delta le_rfl
    refine .inl ⟨Nat.two_pow_pos 31, _, rfl, rfl, rfl, rfl, rfl, h.b, rfl, ?_⟩
    rw [h.buf, hdigits, digitText_append, List.append_assoc]
  · rw [if_neg (show ¬ (r.toNat : ℤ) < e.n by omega), if_pos (show (r.toNat : ℤ) > e.n by omega),
      if_neg hmore.asymm, if_pos hmore]
    exact .inl ⟨hdelta, l, rfl, h⟩

theorem Agrees.fold (hlength : cps.length < 2 ^ 31) (rest : List UInt32) :
    ∀ {l : Label} {e : Bootstring.Encoder}, Agrees (numbers cps) front l e → e.delta < 2 ^ 31 →
    e.h + (numbers rest).count e.n ≤ cps.length →
    let step := Bootstring.Encoder.round params (Bootstring.basics params (numbers cps)).length
    let fits := ∀ v ∈ ((numbers rest).scanl step e).map Bootstring.Encoder.delta, v < 2 ^ 31
    fits ∧ (∃ l', rest.foldlM encodeRound l = some l' ∧
        Agrees (numbers cps) front l' ((numbers rest).foldl step e)) ∨
      ¬ fits ∧ rest.foldlM encodeRound l = none := by
  induction rest with
  | nil =>
    intro l e h hdelta _
    exact .inl ⟨List.forall_mem_singleton.mpr hdelta, l, rfl, h⟩
  | cons r rest ih =>
    intro l e h hdelta hroom
    have hcount : (numbers (r :: rest)).count e.n =
        (numbers rest).count e.n + if r.toNat = e.n then 1 else 0 := by
      rw [numbers, List.map_cons, List.count_cons, ← numbers]
      simp
    rw [hcount] at hroom
    have hscan : ∀ step : Bootstring.Encoder → ℕ → Bootstring.Encoder,
        (numbers (r :: rest)).scanl step e = e :: (numbers rest).scanl step (step e r.toNat) :=
      fun _ => List.scanl_cons
    dsimp only
    rw [hscan, List.map_cons, List.forall_mem_cons, List.foldlM_cons]
    have hshort : r.toNat = e.n → e.h < cps.length := by
      intro heq
      rw [if_pos heq] at hroom
      omega
    obtain ⟨hsmall, l', hrun, hagrees⟩ | ⟨hlarge, hrun⟩ := h.round hlength hdelta hshort
    · rw [hrun]
      have hnext := ih hagrees hsmall (by
        rw [Bootstring.round_n, Bootstring.round_h]
        omega)
      obtain ⟨hfits, hsome⟩ | ⟨hover, hnone⟩ := hnext
      · exact .inl ⟨⟨hdelta, hfits⟩, hsome⟩
      · exact .inr ⟨fun hall => hover hall.2, hnone⟩
    · refine .inr ⟨fun hall => hlarge ?_, ?_⟩
      · refine hall.2 _ ?_
        cases hrest : numbers rest with
        | nil => exact List.mem_singleton.mpr rfl
        | cons c more =>
          rw [List.scanl_cons]
          exact List.mem_cons_self
      · rw [hrun]
        rfl

theorem Agrees.jump (h : Agrees (numbers cps) front l e)
    (hsmall : ∀ c ∈ numbers cps, c < 0x7fffffff) (hmore : ∃ c ∈ numbers cps, e.n ≤ c) :
    let m := cps.foldl (leastRound l.n) 0x7fffffff
    let delta := wrap (l.delta + (m - l.n) * (l.h + 1))
    let next := e.jump wrapped (numbers cps)
    next.delta < 2 ^ 31 ∧ 0 ≤ delta ∧ Agrees (numbers cps) front { l with delta, n := m } next ∨
      ¬ next.delta < 2 ^ 31 ∧ delta < 0 := by
  have hge := (Bootstring.least_spec hmore).2.1
  have hleast := leastRound_agrees hmore hsmall
  have hgap : ((Bootstring.least (numbers cps) e.n : ℕ) : ℤ) - e.n =
      (Bootstring.least (numbers cps) e.n - e.n : ℕ) := by
    omega
  have hsum : (e.delta : ℤ) + (Bootstring.least (numbers cps) e.n - e.n : ℕ) * (e.h + 1) =
      (e.delta + (Bootstring.least (numbers cps) e.n - e.n) * (e.h + 1) : ℕ) := by
    push_cast
    rfl
  dsimp only
  rw [h.n, hleast, hgap, h.delta, h.h_eq, hsum]
  obtain ⟨hfits, hover⟩ :=
    wrap_natCast (e.delta + (Bootstring.least (numbers cps) e.n - e.n) * (e.h + 1))
  by_cases hbig : wrapped (e.delta + (Bootstring.least (numbers cps) e.n - e.n) * (e.h + 1)) <
      2 ^ 31
  · rw [hfits hbig]
    exact .inl ⟨hbig, Int.natCast_nonneg _, rfl, rfl, h.bias, rfl, h.b, h.remaining, h.buf⟩
  · exact .inr ⟨hbig, hover hbig⟩

/-- The induction is on the rounds; each of them inserts something. -/
theorem Agrees.loop (hlength : cps.length < 2 ^ 31) (hsmall : ∀ c ∈ numbers cps, c < 0x7fffffff)
    (rounds : ℕ) : ∀ {l : Label} {e : Bootstring.Encoder}, Agrees (numbers cps) front l e →
    Bootstring.Between (numbers cps) e → cps.length ≤ e.h + rounds →
    let b := (Bootstring.basics params (numbers cps)).length
    let fits := ∀ v ∈ Bootstring.valuesLoop params wrapped b (numbers cps) rounds e, v < 2 ^ 31
    fits ∧ (∃ l', encodeLoop cps rounds l = some l' ∧ l'.buf = front ++
        digitText (Bootstring.encodeLoop params wrapped b (numbers cps) rounds e).digits) ∨
      ¬ fits ∧ encodeLoop cps rounds l = none := by
  have hnumbers : (numbers cps).length = cps.length := List.length_map _
  have hbound : ∀ {e : Bootstring.Encoder}, Bootstring.Between (numbers cps) e →
      e.h ≤ cps.length := by
    intro e hbetween
    rw [hbetween, ← hnumbers]
    exact List.length_filter_le _ _
  induction rounds with
  | zero =>
    intro l e h hbetween hall
    have hremaining := h.remaining
    have hle := hbound hbetween
    rw [encodeLoop, if_pos (by omega)]
    exact .inl ⟨List.forall_mem_nil _, l, rfl, h.buf⟩
  | succ rounds ih =>
    intro l e h hbetween hall
    have hremaining := h.remaining
    have hle := hbound hbetween
    dsimp only
    rw [encodeLoop, Bootstring.valuesLoop, Bootstring.encodeLoop]
    by_cases hshort : e.h < (numbers cps).length
    · have hmore := hbetween.more hshort
      have hmem := (Bootstring.least_spec hmore).1
      rw [if_neg (show ¬ l.remaining = 0 by omega), if_pos hshort, if_pos hshort]
      rw [List.forall_mem_append, Bootstring.Encoder.passValues, List.forall_mem_append]
      obtain ⟨hdelta, hnonneg, hjump⟩ | ⟨hover, hnegative⟩ := h.jump hsmall hmore
      · rw [if_neg (Int.not_lt.mpr hnonneg)]
        have hroom : (e.jump wrapped (numbers cps)).h + (numbers cps).count
            (e.jump wrapped (numbers cps)).n ≤ cps.length := by
          change e.h + (numbers cps).count (Bootstring.least (numbers cps) e.n) ≤ _
          rw [hbetween, ← Bootstring.filter_lt_least hmore, ← Bootstring.length_filter_succ,
            ← hnumbers]
          exact List.length_filter_le _ _
        obtain ⟨hfits, l', hrun, hagrees⟩ | ⟨hover, hrun⟩ := hjump.fold hlength cps hdelta hroom
        · -- the pass goes through, and the last value fits
          have hlast : (e.pass params wrapped
              (Bootstring.basics params (numbers cps)).length (numbers cps)).delta < 2 ^ 31 := by
            have htrailing := Bootstring.trailing_lt hmem
            have hfold := Bootstring.foldl_delta (p := params)
              (b := (Bootstring.basics params (numbers cps)).length)
              (e := e.jump wrapped (numbers cps)) hmem
            unfold Bootstring.Encoder.pass Bootstring.Encoder.next
            rw [hfold]
            change Bootstring.trailing (numbers cps) (Bootstring.least (numbers cps) e.n) + 1 < _
            omega
          have hn : (Bootstring.least (numbers cps) e.n) < 0x7fffffff := hsmall _ hmem
          have hpassN := Bootstring.pass_n (p := params) wrapped
            (Bootstring.basics params (numbers cps)).length (numbers cps) e
          have hnext : Agrees (numbers cps) front
              { l' with delta := wrap (l'.delta + 1), n := wrap (l'.n + 1) }
              (e.pass params wrapped (Bootstring.basics params (numbers cps)).length
                (numbers cps)) := by
            refine ⟨?_, ?_, hagrees.bias, hagrees.h_eq, hagrees.b, hagrees.remaining, hagrees.buf⟩
            · dsimp only
              rw [hagrees.delta]
              exact wrap_of_lt (by omega) (by exact_mod_cast hlast)
            · have hsame := hagrees.n
              rw [Bootstring.foldl_round_n] at hsame
              dsimp only
              rw [hsame, hpassN]
              exact wrap_of_lt (by omega) (by
                change ((Bootstring.least (numbers cps) e.n : ℕ) : ℤ) + 1 < _
                omega)
          obtain ⟨hpass, hprogress⟩ := hbetween.pass (p := params) wrapped
            (Bootstring.basics params (numbers cps)).length hshort
          rw [hrun]
          obtain ⟨hlater, hsome⟩ | ⟨hlater, hnone⟩ := ih hnext hpass (by omega)
          · exact .inl ⟨⟨⟨hfits, List.forall_mem_singleton.mpr hlast⟩, hlater⟩, hsome⟩
          · exact .inr ⟨fun hfits => hlater hfits.2, hnone⟩
        · rw [hrun]
          exact .inr ⟨fun hfits => hover hfits.1.1, rfl⟩
      · rw [if_pos hnegative]
        refine .inr ⟨fun hfits => hover (hfits.1.1 _ ?_), rfl⟩
        cases numbers cps with
        | nil => exact List.mem_singleton.mpr rfl
        | cons c more =>
          rw [List.scanl_cons]
          exact List.mem_cons_self
    · rw [if_pos (show l.remaining = 0 by omega), if_neg hshort, if_neg hshort]
      exact .inl ⟨List.forall_mem_nil _, l, rfl, h.buf⟩

end Loops

/-- The basic code points and the delimiter behind them. -/
def basicText (basics : List ℕ) : Bytes :=
  basics.map UInt8.ofNat ++ if basics = [] then [] else [hyphen]

theorem foldl_countRound (cps : List UInt32) : ∀ {l : Label} {b remaining : ℕ}, l.b = b →
    l.remaining = remaining → b + remaining + cps.length < 2 ^ 31 →
    cps.foldl countRound l =
      { l with
        b := (b + (Bootstring.basics params (numbers cps)).length : ℕ)
        remaining := (remaining + (cps.length -
          (Bootstring.basics params (numbers cps)).length) : ℕ)
        buf := l.buf ++ (Bootstring.basics params (numbers cps)).map UInt8.ofNat } := by
  induction cps with
  | nil =>
    intro l b remaining hb hremaining _
    cases l
    subst hb hremaining
    simp [numbers, Bootstring.basics]
  | cons r cps ih =>
    intro l b remaining hb hremaining hroom
    rw [List.length_cons] at hroom
    have hle : (Bootstring.basics params (numbers cps)).length ≤ cps.length := by
      refine (List.length_filter_le _ _).trans ?_
      rw [numbers, List.length_map]
    have hcons : Bootstring.basics params (numbers (r :: cps)) =
        if r.toNat < 128 then r.toNat :: Bootstring.basics params (numbers cps)
        else Bootstring.basics params (numbers cps) := by
      rw [Bootstring.basics, numbers, List.map_cons, List.filter_cons, ← numbers,
        ← Bootstring.basics]
      simp only [decide_eq_true_eq]
      rfl
    rw [List.foldl_cons, hcons, countRound]
    by_cases hr : r ≤ 0x7f
    · have hsmall : r.toNat < 128 := Nat.lt_succ_of_le (UInt32.le_iff_toNat_le.mp hr)
      have hnext : wrap (l.b + 1) = (b + 1 : ℕ) := by
        rw [hb]
        exact wrap_of_lt (by omega) (by omega)
      rw [if_pos hr, if_pos hsmall, hnext]
      refine Eq.trans (@ih _ (b + 1) remaining rfl hremaining (by omega)) ?_
      simp only [List.length_cons, List.map_cons, List.append_assoc, Nat.add_sub_add_right]
      congr 1
      rw [Nat.add_assoc, Nat.add_comm 1]
    · have hlarge : ¬ r.toNat < 128 := fun hlt =>
        hr (UInt32.le_iff_toNat_le.mpr (Nat.le_of_lt_succ hlt))
      have hnext : wrap (l.remaining + 1) = (remaining + 1 : ℕ) := by
        rw [hremaining]
        exact wrap_of_lt (by omega) (by omega)
      rw [if_neg hr, if_neg hlarge, hnext]
      refine Eq.trans (@ih _ b (remaining + 1) hb rfl (by omega)) ?_
      congr 1
      rw [List.length_cons]
      omega

theorem encodeLabel_eq {s : Bytes} (hlength : (codePoints s).length < 2 ^ 31) :
    let cps := numbers (codePoints s)
    (∀ v ∈ Bootstring.values params wrapped cps, v < 2 ^ 31) ∧
        encodeLabel s = some (acePrefix ++ basicText (Bootstring.basics params cps) ++
          digitText (Bootstring.encode params wrapped cps)) ∨
      (¬ ∀ v ∈ Bootstring.values params wrapped cps, v < 2 ^ 31) ∧ encodeLabel s = none := by
  have hsmall : ∀ c ∈ numbers (codePoints s), c < 0x7fffffff := by
    intro c hc
    obtain ⟨cp, hcp, rfl⟩ := List.mem_map.mp hc
    exact (codePoints_lt hcp).trans (by decide)
  have hle : (Bootstring.basics params (numbers (codePoints s))).length ≤
      (codePoints s).length := by
    refine (List.length_filter_le _ _).trans ?_
    rw [numbers, List.length_map]
  unfold encodeLabel
  dsimp only
  rw [@foldl_countRound (codePoints s) _ 0 0 rfl rfl (by omega)]
  have hagrees : Agrees (numbers (codePoints s))
      (acePrefix ++ basicText (Bootstring.basics params (numbers (codePoints s))))
      { delta := 0, n := bsInitialN, bias := bsInitialBias
        h := (0 + (Bootstring.basics params (numbers (codePoints s))).length : ℕ)
        b := (0 + (Bootstring.basics params (numbers (codePoints s))).length : ℕ)
        remaining := (0 + ((codePoints s).length -
          (Bootstring.basics params (numbers (codePoints s))).length) : ℕ)
        buf :=
          if ((0 + (Bootstring.basics params (numbers (codePoints s))).length : ℕ) : ℤ) > 0 then
            acePrefix ++ (Bootstring.basics params (numbers (codePoints s))).map UInt8.ofNat ++
              [hyphen]
          else acePrefix ++
            (Bootstring.basics params (numbers (codePoints s))).map UInt8.ofNat }
      (Bootstring.initial params (numbers (codePoints s))) := by
    refine ⟨rfl, rfl, rfl, ?_, ?_, ?_, ?_⟩
    · rw [Nat.zero_add]
      rfl
    · rw [Nat.zero_add]
    · rw [Nat.zero_add, numbers, List.length_map, ← numbers]
      unfold Bootstring.initial
      dsimp only
      omega
    · unfold basicText
      rw [Nat.zero_add]
      by_cases hnone : Bootstring.basics params (numbers (codePoints s)) = []
      · rw [hnone, if_pos rfl, List.length_nil, if_neg (by decide)]
        simp [digitText, Bootstring.initial]
      · rw [if_neg hnone, if_pos (by exact_mod_cast List.length_pos_iff.mpr hnone)]
        simp [digitText, Bootstring.initial]
  have hloop := hagrees.loop hlength hsmall (codePoints s).length
    (Bootstring.between_initial params _) (Nat.le_add_left _ _)
  have hrounds : (numbers (codePoints s)).length = (codePoints s).length := List.length_map _
  unfold Bootstring.values Bootstring.encode
  rw [hrounds]
  obtain ⟨hfits, l', hrun, hbuf⟩ | ⟨hover, hrun⟩ := hloop
  · left
    rw [hrun, Option.map_some, hbuf]
    exact ⟨hfits, rfl⟩
  · right
    rw [hrun]
    exact ⟨hover, rfl⟩

end Yans.Net.Punycode
