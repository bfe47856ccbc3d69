import Mathlib.Data.List.DropRight
import Mathlib.Order.Nat
import Mathlib.Tactic.Ring

/-! Bootstring, RFC 3492: a text as the places at which its code points are inserted into
what is already there, in ascending order. Integers are unbounded. -/
namespace Yans.Library.Bootstring

/-- The parameters, with what makes the loops end. -/
structure Params where
  base : ℕ
  tmin : ℕ
  tmax : ℕ
  skew : ℕ
  damp : ℕ
  initialBias : ℕ
  initialN : ℕ
  tmin_pos : 0 < tmin
  tmin_le : tmin ≤ tmax
  tmax_lt : tmax < base
  two_le : 2 ≤ base - tmin

variable (p : Params)

def adaptLoop (delta k : ℕ) : ℕ :=
  if _hbig : delta > (p.base - p.tmin) * p.tmax / 2 then
    adaptLoop (delta / (p.base - p.tmin)) (k + p.base)
  else k + (p.base - p.tmin + 1) * delta / (delta + p.skew)
termination_by delta
decreasing_by exact Nat.div_lt_self (by omega) p.two_le

def adapt (delta npoints : ℕ) (firstTime : Bool) : ℕ :=
  let delta := delta / if firstTime then p.damp else 2
  adaptLoop p (delta + delta / npoints) 0

/-! Integers of variable length -/

def threshold (bias k : ℕ) : ℕ :=
  if k ≤ bias + p.tmin then p.tmin else if k ≥ bias + p.tmax then p.tmax else k - bias

theorem threshold_pos (bias k : ℕ) : 0 < threshold p bias k := by
  have hmin := p.tmin_pos
  have hle := p.tmin_le
  unfold threshold
  split
  · exact hmin
  split
  · omega
  · omega

theorem threshold_lt (bias k : ℕ) : threshold p bias k < p.base := by
  have hle := p.tmin_le
  have hlt := p.tmax_lt
  unfold threshold
  split
  · omega
  split
  · exact hlt
  · omega

theorem rest_lt {bias k q : ℕ} (h : ¬ q < threshold p bias k) :
    (q - threshold p bias k) / (p.base - threshold p bias k) < q := by
  have hpos := threshold_pos p bias k
  exact (Nat.div_le_self _ _).trans_lt (by omega)

def encodeInt (bias k q : ℕ) : List ℕ :=
  if _hlast : q < threshold p bias k then [q]
  else
    (threshold p bias k + (q - threshold p bias k) % (p.base - threshold p bias k)) ::
      encodeInt bias (k + p.base) ((q - threshold p bias k) / (p.base - threshold p bias k))
termination_by q
decreasing_by exact rest_lt p _hlast

/-- The value of `i` with the number added to it, and the digits behind that. -/
def decodeInt (bias : ℕ) : ℕ → ℕ → ℕ → List ℕ → Option (ℕ × List ℕ)
  | _, _, _, [] => none
  | k, w, i, digit :: rest =>
    if digit < threshold p bias k then some (i + digit * w, rest)
    else decodeInt bias (k + p.base) (w * (p.base - threshold p bias k)) (i + digit * w) rest

theorem decodeInt_length {bias : ℕ} (digits : List ℕ) : ∀ {k w i value : ℕ} {rest : List ℕ},
    decodeInt p bias k w i digits = some (value, rest) → rest.length < digits.length := by
  induction digits with
  | nil =>
    intro k w i value rest h
    cases h
  | cons digit digits ih =>
    intro k w i value rest h
    rw [decodeInt] at h
    split at h
    · cases h
      exact Nat.lt_succ_self _
    · exact (ih h).trans (Nat.lt_succ_self _)

theorem decodeInt_encodeInt (bias q : ℕ) : ∀ (k w i : ℕ) (rest : List ℕ),
    decodeInt p bias k w i (encodeInt p bias k q ++ rest) = some (i + q * w, rest) := by
  induction q using Nat.strongRecOn with
  | _ q ih =>
    intro k w i rest
    rw [encodeInt]
    by_cases hlast : q < threshold p bias k
    · rw [dif_pos hlast, List.singleton_append, decodeInt, if_pos hlast]
    · rw [dif_neg hlast, List.cons_append, decodeInt, if_neg (by omega), ih _ (rest_lt p hlast)]
      have hsplit := Nat.mod_add_div (q - threshold p bias k) (p.base - threshold p bias k)
      generalize (q - threshold p bias k) % (p.base - threshold p bias k) = low at hsplit ⊢
      generalize (q - threshold p bias k) / (p.base - threshold p bias k) = high at hsplit ⊢
      have hq : q = threshold p bias k + low + (p.base - threshold p bias k) * high := by omega
      congr 2
      calc i + (threshold p bias k + low) * w + high * (w * (p.base - threshold p bias k))
          = i + (threshold p bias k + low + (p.base - threshold p bias k) * high) * w := by ring
        _ = i + q * w := by rw [← hq]

/-- The next code point is `n` or more, and at `i` or behind it if it is `n`. -/
structure Decoder where
  n : ℕ
  i : ℕ
  bias : ℕ
  output : List ℕ

/-- Insert the code point that the new value of `i` leads to. -/
def Decoder.insert (d : Decoder) (i : ℕ) : Decoder :=
  let npoints := d.output.length + 1
  { n := d.n + i / npoints
    i := i % npoints + 1
    bias := adapt p (i - d.i) npoints (d.i = 0)
    output := d.output.insertIdx (i % npoints) (d.n + i / npoints) }

def decodeLoop (d : Decoder) (digits : List ℕ) : Option (List ℕ) :=
  match _hdigits : digits with
  | [] => some d.output
  | digit :: rest =>
    match _hread : decodeInt p d.bias p.base 1 d.i (digit :: rest) with
    | none => none
    | some (i, rest) => decodeLoop (d.insert p i) rest
termination_by digits.length
decreasing_by exact decodeInt_length p _ _hread

/-- `basic` is the code point that a character stands for in front of the last delimiter,
and `digitValue` the digit behind it. A delimiter with nothing in front of it is none. -/
def decode {α : Type*} [DecidableEq α] (delimiter : α) (basic digitValue : α → Option ℕ)
    (text : List α) : Option (List ℕ) := do
  let front := (text.rdropWhile (· ≠ delimiter)).dropLast
  let back := if front = [] then text else text.rtakeWhile (· ≠ delimiter)
  let output ← front.mapM basic
  let digits ← back.mapM digitValue
  decodeLoop p ⟨p.initialN, 0, p.initialBias, output⟩ digits

theorem decode_of_split {α : Type*} [DecidableEq α] {delimiter : α} (basic digitValue : α → Option ℕ)
    {front back : List α} (hne : front ≠ []) (hback : delimiter ∉ back) :
    decode p delimiter basic digitValue (front ++ delimiter :: back) = (do
      let output ← front.mapM basic
      let digits ← back.mapM digitValue
      decodeLoop p ⟨p.initialN, 0, p.initialBias, output⟩ digits) := by
  have hall : ∀ c ∈ back.reverse, decide (c ≠ delimiter) = true := by
    intro c hc
    exact decide_eq_true (ne_of_mem_of_not_mem (List.mem_reverse.mp hc) hback)
  have hreverse : (front ++ delimiter :: back).reverse =
      back.reverse ++ delimiter :: front.reverse := by
    simp
  have hfront : ((front ++ delimiter :: back).rdropWhile (· ≠ delimiter)).dropLast = front := by
    rw [List.rdropWhile, hreverse, List.dropWhile_append_of_pos hall,
      List.dropWhile_cons_of_neg (by simp), List.reverse_cons, List.reverse_reverse,
      List.dropLast_concat]
  have hrest : (front ++ delimiter :: back).rtakeWhile (· ≠ delimiter) = back := by
    rw [List.rtakeWhile, hreverse, List.takeWhile_append_of_pos hall,
      List.takeWhile_cons_of_neg (by simp), List.append_nil, List.reverse_reverse]
  rw [decode, hfront, hrest, if_neg hne]

theorem decode_of_not_mem {α : Type*} [DecidableEq α] {delimiter : α}
    (basic digitValue : α → Option ℕ) {text : List α} (htext : delimiter ∉ text) :
    decode p delimiter basic digitValue text = (do
      let digits ← text.mapM digitValue
      decodeLoop p ⟨p.initialN, 0, p.initialBias, []⟩ digits) := by
  have hall : ∀ c ∈ text, decide (c ≠ delimiter) = true := fun c hc =>
    decide_eq_true (ne_of_mem_of_not_mem hc htext)
  have hfront : text.rdropWhile (· ≠ delimiter) = [] := List.rdropWhile_eq_nil_iff.mpr hall
  rw [decode, hfront]
  rfl

theorem decodeLoop_nil (d : Decoder) : decodeLoop p d [] = some d.output := by
  rw [decodeLoop.eq_def]

theorem decodeLoop_encodeInt (d : Decoder) (delta : ℕ) (rest : List ℕ) :
    decodeLoop p d (encodeInt p d.bias p.base delta ++ rest) =
      decodeLoop p (d.insert p (d.i + delta)) rest := by
  have hread := decodeInt_encodeInt p d.bias delta p.base 1 d.i rest
  rw [Nat.mul_one] at hread
  rw [decodeLoop.eq_def]
  split
  · rename_i hnil
    rw [hnil] at hread
    cases hread
  · rename_i digit digits hcons
    rw [hcons] at hread
    split
    · rename_i hnone
      rw [hread] at hnone
      cases hnone
    · rename_i value more hsome
      rw [hread] at hsome
      cases hsome
      rfl

structure Encoder where
  delta : ℕ
  n : ℕ
  bias : ℕ
  h : ℕ
  digits : List ℕ

/-- One code point of the text, of which `b` are basic. -/
def Encoder.round (b : ℕ) (e : Encoder) (c : ℕ) : Encoder :=
  if c < e.n then { e with delta := e.delta + 1 }
  else if c > e.n then e
  else
    { e with
      digits := e.digits ++ encodeInt p e.bias p.base e.delta
      bias := adapt p e.delta (e.h + 1) (e.h = b)
      delta := 0
      h := e.h + 1 }

/-- The least code point that is `n` or more. -/
def least (cps : List ℕ) (n : ℕ) : ℕ := (cps.filter (n ≤ ·)).min?.getD n

/-- Go on to the next code point. `reduce` is what the arithmetic makes of the new value
of `delta`, which is the value itself over unbounded integers. -/
def Encoder.jump (reduce : ℕ → ℕ) (cps : List ℕ) (e : Encoder) : Encoder :=
  { e with
    delta := reduce (e.delta + (least cps e.n - e.n) * (e.h + 1))
    n := least cps e.n }

def Encoder.next (e : Encoder) : Encoder := { e with delta := e.delta + 1, n := e.n + 1 }

def Encoder.pass (reduce : ℕ → ℕ) (b : ℕ) (cps : List ℕ) (e : Encoder) : Encoder :=
  (cps.foldl (Encoder.round p b) (e.jump reduce cps)).next

/-- The loop until all code points are there; `rounds` bounds it. -/
def encodeLoop (reduce : ℕ → ℕ) (b : ℕ) (cps : List ℕ) : ℕ → Encoder → Encoder
  | 0, e => e
  | rounds + 1, e =>
    if e.h < cps.length then encodeLoop reduce b cps rounds (e.pass p reduce b cps) else e

def basics (cps : List ℕ) : List ℕ := cps.filter (· < p.initialN)

def initial (cps : List ℕ) : Encoder :=
  ⟨0, p.initialN, p.initialBias, (basics p cps).length, []⟩

def encode (reduce : ℕ → ℕ) (cps : List ℕ) : List ℕ :=
  (encodeLoop p reduce (basics p cps).length cps cps.length (initial p cps)).digits

/-! Digits are less than the base. -/

theorem encodeInt_lt (bias q : ℕ) : ∀ k, ∀ digit ∈ encodeInt p bias k q, digit < p.base := by
  induction q using Nat.strongRecOn with
  | _ q ih =>
    intro k
    have hlt := threshold_lt p bias k
    rw [encodeInt]
    by_cases hlast : q < threshold p bias k
    · rw [dif_pos hlast]
      exact List.forall_mem_singleton.mpr (hlast.trans hlt)
    · rw [dif_neg hlast]
      refine List.forall_mem_cons.mpr ⟨?_, ih _ (rest_lt p hlast) _⟩
      have hmod := Nat.mod_lt (q - threshold p bias k) (Nat.sub_pos_of_lt hlt)
      omega

theorem foldl_round_lt (b : ℕ) (cps : List ℕ) : ∀ {e : Encoder},
    (∀ digit ∈ e.digits, digit < p.base) →
      ∀ digit ∈ (cps.foldl (Encoder.round p b) e).digits, digit < p.base := by
  induction cps with
  | nil => exact id
  | cons c cps ih =>
    intro e h
    refine @ih (e.round p b c) ?_
    unfold Encoder.round
    split
    · exact h
    split
    · exact h
    · exact List.forall_mem_append.mpr ⟨h, encodeInt_lt p e.bias e.delta p.base⟩

theorem encodeLoop_lt (reduce : ℕ → ℕ) (b : ℕ) (cps : List ℕ) (rounds : ℕ) : ∀ {e : Encoder},
    (∀ digit ∈ e.digits, digit < p.base) →
      ∀ digit ∈ (encodeLoop p reduce b cps rounds e).digits, digit < p.base := by
  induction rounds with
  | zero => exact id
  | succ rounds ih =>
    intro e h
    rw [encodeLoop]
    split
    · exact @ih (e.pass p reduce b cps)
        (foldl_round_lt p b cps (h : ∀ digit ∈ (e.jump reduce cps).digits, _))
    · exact h

theorem encode_lt (reduce : ℕ → ℕ) (cps : List ℕ) :
    ∀ digit ∈ encode p reduce cps, digit < p.base :=
  encodeLoop_lt p reduce _ cps _ nofun

/-! What is encoded is decoded. -/

theorem least_spec {cps : List ℕ} {n : ℕ} (h : ∃ c ∈ cps, n ≤ c) :
    least cps n ∈ cps ∧ n ≤ least cps n ∧ ∀ c ∈ cps, n ≤ c → least cps n ≤ c := by
  obtain ⟨c, hc, hle⟩ := h
  have hmem : c ∈ cps.filter (n ≤ ·) := List.mem_filter.mpr ⟨hc, decide_eq_true hle⟩
  unfold least
  cases hmin : (cps.filter (n ≤ ·)).min? with
  | none =>
    rw [List.min?_eq_none_iff] at hmin
    rw [hmin] at hmem
    cases hmem
  | some m =>
    obtain ⟨hm, hleast⟩ := List.min?_eq_some_iff.mp hmin
    obtain ⟨hm, hge⟩ := List.mem_filter.mp hm
    refine ⟨hm, of_decide_eq_true hge, fun c hc hle => ?_⟩
    exact hleast c (List.mem_filter.mpr ⟨hc, decide_eq_true hle⟩)

theorem filter_lt_least {cps : List ℕ} {n : ℕ} (h : ∃ c ∈ cps, n ≤ c) :
    cps.filter (· < least cps n) = cps.filter (· < n) := by
  obtain ⟨-, hge, hleast⟩ := least_spec h
  apply List.filter_congr
  intro c hc
  rw [decide_eq_decide]
  constructor
  · intro hlt
    by_contra hn
    exact absurd (hleast c hc (Nat.not_lt.mp hn)) (Nat.not_le.mpr hlt)
  · exact fun hlt => hlt.trans_le hge

theorem length_filter_succ (cps : List ℕ) (m : ℕ) :
    (cps.filter (· < m + 1)).length = (cps.filter (· < m)).length + cps.count m := by
  induction cps with
  | nil => rfl
  | cons c cps ih =>
    rw [List.filter_cons, List.filter_cons, List.count_cons]
    obtain hless | rfl | hmore := Nat.lt_trichotomy c m
    · rw [if_pos (by simp; omega), if_pos (by simpa using hless), if_neg (by simp; omega),
        List.length_cons, List.length_cons, ih]
      omega
    · rw [if_pos (by simp), if_neg (by simp), if_pos (by simp), List.length_cons, ih]
      omega
    · rw [if_neg (by simp; omega), if_neg (by simp; omega), if_neg (by simp; omega), ih]
      rfl

section Passes

variable {p} {cps : List ℕ} {e : Encoder}

theorem round_n (b : ℕ) (e : Encoder) (c : ℕ) : (e.round p b c).n = e.n := by
  unfold Encoder.round
  split
  · rfl
  split
  · rfl
  · rfl

theorem foldl_round_n (b : ℕ) (cps : List ℕ) : ∀ e : Encoder,
    (cps.foldl (Encoder.round p b) e).n = e.n := by
  induction cps with
  | nil => exact fun _ => rfl
  | cons c cps ih => exact fun e => (ih _).trans (round_n b e c)

theorem round_h (b : ℕ) (e : Encoder) (c : ℕ) :
    (e.round p b c).h = e.h + if c = e.n then 1 else 0 := by
  unfold Encoder.round
  obtain hless | heq | hmore := Nat.lt_trichotomy c e.n
  · rw [if_pos hless, if_neg hless.ne]
    rfl
  · rw [if_neg heq.not_lt, if_neg heq.not_gt, if_pos heq]
  · rw [if_neg hmore.asymm, if_pos hmore, if_neg hmore.ne']
    rfl

theorem foldl_round_h (b : ℕ) (cps : List ℕ) : ∀ e : Encoder,
    (cps.foldl (Encoder.round p b) e).h = e.h + cps.count e.n := by
  induction cps with
  | nil => exact fun _ => rfl
  | cons c cps ih =>
    intro e
    rw [List.foldl_cons, ih, round_n, round_h, List.count_cons]
    simp only [beq_iff_eq]
    omega

/-- Between two passes all code points below `n` are there. -/
def Between (cps : List ℕ) (e : Encoder) : Prop := e.h = (cps.filter (· < e.n)).length

theorem Between.more (h : Between cps e) (hshort : e.h < cps.length) : ∃ c ∈ cps, e.n ≤ c := by
  by_contra hnone
  rw [h, List.filter_eq_self.mpr] at hshort
  · exact absurd hshort (Nat.lt_irrefl _)
  · intro c hc
    exact decide_eq_true (Nat.not_le.mp fun hle => hnone ⟨c, hc, hle⟩)

theorem pass_n (reduce : ℕ → ℕ) (b : ℕ) (cps : List ℕ) (e : Encoder) :
    (e.pass p reduce b cps).n = least cps e.n + 1 :=
  congrArg (· + 1) (foldl_round_n b cps _)

theorem Between.pass (reduce : ℕ → ℕ) (b : ℕ) (h : Between cps e) (hshort : e.h < cps.length) :
    Between cps (e.pass p reduce b cps) ∧ e.h < (e.pass p reduce b cps).h := by
  have hmore := h.more hshort
  have hcount : (e.pass p reduce b cps).h = e.h + cps.count (least cps e.n) :=
    foldl_round_h b cps (e.jump reduce cps)
  have hpos := List.count_pos_iff.mpr (least_spec hmore).1
  constructor
  · rw [Between, hcount, pass_n, length_filter_succ, filter_lt_least hmore, ← h]
  · omega

end Passes

theorem insertIdx_append (front back : List ℕ) (c : ℕ) :
    (front ++ back).insertIdx front.length c = front ++ c :: back := by
  induction front with
  | nil => rfl
  | cons a front ih =>
    rw [List.cons_append, List.length_cons, List.insertIdx_succ_cons, ih]
    rfl

/-- The decoder `d` has read the digits so far, started from `start`. Of the text `done`
has been passed and `rest` has not: the code points there are those up to `n` in `done`
and those below `n` in `rest`, and `delta` steps lead the decoder to the place in between. -/
structure Sync (start : Decoder) (b : ℕ) (d : Decoder) (e : Encoder) (done rest : List ℕ) :
    Prop where
  output : d.output = done.filter (· ≤ e.n) ++ rest.filter (· < e.n)
  h_eq : e.h = d.output.length
  bias : e.bias = d.bias
  le : d.n ≤ e.n
  delta : (e.n - d.n) * (e.h + 1) + (done.filter (· ≤ e.n)).length = d.i + e.delta
  basic : b ≤ e.h
  first : e.h = b ↔ d.i = 0
  digits : ∀ more, decodeLoop p start (e.digits ++ more) = decodeLoop p d more

section Sync

variable {p} {start d : Decoder} {b : ℕ} {e : Encoder} {done rest cps : List ℕ}

theorem Sync.insert {c : ℕ} (h : Sync p start b d e done (c :: rest)) (hc : c = e.n) :
    Sync p start b (d.insert p (d.i + e.delta)) (e.round p b c) (done ++ [c]) rest := by
  subst hc
  have houtput := h.output
  rw [List.filter_cons_of_neg (by simp)] at houtput
  have hlength := h.h_eq
  have hplace : (done.filter (· ≤ e.n)).length < d.output.length + 1 := by
    rw [houtput, List.length_append]
    omega
  have hn : d.n + (d.i + e.delta) / (d.output.length + 1) = e.n := by
    rw [← h.delta, hlength, Nat.mul_comm, Nat.mul_add_div (Nat.succ_pos _),
      Nat.div_eq_of_lt hplace]
    have hle := h.le
    omega
  have hi : (d.i + e.delta) % (d.output.length + 1) = (done.filter (· ≤ e.n)).length := by
    rw [← h.delta, hlength, Nat.mul_add_mod_self_right, Nat.mod_eq_of_lt hplace]
  have hround : e.round p b e.n =
      { e with
        digits := e.digits ++ encodeInt p e.bias p.base e.delta
        bias := adapt p e.delta (e.h + 1) (e.h = b)
        delta := 0
        h := e.h + 1 } := by
    rw [Encoder.round, if_neg (Nat.lt_irrefl _), if_neg (Nat.lt_irrefl _)]
  have hkept : (done ++ [e.n]).filter (· ≤ e.n) = done.filter (· ≤ e.n) ++ [e.n] := by
    rw [List.filter_append, List.filter_cons_of_pos (by simp), List.filter_nil]
  have hinserted : d.output.insertIdx (done.filter (· ≤ e.n)).length e.n =
      (done ++ [e.n]).filter (· ≤ e.n) ++ rest.filter (· < e.n) := by
    rw [houtput, hkept, insertIdx_append, List.append_assoc]
    rfl
  have hinsert : d.insert p (d.i + e.delta) =
      { n := e.n
        i := (done.filter (· ≤ e.n)).length + 1
        bias := adapt p e.delta (e.h + 1) (e.h = b)
        output := (done ++ [e.n]).filter (· ≤ e.n) ++ rest.filter (· < e.n) } := by
    unfold Decoder.insert
    dsimp only
    rw [hn, hi, hinserted, Nat.add_sub_cancel_left, hlength, ← hlength,
      decide_eq_decide.mpr h.first]
  have hdigits : ∀ more, decodeLoop p start
      (e.digits ++ encodeInt p e.bias p.base e.delta ++ more) =
        decodeLoop p (d.insert p (d.i + e.delta)) more := by
    intro more
    rw [List.append_assoc, h.digits, h.bias, decodeLoop_encodeInt]
  rw [hinsert] at hdigits ⊢
  rw [hround]
  refine ⟨rfl, ?_, rfl, le_rfl, ?_, h.basic.trans (Nat.le_succ _), ?_, hdigits⟩
  · dsimp only
    rw [← hinserted, List.length_insertIdx_of_le_length (Nat.lt_succ_iff.mp hplace), hlength]
  · dsimp only
    rw [Nat.sub_self, Nat.zero_mul, Nat.zero_add, hkept, List.length_append]
    rfl
  · exact iff_of_false (Nat.ne_of_gt (Nat.lt_succ_of_le h.basic)) (Nat.succ_ne_zero _)

theorem Sync.round {c : ℕ} (h : Sync p start b d e done (c :: rest)) :
    ∃ d', Sync p start b d' (e.round p b c) (done ++ [c]) rest := by
  obtain hless | heq | hmore := Nat.lt_trichotomy c e.n
  · refine ⟨d, ?_⟩
    have hkept : (done ++ [c]).filter (· ≤ e.n) = done.filter (· ≤ e.n) ++ [c] := by
      rw [List.filter_append, List.filter_cons_of_pos (by simpa using hless.le), List.filter_nil]
    rw [Encoder.round, if_pos hless]
    refine ⟨?_, h.h_eq, h.bias, h.le, ?_, h.basic, h.first, h.digits⟩
    · dsimp only
      rw [h.output, List.filter_cons_of_pos (by simpa using hless), hkept, List.append_assoc]
      rfl
    · dsimp only
      rw [hkept, List.length_append, ← Nat.add_assoc, h.delta]
      rfl
  · exact ⟨_, h.insert heq⟩
  · refine ⟨d, ?_⟩
    have hkept : (done ++ [c]).filter (· ≤ e.n) = done.filter (· ≤ e.n) := by
      rw [List.filter_append, List.filter_cons_of_neg (by simpa using hmore), List.filter_nil,
        List.append_nil]
    rw [Encoder.round, if_neg hmore.asymm, if_pos hmore]
    refine ⟨?_, h.h_eq, h.bias, h.le, ?_, h.basic, h.first, h.digits⟩
    · rw [h.output, List.filter_cons_of_neg (by simpa using hmore.le), hkept]
    · rw [hkept, h.delta]

theorem Sync.fold : ∀ {rest done : List ℕ} {d : Decoder} {e : Encoder},
    Sync p start b d e done rest →
    ∃ d', Sync p start b d' (rest.foldl (Encoder.round p b) e) (done ++ rest) [] := by
  intro rest
  induction rest with
  | nil =>
    intro done d e h
    rw [List.append_nil]
    exact ⟨d, h⟩
  | cons c rest ih =>
    intro done d e h
    obtain ⟨d', hround⟩ := h.round
    have hfold := ih hround
    rwa [List.append_assoc] at hfold

theorem Sync.jump (h : Sync p start b d e [] cps) (hmore : ∃ c ∈ cps, e.n ≤ c) :
    Sync p start b d (e.jump id cps) [] cps := by
  have hge := (least_spec hmore).2.1
  have hle := h.le
  have hdelta := h.delta
  refine ⟨?_, h.h_eq, h.bias, hle.trans hge, ?_, h.basic, h.first, h.digits⟩
  · unfold Encoder.jump
    rw [filter_lt_least hmore]
    exact h.output
  · unfold Encoder.jump
    dsimp only [id]
    rw [← Nat.add_assoc, ← hdelta, show least cps e.n - d.n =
      (e.n - d.n) + (least cps e.n - e.n) by omega, Nat.add_mul]
    rfl

theorem Sync.next (h : Sync p start b d e cps []) : Sync p start b d e.next [] cps := by
  have hdelta := h.delta
  have hlength := h.h_eq
  have hle := h.le
  rw [h.output, List.filter_nil, List.append_nil] at hlength
  refine ⟨?_, h.h_eq, h.bias, hle.trans (Nat.le_succ _), ?_, h.basic, h.first, h.digits⟩
  · rw [h.output, List.filter_nil, List.filter_nil, List.append_nil, List.nil_append]
    apply List.filter_congr
    intro c _
    exact decide_eq_decide.mpr Nat.lt_succ_iff.symm
  · unfold Encoder.next
    dsimp only
    rw [← hlength] at hdelta
    rw [List.filter_nil, List.length_nil, show e.n + 1 - d.n = (e.n - d.n) + 1 by omega,
      Nat.add_mul, Nat.one_mul]
    omega

theorem Sync.between (h : Sync p start b d e [] cps) : Between cps e := by
  rw [Between, h.h_eq, h.output, List.filter_nil, List.nil_append]

theorem Sync.pass (h : Sync p start b d e [] cps) (hshort : e.h < cps.length) :
    ∃ d', Sync p start b d' (e.pass p id b cps) [] cps := by
  obtain ⟨d', hfold⟩ := (h.jump (h.between.more hshort)).fold
  rw [List.nil_append] at hfold
  exact ⟨d', hfold.next⟩

theorem Sync.loop (rounds : ℕ) : ∀ {d : Decoder} {e : Encoder}, Sync p start b d e [] cps →
    cps.length ≤ e.h + rounds →
    decodeLoop p start (encodeLoop p id b cps rounds e).digits = some cps := by
  have hdone : ∀ {d : Decoder} {e : Encoder}, Sync p start b d e [] cps → cps.length ≤ e.h →
      decodeLoop p start e.digits = some cps := by
    intro d e h hall
    have hkept : (cps.filter (· < e.n)).Sublist cps := List.filter_sublist
    have hdecoded := h.digits []
    rw [List.append_nil, decodeLoop_nil, h.output, List.filter_nil, List.nil_append,
      hkept.eq_of_length_le (h.between ▸ hall)] at hdecoded
    exact hdecoded
  induction rounds with
  | zero =>
    intro d e h hall
    exact hdone h hall
  | succ rounds ih =>
    intro d e h hall
    rw [encodeLoop]
    split
    · rename_i hshort
      obtain ⟨d', hpass⟩ := h.pass hshort
      have hprogress := (h.between.pass id b hshort : Between cps (e.pass p id b cps) ∧ _).2
      exact ih hpass (by omega)
    · rename_i hlong
      exact hdone h (Nat.not_lt.mp hlong)

end Sync

theorem decodeLoop_encode (cps : List ℕ) :
    decodeLoop p ⟨p.initialN, 0, p.initialBias, basics p cps⟩ (encode p id cps) = some cps := by
  have hsync : Sync p ⟨p.initialN, 0, p.initialBias, basics p cps⟩ (basics p cps).length
      ⟨p.initialN, 0, p.initialBias, basics p cps⟩ (initial p cps) [] cps := by
    refine ⟨rfl, rfl, rfl, le_rfl, ?_, le_rfl, iff_of_true rfl rfl, fun _ => rfl⟩
    unfold initial
    rw [Nat.sub_self, Nat.zero_mul]
    rfl
  exact hsync.loop _ (Nat.le_add_left _ _)

end Yans.Library.Bootstring
