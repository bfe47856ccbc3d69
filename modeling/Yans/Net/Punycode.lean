import Yans.Util.U8
import Yans.Library.Strings

/-! `lib/net/punycode.c`: the encoding of RFC 3492, label by label. An `int32_t` is an
integer; what may leave its range is wrapped. Both buffers are cleared at the start of
`punycode_encode`, so they start empty here. -/
namespace Yans.Net.Punycode

open Library.Memory Util.U8

/-- The value of an `int32_t` after overflow. -/
def wrap (x : ℤ) : ℤ := x.bmod (2 ^ 32)

def bsBase : ℤ := 36
def bsTmin : ℤ := 1
def bsTmax : ℤ := 26
def bsSkew : ℤ := 38
def bsDamp : ℤ := 700
def bsInitialBias : ℤ := 72
def bsInitialN : ℤ := 128

/-- `xn--` -/
def acePrefix : Bytes := [120, 110, 45, 45]

def hyphen : UInt8 := 45

def dot : UInt8 := 46

/-- The loop of `adapt` on `delta` and `k`; `rounds` bounds it. -/
def adaptLoop : ℕ → ℤ → ℤ → ℤ × ℤ
  | 0, delta, k => (delta, k)
  | rounds + 1, delta, k =>
    if delta > ((bsBase - bsTmin) * bsTmax).tdiv 2 then
      adaptLoop rounds (delta.tdiv (bsBase - bsTmin)) (k + bsBase)
    else (delta, k)

def adapt (delta npoints : ℤ) (firstTime : Bool) : ℤ :=
  let delta := delta.tdiv (if firstTime then bsDamp else 2)
  let delta := wrap (delta + delta.tdiv npoints)
  let (delta, k) := adaptLoop delta.toNat delta 0
  k + ((bsBase - bsTmin + 1) * delta).tdiv (delta + bsSkew)

/-- The assertion on the range of a digit is left out; no digit is outside of it. -/
def encDigit (digit : ℤ) : UInt8 :=
  if 0 ≤ digit ∧ digit < 26 then UInt8.ofNat (digit.toNat + 97)
  else if 26 ≤ digit ∧ digit < 36 then UInt8.ofNat (digit.toNat + (48 - 26))
  else 0

def threshold (k bias : ℤ) : ℤ :=
  let t := k - bias
  if t < bsTmin then bsTmin else if t > bsTmax then bsTmax else t

/-- `for(k = BS_BASE; ;k += BS_BASE)` and the last digit; `rounds` bounds the loop. -/
def digitLoop (bias : ℤ) : ℕ → ℤ → ℤ → Bytes
  | 0, _, q => [encDigit q]
  | rounds + 1, k, q =>
    let t := threshold k bias
    if q < t then [encDigit q]
    else
      encDigit (t + (q - t).tmod (bsBase - t)) ::
        digitLoop bias rounds (k + bsBase) ((q - t).tdiv (bsBase - t))

/-- The variables of `encode_label`; `buf` holds what was appended. -/
structure Label where
  delta : ℤ
  n : ℤ
  bias : ℤ
  h : ℤ
  b : ℤ
  remaining : ℤ
  buf : Bytes
deriving DecidableEq

def countRound (l : Label) (r : UInt32) : Label :=
  if r ≤ 0x7f then { l with b := wrap (l.b + 1), buf := l.buf ++ [r.toUInt8] }
  else { l with remaining := wrap (l.remaining + 1) }

/-- `if (m > r && r >= n) m = r;` -/
def leastRound (n m : ℤ) (r : UInt32) : ℤ := if m > r.toNat ∧ r.toNat ≥ n then r.toNat else m

/-- One round of the loop that writes the digits; `none` is an overflow. -/
def encodeRound (l : Label) (r : UInt32) : Option Label :=
  if r.toNat < l.n then
    let delta := wrap (l.delta + 1)
    if delta < 0 then none else some { l with delta }
  else if r.toNat > l.n then some l
  else
    some { l with
      buf := l.buf ++ digitLoop l.bias l.delta.toNat bsBase l.delta
      bias := adapt l.delta (wrap (l.h + 1)) (l.h = l.b)
      delta := 0
      h := wrap (l.h + 1)
      remaining := wrap (l.remaining - 1) }

/-- `while(remaining)`; `rounds` bounds the loop. -/
def encodeLoop (cps : List UInt32) : ℕ → Label → Option Label
  | rounds, l =>
    if l.remaining = 0 then some l
    else
      match rounds with
      | 0 => none
      | rounds + 1 => do
        let m := cps.foldl (leastRound l.n) 0x7fffffff
        let delta := wrap (l.delta + (m - l.n) * (l.h + 1))
        if delta < 0 then none
        else
          let l ← cps.foldlM encodeRound { l with delta, n := m }
          encodeLoop cps rounds { l with delta := wrap (l.delta + 1), n := wrap (l.n + 1) }

/-- What is appended for the label `s`. -/
def encodeLabel (s : Bytes) : Option Bytes :=
  let cps := codePoints s
  let l := cps.foldl countRound ⟨0, bsInitialN, bsInitialBias, 0, 0, 0, acePrefix⟩
  let l := { l with h := l.b, buf := if l.b > 0 then l.buf ++ [hyphen] else l.buf }
  (encodeLoop cps cps.length l).map Label.buf

def punycodeLabel (outbuf label : Bytes) (isAscii : Bool) : Option Bytes :=
  if isAscii then some (outbuf ++ label)
  else (encodeLabel label).map fun lblbuf => outbuf ++ lblbuf

/-- The loop of `punycode_encode`; `label` is what is between `prev` and `curr`. -/
def punycodeLoop (outbuf label : Bytes) (isAscii : Bool) : Bytes → Option (Bytes × Bytes × Bool)
  | [] => some (outbuf, label, isAscii)
  | ch :: rest =>
    if ch = 0 then none
    else if ch = dot ∧ label ≠ [] then
      match punycodeLabel outbuf label isAscii with
      | none => none
      | some outbuf => punycodeLoop (outbuf ++ [dot]) [] true rest
    else if ch > 0x7f then punycodeLoop outbuf (label ++ [ch]) false rest
    else punycodeLoop outbuf (label ++ [ch]) isAscii rest

/-- The contents of `outbuf` without the final zero. -/
def punycodeEncode (input : Bytes) : Option Bytes :=
  match punycodeLoop [] [] true input with
  | none => none
  | some (outbuf, label, isAscii) =>
    if label ≠ [] then punycodeLabel outbuf label isAscii else some outbuf

def IsAscii (s : Bytes) : Prop := ∀ c ∈ s, c ≤ 0x7f

theorem isAscii_append {s t : Bytes} : IsAscii (s ++ t) ↔ IsAscii s ∧ IsAscii t := by
  simp only [IsAscii, List.mem_append, or_imp, forall_and]

theorem isAscii_nil : IsAscii [] := nofun

theorem isAscii_singleton {c : UInt8} : IsAscii [c] ↔ c ≤ 0x7f := List.forall_mem_singleton

theorem isAscii_cons {c : UInt8} {s : Bytes} : IsAscii (c :: s) ↔ c ≤ 0x7f ∧ IsAscii s :=
  List.forall_mem_cons

theorem encDigit_le (digit : ℤ) : encDigit digit ≤ 0x7f := by
  unfold encDigit
  split
  · rw [UInt8.le_iff_toNat_le, UInt8.toNat_ofNat']
    simp only [UInt8.reduceToNat]
    omega
  split
  · rw [UInt8.le_iff_toNat_le, UInt8.toNat_ofNat']
    simp only [UInt8.reduceToNat]
    omega
  · decide

theorem isAscii_digitLoop (bias : ℤ) (rounds : ℕ) : ∀ k q : ℤ,
    IsAscii (digitLoop bias rounds k q) := by
  induction rounds with
  | zero => exact fun _ q => isAscii_singleton.mpr (encDigit_le q)
  | succ rounds ih =>
    intro k q
    rw [digitLoop]
    split
    · exact isAscii_singleton.mpr (encDigit_le q)
    · exact isAscii_cons.mpr ⟨encDigit_le _, ih _ _⟩

theorem isAscii_countRound {l : Label} (h : IsAscii l.buf) (r : UInt32) :
    IsAscii (countRound l r).buf := by
  unfold countRound
  split
  · rename_i hr
    refine isAscii_append.mpr ⟨h, isAscii_singleton.mpr ?_⟩
    rw [UInt32.le_iff_toNat_le] at hr
    rw [UInt8.le_iff_toNat_le, UInt32.toNat_toUInt8]
    simp only [UInt32.reduceToNat, UInt8.reduceToNat] at hr ⊢
    omega
  · exact h

theorem isAscii_encodeRound {l l' : Label} {r : UInt32} (hrun : encodeRound l r = some l')
    (h : IsAscii l.buf) : IsAscii l'.buf := by
  unfold encodeRound at hrun
  dsimp only at hrun
  split at hrun
  · split at hrun
    · cases hrun
    · cases hrun
      exact h
  split at hrun
  · cases hrun
    exact h
  · cases hrun
    exact isAscii_append.mpr ⟨h, isAscii_digitLoop _ _ _ _⟩

theorem isAscii_foldlM {cps : List UInt32} : ∀ {l l' : Label},
    cps.foldlM encodeRound l = some l' → IsAscii l.buf → IsAscii l'.buf := by
  induction cps with
  | nil =>
    intro l l' hrun h
    cases hrun
    exact h
  | cons r cps ih =>
    intro l l' hrun h
    rw [List.foldlM_cons] at hrun
    obtain ⟨next, hround, hrest⟩ := Option.bind_eq_some_iff.mp hrun
    exact ih hrest (isAscii_encodeRound hround h)

theorem isAscii_encodeLoop {cps : List UInt32} (rounds : ℕ) : ∀ {l l' : Label},
    encodeLoop cps rounds l = some l' → IsAscii l.buf → IsAscii l'.buf := by
  induction rounds with
  | zero =>
    intro l l' hrun h
    rw [encodeLoop] at hrun
    split at hrun
    · cases hrun
      exact h
    · cases hrun
  | succ rounds ih =>
    intro l l' hrun h
    rw [encodeLoop] at hrun
    dsimp only at hrun
    split at hrun
    · cases hrun
      exact h
    split at hrun
    · cases hrun
    · obtain ⟨next, hround, hrest⟩ := Option.bind_eq_some_iff.mp hrun
      have hbuf : IsAscii next.buf := isAscii_foldlM hround h
      exact ih hrest hbuf

theorem isAscii_encodeLabel {s output : Bytes} (hrun : encodeLabel s = some output) :
    IsAscii output := by
  obtain ⟨l, hloop, rfl⟩ := Option.map_eq_some_iff.mp hrun
  refine isAscii_encodeLoop _ hloop ?_
  have hcount : ∀ (cps : List UInt32) (l : Label), IsAscii l.buf →
      IsAscii (cps.foldl countRound l).buf := by
    intro cps
    induction cps with
    | nil => exact fun _ h => h
    | cons r cps ih => exact fun l h => ih _ (isAscii_countRound h r)
  have hbuf := hcount (codePoints s) ⟨0, bsInitialN, bsInitialBias, 0, 0, 0, acePrefix⟩
    (by unfold IsAscii acePrefix; decide)
  split
  · exact isAscii_append.mpr ⟨hbuf, isAscii_singleton.mpr (by decide)⟩
  · exact hbuf

theorem isAscii_punycodeLabel {outbuf label output : Bytes} {isAscii : Bool}
    (hrun : punycodeLabel outbuf label isAscii = some output) (h : IsAscii outbuf)
    (hlabel : isAscii = true → IsAscii label) : IsAscii output := by
  unfold punycodeLabel at hrun
  split at hrun
  · cases hrun
    exact isAscii_append.mpr ⟨h, hlabel ‹_›⟩
  · obtain ⟨lblbuf, hencoded, rfl⟩ := Option.map_eq_some_iff.mp hrun
    exact isAscii_append.mpr ⟨h, isAscii_encodeLabel hencoded⟩

theorem isAscii_punycodeLoop (input : Bytes) : ∀ {outbuf label : Bytes} {isAscii : Bool}
    {outbuf' label' : Bytes} {isAscii' : Bool},
    punycodeLoop outbuf label isAscii input = some (outbuf', label', isAscii') →
    IsAscii outbuf → (isAscii = true → IsAscii label) →
    IsAscii outbuf' ∧ (isAscii' = true → IsAscii label') := by
  induction input with
  | nil =>
    intro outbuf label isAscii outbuf' label' isAscii' hrun h hlabel
    cases hrun
    exact ⟨h, hlabel⟩
  | cons ch rest ih =>
    intro outbuf label isAscii outbuf' label' isAscii' hrun h hlabel
    rw [punycodeLoop] at hrun
    split at hrun
    · cases hrun
    split at hrun
    · split at hrun
      · cases hrun
      · rename_i outbuf hclosed
        refine ih hrun (isAscii_append.mpr ⟨?_, isAscii_singleton.mpr (by decide)⟩)
          fun _ => isAscii_nil
        exact isAscii_punycodeLabel hclosed h hlabel
    split at hrun
    · exact ih hrun h fun hfalse => absurd hfalse Bool.false_ne_true
    · rename_i hch
      exact ih hrun h fun htrue =>
        isAscii_append.mpr ⟨hlabel htrue, isAscii_singleton.mpr (UInt8.not_lt.mp hch)⟩

theorem isAscii_punycodeEncode {input output : Bytes} (hrun : punycodeEncode input = some output) :
    IsAscii output := by
  unfold punycodeEncode at hrun
  split at hrun
  · cases hrun
  · rename_i outbuf label isAscii hloop
    obtain ⟨hout, hlabel⟩ := isAscii_punycodeLoop input hloop isAscii_nil fun _ => isAscii_nil
    split at hrun
    · exact isAscii_punycodeLabel hrun hout hlabel
    · cases hrun
      exact hout

example : punycodeEncode [98, 0xc3, 0xbc, 99, 104, 101, 114, 46, 99, 111, 109] =
    some [120, 110, 45, 45, 98, 99, 104, 101, 114, 45, 107, 118, 97, 46, 99, 111, 109] := by
  decide +kernel

end Yans.Net.Punycode
