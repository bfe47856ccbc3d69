import Mathlib.Data.List.Count
import Mathlib.Data.List.GetD
import Mathlib.Data.List.Induction
import Yans.Net.TcpprotoTypes

/-! `lib/match/tcpproto.c`: the protocol of a banner, from the patterns that match it. The scan
for the largest counter never raises its mark, so that the last protocol counted is taken. -/
namespace Yans.Match.Tcpproto

open Net.TcpprotoTypes

/-- `TCPPROTO_UNKNOWN` -/
def unknown : ℕ := 0

/-- `counters`, an `int` for each protocol. -/
abbrev PcounterCtx := List Int32

def pcounterReset : PcounterCtx := List.replicate nbrOfTcpprotos 0

def pcounterCount (c : PcounterCtx) (t : ℤ) : PcounterCtx :=
  if t < 0 ∨ t ≥ nbrOfTcpprotos then c else c.set t.toNat (c.getD t.toNat 0 + 1)

/-- One round of the loop, with `max` and `t`. -/
def maxRound (c : PcounterCtx) (state : Int32 × ℕ) (i : ℕ) : Int32 × ℕ :=
  let (max, t) := state
  if c.getD i 0 > max then (max, i) else (max, t)

def pcounterMax (c : PcounterCtx) : ℕ :=
  ((List.range nbrOfTcpprotos).foldl (maxRound c) (0, unknown)).2

/-- The two protocols of a pattern, by what it is sent over. -/
structure TcpprotoPatterns where
  typePlain : ℕ
  typeTls : ℕ

/-- `patterns_`, of which the expressions themselves are matched elsewhere. -/
def patterns : List TcpprotoPatterns :=
  [⟨1, 2⟩, ⟨12, 13⟩, ⟨4, 5⟩, ⟨6, 7⟩, ⟨6, 7⟩, ⟨8, 9⟩, ⟨10, 11⟩, ⟨14, 14⟩]

/-- `TCPPROTO_MATCHF_TLS` -/
def matchfTls : UInt32 := 1

/-- What a match of the pattern `id` counts for. -/
def typeOf (flags : UInt32) (id : Fin patterns.length) : ℤ :=
  if flags &&& matchfTls ≠ 0 then (patterns.get id).typeTls else (patterns.get id).typePlain

/-- `matched` is what `reset_match` finds: the patterns in the order in which they are handed
out, or an error. -/
def tcpprotoMatch (flags : UInt32) (matched : Option (List (Fin patterns.length))) : ℕ :=
  match matched with
  | none => unknown
  | some ids => pcounterMax (ids.foldl (fun c id => pcounterCount c (typeOf flags id)) pcounterReset)

def counted (ts : List ℤ) : PcounterCtx := ts.foldl pcounterCount pcounterReset

/-- No protocol is counted more often than `t`, which is unknown if none is counted. -/
structure Majority (ts : List ℤ) (t : ℕ) : Prop where
  most : ∀ u < nbrOfTcpprotos, ts.count (u : ℤ) ≤ ts.count (t : ℤ)
  none : (∀ u < nbrOfTcpprotos, ts.count (u : ℤ) = 0) → t = unknown

def Shows (ts : List ℤ) (t : ℕ) : Prop := 0 < Int32.ofNat (ts.count (t : ℤ))

structure IsLast (ts : List ℤ) (t : ℕ) : Prop where
  inside : t < nbrOfTcpprotos
  shows : Shows ts t ∨ t = unknown
  above : ∀ u < nbrOfTcpprotos, t < u → ¬ Shows ts u

def LastWins (ts : List ℤ) : Prop :=
  ∀ t, IsLast ts t → ∀ u < nbrOfTcpprotos, ts.count (u : ℤ) ≤ ts.count (t : ℤ)

theorem counted_append (ts : List ℤ) (t : ℤ) :
    counted (ts ++ [t]) = pcounterCount (counted ts) t := List.foldl_append

theorem length_counted (ts : List ℤ) : (counted ts).length = nbrOfTcpprotos := by
  induction ts using List.reverseRecOn with
  | nil => rfl
  | append_singleton ts t ih =>
    rw [counted_append, pcounterCount]
    split
    · exact ih
    · rw [List.length_set, ih]

/-- The induction is on the calls, the last of them first. -/
theorem getD_counted (ts : List ℤ) {u : ℕ} (hu : u < nbrOfTcpprotos) :
    (counted ts).getD u 0 = Int32.ofNat (ts.count (u : ℤ)) := by
  induction ts using List.reverseRecOn with
  | nil =>
    rw [List.count_nil, counted, List.foldl_nil, pcounterReset, List.getD_eq_getElem?_getD,
      List.getElem?_replicate, if_pos hu]
    rfl
  | append_singleton ts t ih =>
    have hlength := length_counted ts
    rw [counted_append, pcounterCount, List.count_append, List.count_singleton]
    by_cases hout : t < 0 ∨ t ≥ nbrOfTcpprotos
    · have hne : ¬ (t == (u : ℤ)) = true := by
        rw [beq_iff_eq]
        omega
      rw [if_pos hout, ih, if_neg hne, Nat.add_zero]
    · rw [if_neg hout, List.getD_eq_getElem?_getD, List.getElem?_set]
      by_cases hsame : t.toNat = u
      · have heq : (t == (u : ℤ)) = true := by
          rw [beq_iff_eq]
          omega
        rw [if_pos hsame, if_pos (by omega), hsame, Option.getD_some, ih, if_pos heq,
          Int32.ofNat_add]
        rfl
      · have hne : ¬ (t == (u : ℤ)) = true := by
          rw [beq_iff_eq]
          omega
        rw [if_neg hsame, ← List.getD_eq_getElem?_getD, ih, if_neg hne, Nat.add_zero]

theorem maxRound_fold (c : PcounterCtx) (n : ℕ) :
    ((List.range n).foldl (maxRound c) (0, unknown)).1 = 0 ∧
      (c.getD ((List.range n).foldl (maxRound c) (0, unknown)).2 0 > 0 ∨
        ((List.range n).foldl (maxRound c) (0, unknown)).2 = unknown) ∧
      ∀ u < n, ((List.range n).foldl (maxRound c) (0, unknown)).2 < u → ¬ c.getD u 0 > 0 := by
  induction n with
  | zero => exact ⟨rfl, .inr rfl, fun u hu => absurd hu (Nat.not_lt_zero u)⟩
  | succ n ih =>
    obtain ⟨hmax, hkept, habove⟩ := ih
    rw [List.range_succ, List.foldl_append, List.foldl_cons, List.foldl_nil]
    generalize (List.range n).foldl (maxRound c) (0, unknown) = state at hmax hkept habove ⊢
    obtain ⟨max, t⟩ := state
    subst hmax
    unfold maxRound
    dsimp only
    by_cases hn : c.getD n 0 > 0
    · rw [if_pos hn]
      refine ⟨rfl, .inl hn, fun u hu hlt => ?_⟩
      dsimp only at hlt
      omega
    · rw [if_neg hn]
      refine ⟨rfl, hkept, fun u hu hlt => ?_⟩
      by_cases hlast : u = n
      · rw [hlast]
        exact hn
      · exact habove u (by omega) hlt

theorem isLast_pcounterMax (ts : List ℤ) : IsLast ts (pcounterMax (counted ts)) := by
  obtain ⟨-, hkept, habove⟩ := maxRound_fold (counted ts) nbrOfTcpprotos
  rw [← pcounterMax] at hkept habove
  have hinside : pcounterMax (counted ts) < nbrOfTcpprotos := by
    rcases hkept with hpositive | hunknown
    · by_contra hout
      rw [List.getD_eq_default _ _ (by rw [length_counted]; omega)] at hpositive
      exact absurd hpositive (by decide)
    · rw [hunknown]
      decide
  refine ⟨hinside, ?_, fun u hu hlt => ?_⟩
  · rw [getD_counted ts hinside] at hkept
    exact hkept
  · have hnot := habove u hu hlt
    rwa [getD_counted ts hu] at hnot

theorem IsLast.le {ts : List ℤ} {t u : ℕ} (ht : IsLast ts t) (hu : IsLast ts u) : u ≤ t := by
  by_contra hlt
  rcases hu.shows with hshows | hunknown
  · exact ht.above u hu.inside (Nat.not_le.mp hlt) hshows
  · rw [hunknown] at hlt
    exact hlt (Nat.zero_le t)

theorem not_shows_of_count {ts : List ℤ} {t : ℕ} (h : ts.count (t : ℤ) = 0) : ¬ Shows ts t := by
  rw [Shows, h]
  decide

theorem majority_iff (ts : List ℤ) : Majority ts (pcounterMax (counted ts)) ↔ LastWins ts := by
  have hlast := isLast_pcounterMax ts
  constructor
  · intro h t ht u hu
    rw [Nat.le_antisymm (hlast.le ht) (ht.le hlast)]
    exact h.most u hu
  · intro h
    refine ⟨h _ hlast, fun hnone => ?_⟩
    exact hlast.shows.resolve_left (not_shows_of_count (hnone _ hlast.inside))

theorem tcpprotoMatch_some (flags : UInt32) (ids : List (Fin patterns.length)) :
    tcpprotoMatch flags (some ids) = pcounterMax (counted (ids.map (typeOf flags))) := by
  rw [tcpprotoMatch, counted, List.foldl_map]

/-- The last protocol counted is taken, whether or not it has the most counts. -/
theorem protocol_majority_iff (ts : List ℤ) (flags : UInt32) (ids : List (Fin patterns.length)) :
    (Majority ts (pcounterMax (counted ts)) ↔ LastWins ts) ∧
      (Majority (ids.map (typeOf flags)) (tcpprotoMatch flags (some ids)) ↔
        LastWins (ids.map (typeOf flags))) := by
  rw [tcpprotoMatch_some]
  exact ⟨majority_iff ts, majority_iff _⟩

/-- SMTP twice and FTP once -/
theorem minority_taken : ¬ ∀ ts : List ℤ, Majority ts (pcounterMax (counted ts)) := by
  intro h
  have hmost := (h [1, 1, 12]).most 1 (by decide)
  exact absurd hmost (by decide)

end Yans.Match.Tcpproto
