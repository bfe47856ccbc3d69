import Yans.Library.DotSegments
import Yans.Library.Strings

/-! `url_remove_dot_segments` of `lib/net/url.c`: one array with an index to read at and
one to write at. Every access is checked here; an access outside of the array is `none`. -/
namespace Yans.Net.Url

open Library.Memory Library.Strings Library.DotSegments

def slash : UInt8 := 47

def dot : UInt8 := 46

/-- `s[i] = c` -/
def store (s : Bytes) (i : ℕ) (c : UInt8) : Option Bytes :=
  if i < s.length then some (s.set i c) else none

/-- `s[i] == text[0] && s[i+1] == text[1] && …`, one comparison after the other. -/
def spells (s : Bytes) : ℕ → Bytes → Option Bool
  | _, [] => some true
  | i, c :: text =>
    match s[i]? with
    | none => none
    | some ch => if ch = c then spells s (i + 1) text else some false

/-- A test of the length in front of the comparisons. -/
def onlyIf (inside : Bool) (test : Option Bool) : Option Bool := if inside then test else some false

/-- `while(w > 0 && s[--w] != '/');` -/
def popLoop (s : Bytes) : ℕ → Option ℕ
  | 0 => some 0
  | w + 1 =>
    match s[w]? with
    | none => none
    | some ch => if ch ≠ slash then popLoop s w else some w

structure DotState where
  s : Bytes
  r : ℕ
  w : ℕ
deriving DecidableEq

/-- `s[w++] = s[r++]` -/
def copyByte (st : DotState) : Option DotState := do
  let ch ← st.s[st.r]?
  let s ← store st.s st.w ch
  pure ⟨s, st.r + 1, st.w + 1⟩

/-- `do … while (r < len && s[r] != '/')`; `rounds` bounds the loop. -/
def copyLoop (len : ℕ) : ℕ → DotState → Option DotState
  | 0, _ => none
  | rounds + 1, st => do
    let st ← copyByte st
    if st.r < len then
      let ch ← st.s[st.r]?
      if ch ≠ slash then copyLoop len rounds st else pure st
    else pure st

def dotRound (len : ℕ) (st : DotState) : Option DotState := do
  let ⟨s, r, w⟩ := st
  if ← onlyIf (r + 1 < len) (spells s r [dot, slash]) then
    pure ⟨s, r + 2, w⟩
  else if ← onlyIf (r + 2 < len) (spells s r [dot, dot, slash]) then
    pure ⟨s, r + 3, w⟩
  else if ← onlyIf (r + 2 < len) (spells s r [slash, dot, slash]) then
    pure ⟨s, r + 2, w⟩
  else if ← onlyIf (r + 2 = len) (spells s r [slash, dot]) then
    let s ← store s (r + 1) slash
    pure ⟨s, r + 1, w⟩
  else if ← onlyIf (r + 3 < len) (spells s r [slash, dot, dot, slash]) then
    let w ← popLoop s w
    pure ⟨s, r + 3, w⟩
  else if ← onlyIf (r + 3 = len) (spells s r [slash, dot, dot]) then
    let s ← store s (r + 2) slash
    let w ← popLoop s w
    pure ⟨s, r + 2, w⟩
  else if ← onlyIf (r + 1 = len) (spells s r [dot]) then
    pure ⟨s, r + 1, w⟩
  else if ← onlyIf (r + 2 = len) (spells s r [dot, dot]) then
    pure ⟨s, r + 2, w⟩
  else copyLoop len len ⟨s, r, w⟩

/-- `while (r < len)`; `rounds` bounds the loop. -/
def dotLoop (len : ℕ) : ℕ → DotState → Option DotState
  | rounds, st =>
    if st.r < len then
      match rounds with
      | 0 => none
      | rounds + 1 => do
        let st ← dotRound len st
        dotLoop len rounds st
    else some st

/-- The array afterwards and the length of the path. -/
def urlRemoveDotSegments (s : Bytes) : Option (Bytes × ℕ) := do
  let st ← dotLoop s.length s.length ⟨s, 0, 0⟩
  pure (st.s, st.w)

variable {s : Bytes}

theorem spells_eq {text : Bytes} : ∀ {i : ℕ}, i + text.length ≤ s.length →
    spells s i text = some (decide (text <+: s.drop i)) := by
  induction text with
  | nil =>
    intro i _
    simp [spells]
  | cons c text ih =>
    intro i hfits
    rw [List.length_cons] at hfits
    have hlt : i < s.length := by omega
    rw [spells, List.getElem?_eq_getElem hlt, List.drop_eq_getElem_cons hlt]
    dsimp only
    by_cases hc : s[i] = c
    · rw [if_pos hc, ih (by omega), hc]
      simp
    · rw [if_neg hc, decide_eq_false]
      rw [List.cons_prefix_cons]
      exact fun h => hc h.1.symm

theorem onlyIf_lt {text : Bytes} {r k : ℕ} (htext : text.length = k + 1) :
    onlyIf (r + k < s.length) (spells s r text) = some (decide (text <+: s.drop r)) := by
  unfold onlyIf
  by_cases hinside : r + k < s.length
  · rw [if_pos (decide_eq_true hinside), spells_eq (by omega)]
  · rw [if_neg (by simpa using hinside), decide_eq_false]
    intro hle
    have hlength := hle.length_le
    rw [List.length_drop] at hlength
    omega

theorem onlyIf_eq {text : Bytes} {r : ℕ} (hr : r ≤ s.length) :
    onlyIf (r + text.length = s.length) (spells s r text) = some (decide (s.drop r = text)) := by
  unfold onlyIf
  by_cases hinside : r + text.length = s.length
  · have hlength : (s.drop r).length = text.length := by
      rw [List.length_drop]
      omega
    rw [if_pos (decide_eq_true hinside), spells_eq hinside.le]
    congr 1
    rw [decide_eq_decide]
    constructor
    · exact fun hle => (hle.eq_of_length hlength.symm).symm
    · exact fun heq => heq ▸ List.prefix_rfl
  · rw [if_neg (by simpa using hinside), decide_eq_false]
    intro heq
    rw [← heq, List.length_drop] at hinside
    omega

/-- The array keeps its length, the bytes written are the output and those to be read the
input of the algorithm. -/
structure Simulates (len : ℕ) (st : DotState) (input output : Bytes) : Prop where
  length_eq : st.s.length = len
  ordered : st.w ≤ st.r
  bounded : st.r ≤ len
  input_eq : st.s.drop st.r = input
  output_eq : st.s.take st.w = output

theorem store_eq {i : ℕ} (hi : i < s.length) (c : UInt8) :
    store s i c = some (s.set i c) := if_pos hi

theorem popLoop_eq : ∀ {w : ℕ}, w ≤ s.length →
    ∃ w', popLoop s w = some w' ∧ w' ≤ w ∧ s.take w' = removeLast slash (s.take w) := by
  intro w
  induction w with
  | zero =>
    intro _
    exact ⟨0, rfl, le_rfl, rfl⟩
  | succ w ih =>
    intro hw
    have hlt : w < s.length := hw
    have htake : s.take (w + 1) = s.take w ++ [s[w]] := by
      rw [List.take_add_one, List.getElem?_eq_getElem hlt]
      rfl
    rw [popLoop, List.getElem?_eq_getElem hlt, htake]
    dsimp only
    by_cases hc : s[w] = slash
    · rw [if_neg (not_not.mpr hc), hc]
      exact ⟨w, rfl, Nat.le_succ w, (removeLast_append _ List.not_mem_nil).symm⟩
    · rw [if_pos hc]
      obtain ⟨w', hrun, hle, hpop⟩ := ih hlt.le
      exact ⟨w', hrun, hle.trans (Nat.le_succ w), hpop.trans (removeLast_concat _ hc).symm⟩

section Rounds

variable {len : ℕ} {st : DotState} {input output : Bytes}

theorem Simulates.read_lt (h : Simulates len st input output) (hinput : input ≠ []) :
    st.r < len := by
  by_contra hend
  apply hinput
  rw [← h.input_eq]
  exact List.drop_eq_nil_of_le (by rw [h.length_eq]; omega)

theorem copyByte_eq {c : UInt8} {tail : Bytes} (h : Simulates len st (c :: tail) output) :
    copyByte st = some ⟨st.s.set st.w c, st.r + 1, st.w + 1⟩ ∧
      Simulates len ⟨st.s.set st.w c, st.r + 1, st.w + 1⟩ tail (output ++ [c]) := by
  have hlt := h.read_lt (List.cons_ne_nil c tail)
  have hread : st.r < st.s.length := h.length_eq ▸ hlt
  have hwrite : st.w < st.s.length := h.ordered.trans_lt hread
  have hdrop := h.input_eq
  rw [List.drop_eq_getElem_cons hread] at hdrop
  obtain ⟨hc, htail⟩ := List.cons.inj hdrop
  refine ⟨?_, ?_, Nat.succ_le_succ h.ordered, hlt, ?_, ?_⟩
  · unfold copyByte
    rw [List.getElem?_eq_getElem hread, hc]
    simp only [Option.bind_eq_bind, Option.bind_some, store_eq hwrite]
    rfl
  · rw [List.length_set, h.length_eq]
  · rw [List.drop_set_of_lt (Nat.lt_succ_of_le h.ordered), htail]
  · rw [List.take_add_one, List.take_set_of_le le_rfl, h.output_eq,
      List.getElem?_eq_getElem (by simpa using hwrite), List.getElem_set_self]
    rfl

theorem copyLoop_eq (rounds : ℕ) : ∀ {st : DotState} {c : UInt8} {tail output : Bytes},
    Simulates len st (c :: tail) output → len - st.r ≤ rounds →
    ∃ st', copyLoop len rounds st = some st' ∧ st.r < st'.r ∧
      Simulates len st' (tail.dropWhile (· ≠ slash))
        (output ++ [c] ++ tail.takeWhile (· ≠ slash)) := by
  induction rounds with
  | zero =>
    intro st c tail output h hrounds
    have hlt := h.read_lt (List.cons_ne_nil c tail)
    omega
  | succ rounds ih =>
    intro st c tail output h hrounds
    obtain ⟨hcopy, hnext⟩ := copyByte_eq h
    have hlt := h.read_lt (List.cons_ne_nil c tail)
    rw [copyLoop, hcopy]
    simp only [Option.bind_eq_bind, Option.bind_some]
    cases tail with
    | nil =>
      have hend : ¬ st.r + 1 < len := by
        intro hmore
        have hlength := congrArg List.length hnext.input_eq
        rw [List.length_drop, hnext.length_eq] at hlength
        dsimp only [List.length_nil] at hlength
        omega
      rw [if_neg hend]
      refine ⟨_, rfl, Nat.lt_succ_self _, ?_⟩
      simpa using hnext
    | cons d tail =>
      have hmore := hnext.read_lt (List.cons_ne_nil d tail)
      have hread : (st.s.set st.w c)[st.r + 1]? = some d := by
        rw [← List.head?_drop, hnext.input_eq]
        rfl
      rw [if_pos hmore, hread]
      simp only [Option.bind_some]
      by_cases hd : d = slash
      · rw [if_neg (not_not.mpr hd)]
        refine ⟨_, rfl, Nat.lt_succ_self _, ?_⟩
        simpa [hd] using hnext
      · rw [if_pos hd]
        obtain ⟨st', hrun, hless, hsim⟩ := ih hnext (by dsimp only; omega)
        refine ⟨st', hrun, (Nat.lt_succ_self _).trans hless, ?_⟩
        rw [List.dropWhile_cons_of_pos (by simpa using hd),
          List.takeWhile_cons_of_pos (by simpa using hd)]
        simpa using hsim

section

variable (h : Simulates len st input output)

include h

theorem Simulates.skip {n : ℕ} (hn : st.r + n ≤ len) :
    Simulates len ⟨st.s, st.r + n, st.w⟩ (input.drop n) output := by
  refine ⟨h.length_eq, h.ordered.trans (Nat.le_add_right _ _), hn, ?_, h.output_eq⟩
  rw [← h.input_eq, List.drop_drop]

theorem Simulates.slashLast {n : ℕ}
    (hn : st.r + n + 1 = len) :
    store st.s (st.r + n) slash = some (st.s.set (st.r + n) slash) ∧
      Simulates len ⟨st.s.set (st.r + n) slash, st.r + n, st.w⟩ [slash] output := by
  have hlt : st.r + n < st.s.length := by
    rw [h.length_eq]
    omega
  have hw := h.ordered
  refine ⟨store_eq hlt slash, ?_, hw.trans (Nat.le_add_right _ _), ?_, ?_, ?_⟩
  · rw [List.length_set, h.length_eq]
  · dsimp only
    omega
  · rw [List.drop_eq_getElem_cons (by simpa using hlt), List.getElem_set_self,
      List.drop_eq_nil_of_le]
    rw [List.length_set, h.length_eq, hn]
  · rw [List.take_set_of_le (hw.trans (Nat.le_add_right _ _)), h.output_eq]

theorem Simulates.pop :
    ∃ w, popLoop st.s st.w = some w ∧
      Simulates len ⟨st.s, st.r, w⟩ input (removeLast slash output) := by
  obtain ⟨w, hrun, hle, htake⟩ := @popLoop_eq st.s st.w
    (h.ordered.trans (h.bounded.trans h.length_eq.ge))
  refine ⟨w, hrun, h.length_eq, hle.trans h.ordered, h.bounded, h.input_eq, ?_⟩
  rw [htake, h.output_eq]

theorem dotRound_eq (hinput : input ≠ []) :
    ∃ st', dotRound len st = some st' ∧ st.r < st'.r ∧
      Simulates len st' (round slash dot input output).1 (round slash dot input output).2 := by
  obtain ⟨s, r, w⟩ := st
  have hdrop : s.drop r = input := h.input_eq
  have hlen : s.length = len := h.length_eq
  have hr : r ≤ s.length := hlen ▸ h.bounded
  have hlength : r + input.length = len := by
    rw [← hdrop, List.length_drop]
    omega
  have before : ∀ {text : Bytes} {k : ℕ}, text.length = k + 1 →
      onlyIf (r + k < len) (spells s r text) = some (decide (text <+: input)) := by
    intro text k htext
    rw [← hdrop, ← hlen]
    exact onlyIf_lt htext
  have alone : ∀ {text : Bytes} {k : ℕ}, text.length = k →
      onlyIf (r + k = len) (spells s r text) = some (decide (input = text)) := by
    intro text k htext
    subst htext
    rw [← hdrop, ← hlen]
    exact onlyIf_eq hr
  unfold dotRound Library.DotSegments.round
  simp only [Option.bind_eq_bind, Option.bind_some, @before [dot, slash] 1 rfl,
    @before [dot, dot, slash] 2 rfl, @before [slash, dot, slash] 2 rfl,
    @alone [slash, dot] 2 rfl, @before [slash, dot, dot, slash] 3 rfl,
    @alone [slash, dot, dot] 3 rfl, @alone [dot] 1 rfl, @alone [dot, dot] 2 rfl,
    decide_eq_true_eq]
  have hne : dot ≠ slash := by decide
  by_cases h2 : [dot, slash] <+: input
  · have h1 : ¬ [dot, dot, slash] <+: input := by
      obtain ⟨rest, rfl⟩ := h2
      simp [hne]
    have hle := h2.length_le
    rw [if_pos h2, if_neg h1, if_pos h2]
    exact ⟨_, rfl, Nat.lt_add_of_pos_right Nat.two_pos, h.skip (hlength ▸ Nat.add_le_add_left hle r)⟩
  rw [if_neg h2]
  by_cases h1 : [dot, dot, slash] <+: input
  · have hle := h1.length_le
    rw [if_pos h1, if_pos h1]
    exact ⟨_, rfl, Nat.lt_add_of_pos_right (Nat.succ_pos 2),
      h.skip (hlength ▸ Nat.add_le_add_left hle r)⟩
  rw [if_neg h1, if_neg h1, if_neg h2]
  by_cases h3 : [slash, dot, slash] <+: input
  · have hle := h3.length_le
    rw [if_pos h3, if_pos h3]
    have hskip := @Simulates.skip _ _ _ _ h 2 (by dsimp only [List.length_cons] at hle ⊢; omega)
    obtain ⟨rest, rfl⟩ := h3
    exact ⟨_, rfl, Nat.lt_add_of_pos_right Nat.two_pos, hskip⟩
  rw [if_neg h3, if_neg h3]
  by_cases h4 : input = [slash, dot]
  · rw [if_pos h4, if_pos h4]
    rw [h4] at hlength
    obtain ⟨hstore, hsim⟩ := @Simulates.slashLast _ _ _ _ h 1 hlength
    rw [hstore]
    exact ⟨_, rfl, Nat.lt_succ_self r, hsim⟩
  rw [if_neg h4, if_neg h4]
  by_cases h5 : [slash, dot, dot, slash] <+: input
  · have hle := h5.length_le
    rw [if_pos h5, if_pos h5]
    obtain ⟨w', hpop, hpopped⟩ := h.pop
    rw [hpop]
    have hskip := @Simulates.skip _ _ _ _ hpopped 3
      (by dsimp only [List.length_cons] at hle ⊢; omega)
    obtain ⟨rest, rfl⟩ := h5
    exact ⟨_, rfl, Nat.lt_add_of_pos_right (Nat.succ_pos 2), hskip⟩
  rw [if_neg h5, if_neg h5]
  by_cases h6 : input = [slash, dot, dot]
  · rw [if_pos h6, if_pos h6]
    rw [h6] at hlength
    obtain ⟨hstore, hsim⟩ := @Simulates.slashLast _ _ _ _ h 2 hlength
    obtain ⟨w', hpop, hpopped⟩ := hsim.pop
    rw [hstore]
    dsimp only [Option.bind_some]
    rw [hpop]
    exact ⟨_, rfl, Nat.lt_add_of_pos_right Nat.two_pos, hpopped⟩
  rw [if_neg h6, if_neg h6]
  by_cases h7 : input = [dot]
  · rw [if_pos h7, if_pos (.inl h7)]
    rw [h7] at hlength
    have hskip := @Simulates.skip _ _ _ _ h 1 hlength.le
    rw [h7] at hskip
    exact ⟨_, rfl, Nat.lt_succ_self r, hskip⟩
  rw [if_neg h7]
  by_cases h8 : input = [dot, dot]
  · rw [if_pos h8, if_pos (.inr h8)]
    rw [h8] at hlength
    have hskip := @Simulates.skip _ _ _ _ h 2 hlength.le
    rw [h8] at hskip
    exact ⟨_, rfl, Nat.lt_add_of_pos_right Nat.two_pos, hskip⟩
  rw [if_neg h8, if_neg (not_or.mpr ⟨h7, h8⟩)]
  obtain ⟨c, tail, rfl⟩ := List.exists_cons_of_ne_nil hinput
  exact copyLoop_eq len h (Nat.sub_le _ _)

end

/-- The induction is on the rounds; every one of them reads on. -/
theorem dotLoop_eq (rounds : ℕ) : ∀ {st : DotState} {input output : Bytes},
    Simulates len st input output → len - st.r ≤ rounds →
    ∃ st', dotLoop len rounds st = some st' ∧ Simulates len st' [] (reduce slash dot input output) := by
  induction rounds with
  | zero =>
    intro st input output h hrounds
    have hend : ¬ st.r < len := by omega
    have hinput : input = [] := by
      rw [← h.input_eq]
      exact List.drop_eq_nil_of_le (by rw [h.length_eq]; omega)
    rw [dotLoop, if_neg hend, hinput, reduce_nil]
    exact ⟨st, rfl, hinput ▸ h⟩
  | succ rounds ih =>
    intro st input output h hrounds
    by_cases hinput : input = []
    · have hend : ¬ st.r < len := by
        intro hlt
        have hlength := congrArg List.length h.input_eq
        rw [List.length_drop, h.length_eq, hinput, List.length_nil] at hlength
        omega
      rw [dotLoop, if_neg hend, hinput, reduce_nil]
      exact ⟨st, rfl, hinput ▸ h⟩
    · obtain ⟨mid, hround, hless, hmid⟩ := dotRound_eq h hinput
      rw [dotLoop, if_pos (h.read_lt hinput), reduce_of_ne_nil slash dot hinput,
        hround]
      exact ih hmid (by omega)

end Rounds

theorem urlRemoveDotSegments_run (path : Bytes) :
    ∃ st : DotState, urlRemoveDotSegments path = some (st.s, st.w) ∧
      Simulates path.length st [] (removeDotSegments slash dot path) := by
  have hstart : Simulates path.length ⟨path, 0, 0⟩ path [] :=
    ⟨rfl, le_rfl, Nat.zero_le _, rfl, rfl⟩
  obtain ⟨st, hrun, h⟩ := dotLoop_eq path.length hstart (Nat.sub_le _ _)
  refine ⟨st, ?_, h⟩
  unfold urlRemoveDotSegments
  rw [hrun]
  rfl

theorem removeDotSegments_eq_of_run {path : Bytes} {w : ℕ}
    (hrun : urlRemoveDotSegments path = some (s, w)) :
    removeDotSegments slash dot path = s.take w := by
  obtain ⟨st, hst, h⟩ := urlRemoveDotSegments_run path
  rw [hrun] at hst
  obtain ⟨hs, hw⟩ := Prod.mk.inj (Option.some.inj hst)
  rw [hs, hw, h.output_eq]

/-- The call touches no byte outside of the path and leaves the result of the algorithm of
RFC 3986 at its start. -/
theorem url_remove_dot_segments_eq (path : Bytes) :
    ∃ s w, urlRemoveDotSegments path = some (s, w) ∧ s.length = path.length ∧
      w ≤ path.length ∧ s.take w = removeDotSegments slash dot path := by
  obtain ⟨st, hrun, h⟩ := urlRemoveDotSegments_run path
  exact ⟨st.s, st.w, hrun, h.length_eq, h.ordered.trans h.bounded, h.output_eq⟩

end Yans.Net.Url
