import Mathlib.Data.List.Basic
import Mathlib.Data.List.DropRight
import Mathlib.Data.List.TakeWhile
import Mathlib.Logic.Function.Iterate
import Mathlib.Tactic.Common

/-! Removing dot segments from a path, as RFC 3986 has it in section 5.2.4: the path is
moved segment by segment from an input to an output buffer. -/
namespace Yans.Library.DotSegments

variable {α : Type*} (slash dot : α)

def Ends (rest : List α) : Prop := rest = [] ∨ rest.head? = some slash

def Starts (before : List α) : Prop := before = [] ∨ before.getLast? = some slash

def IsDots (segment : List α) : Prop := segment = [dot] ∨ segment = [dot, dot]

variable {rest : List α}

theorem Ends.cases {slash : α} (h : Ends slash rest) :
    rest = [] ∨ ∃ more, rest = slash :: more := by
  cases rest with
  | nil => exact .inl rfl
  | cons c more =>
    obtain hnil | hhead := h
    · cases hnil
    · right
      exact ⟨more, congrArg (· :: more) (Option.some.inj hhead)⟩

theorem ends_cons (rest : List α) : Ends slash (slash :: rest) := .inr rfl

theorem Starts.cases {slash : α} {before : List α} (h : Starts slash before) :
    before = [] ∨ ∃ front, before = front ++ [slash] := by
  obtain hnil | hlast := h
  · exact .inl hnil
  · right
    obtain ⟨front, rfl⟩ := List.getLast?_eq_some_iff.mp hlast
    exact ⟨front, rfl⟩

def DotFree (path : List α) : Prop :=
  ∀ before segment rest, path = before ++ segment ++ rest → Starts slash before →
    Ends slash rest → slash ∉ segment → ¬ IsDots dot segment

section Free

variable {slash dot : α}

theorem not_isDots_nil : ¬ IsDots dot [] := by
  intro h
  obtain h | h := h <;> cases h

theorem dotFree_nil : DotFree slash dot [] := by
  intro before segment rest hsplit _ _ _ hdots
  obtain ⟨hfront, -⟩ := List.append_eq_nil_iff.mp hsplit.symm
  obtain ⟨-, rfl⟩ := List.append_eq_nil_iff.mp hfront
  exact not_isDots_nil hdots

theorem dotFree_segment {segment : List α} (hfree : slash ∉ segment)
    (hplain : ¬ IsDots dot segment) : DotFree slash dot segment := by
  intro before middle rest hsplit hstarts hends _
  obtain rfl | ⟨front, rfl⟩ := hstarts.cases
  · obtain rfl | ⟨more, rfl⟩ := hends.cases
    · rwa [hsplit, List.nil_append, List.append_nil] at hplain
    · simp [hsplit] at hfree
  · simp [hsplit] at hfree

theorem DotFree.front {path rest : List α} (h : DotFree slash dot (path ++ rest))
    (hrest : Ends slash rest) : DotFree slash dot path := by
  intro before segment after hsplit hstarts hends
  refine h before segment (after ++ rest) ?_ hstarts ?_
  · rw [hsplit, List.append_assoc]
  · obtain rfl | ⟨more, rfl⟩ := hends.cases
    · exact hrest
    · exact ends_cons slash (more ++ rest)

theorem DotFree.back {front path : List α} (h : DotFree slash dot (front ++ path))
    (hpath : Ends slash path) : DotFree slash dot path := by
  intro before segment after hsplit hstarts hends hfree hdots
  obtain rfl | ⟨start, rfl⟩ := hstarts.cases
  · -- a segment at the start of the path is empty, or it is the whole of it
    rw [List.nil_append] at hsplit
    cases segment with
    | nil => exact not_isDots_nil hdots
    | cons c segment =>
      obtain hnil | ⟨more, hmore⟩ := hpath.cases
      · rw [hnil] at hsplit
        cases hsplit
      · rw [hmore, List.cons_append] at hsplit
        exact hfree ((List.cons.inj hsplit).1 ▸ List.mem_cons_self)
  · refine h (front ++ (start ++ [slash])) segment after ?_ ?_ hends hfree hdots
    · rw [hsplit]
      simp only [List.append_assoc]
    · right
      rw [← List.append_assoc, List.getLast?_concat]

theorem DotFree.append {path segment : List α} (h : DotFree slash dot path)
    (hfree : slash ∉ segment) (hplain : ¬ IsDots dot segment) :
    DotFree slash dot (path ++ slash :: segment) := by
  intro before middle rest hsplit hstarts hends hmiddle
  rw [List.append_eq_append_iff] at hsplit
  obtain ⟨more, hbefore, hsegment⟩ | ⟨more, rfl, hrest⟩ := hsplit
  · rw [List.append_eq_append_iff] at hbefore
    obtain ⟨last, rfl, rfl⟩ | ⟨last, rfl, rfl⟩ := hbefore
    · -- the segment starts in the path; then it also ends there
      cases more with
      | nil =>
        rw [List.append_nil] at hmiddle ⊢
        exact h before last [] (List.append_nil _).symm hstarts (.inl rfl) hmiddle
      | cons c more =>
        rw [List.cons_append] at hsegment
        rw [← (List.cons.inj hsegment).1] at hmiddle
        exact absurd (List.mem_append_right _ List.mem_cons_self) hmiddle
    · cases last with
      | nil =>
        cases middle with
        | nil => exact not_isDots_nil
        | cons c middle =>
          rw [← (List.cons.inj hsegment).1] at hmiddle
          exact absurd List.mem_cons_self hmiddle
      | cons c last =>
        obtain ⟨rfl, rfl⟩ := List.cons.inj hsegment
        obtain rfl | ⟨front, hlast⟩ : last = [] ∨ ∃ front, last = front ++ [slash] := by
          cases List.eq_nil_or_concat last with
          | inl hnil => exact .inl hnil
          | inr hconcat =>
            right
            obtain ⟨front, d, rfl⟩ := hconcat
            obtain hnil | hlast := hstarts
            · simp at hnil
            · rw [List.concat_eq_append, ← List.cons_append, ← List.append_assoc,
                List.getLast?_concat] at hlast
              exact ⟨front, by rw [List.concat_eq_append, Option.some.inj hlast]⟩
        · obtain rfl | ⟨more, rfl⟩ := hends.cases
          · simpa using hplain
          · simp at hfree
        · rw [hlast] at hfree
          simp at hfree
  · refine h before middle more rfl hstarts ?_ hmiddle
    cases more with
    | nil => exact .inl rfl
    | cons c more =>
      obtain hnil | ⟨after, hafter⟩ := hends.cases
      · rw [hnil] at hrest
        cases hrest
      · rw [hafter] at hrest
        rw [← (List.cons.inj hrest).1]
        exact ends_cons slash more

end Free

variable [DecidableEq α]

instance (segment : List α) : Decidable (IsDots dot segment) :=
  inferInstanceAs (Decidable (_ ∨ _))

/-- The output without its last segment and the slash in front of it, if any. -/
def removeLast (output : List α) : List α := (output.rdropWhile (· ≠ slash)).dropLast

/-- One round on the input and the output buffer, by the rules A to E. -/
def round (input output : List α) : List α × List α :=
  if [dot, dot, slash] <+: input then (input.drop 3, output)
  else if [dot, slash] <+: input then (input.drop 2, output)
  else if [slash, dot, slash] <+: input then (slash :: input.drop 3, output)
  else if input = [slash, dot] then ([slash], output)
  else if [slash, dot, dot, slash] <+: input then (slash :: input.drop 4, removeLast slash output)
  else if input = [slash, dot, dot] then ([slash], removeLast slash output)
  else if input = [dot] ∨ input = [dot, dot] then ([], output)
  else (input.tail.dropWhile (· ≠ slash),
    output ++ input.take 1 ++ input.tail.takeWhile (· ≠ slash))

inductive Rule : List α → List α → List α → List α → Prop where
  | dropTwo (rest output : List α) : Rule (dot :: dot :: slash :: rest) output rest output
  | dropOne (rest output : List α) : Rule (dot :: slash :: rest) output rest output
  | here (rest output : List α) : Rule (slash :: dot :: slash :: rest) output (slash :: rest) output
  | hereLast (output : List α) : Rule [slash, dot] output [slash] output
  | up (rest output : List α) :
      Rule (slash :: dot :: dot :: slash :: rest) output (slash :: rest) (removeLast slash output)
  | upLast (output : List α) : Rule [slash, dot, dot] output [slash] (removeLast slash output)
  | dots {input : List α} (output : List α) (alone : IsDots dot input) : Rule input output [] output
  | move {c : α} {segment rest : List α} (output : List α) (free : slash ∉ segment)
      (ends : Ends slash rest)
      (plain : ¬ IsDots dot (if c = slash then segment else c :: segment)) :
      Rule (c :: (segment ++ rest)) output rest (output ++ c :: segment)

theorem ends_dropWhile (input : List α) : Ends slash (input.dropWhile (· ≠ slash)) := by
  cases hrest : input.dropWhile (· ≠ slash) with
  | nil => exact .inl rfl
  | cons c rest =>
    right
    have hhead := List.head?_dropWhile_not (· ≠ slash) input
    rw [hrest] at hhead
    simpa using hhead

variable {input : List α}

theorem round_rule (hinput : input ≠ []) (output : List α) :
    Rule slash dot input output (round slash dot input output).1
      (round slash dot input output).2 := by
  unfold round
  by_cases h1 : [dot, dot, slash] <+: input
  · rw [if_pos h1]
    obtain ⟨rest, rfl⟩ := h1
    exact .dropTwo rest output
  rw [if_neg h1]
  by_cases h2 : [dot, slash] <+: input
  · rw [if_pos h2]
    obtain ⟨rest, rfl⟩ := h2
    exact .dropOne rest output
  rw [if_neg h2]
  by_cases h3 : [slash, dot, slash] <+: input
  · rw [if_pos h3]
    obtain ⟨rest, rfl⟩ := h3
    exact .here rest output
  rw [if_neg h3]
  by_cases h4 : input = [slash, dot]
  · rw [if_pos h4, h4]
    exact .hereLast output
  rw [if_neg h4]
  by_cases h5 : [slash, dot, dot, slash] <+: input
  · rw [if_pos h5]
    obtain ⟨rest, rfl⟩ := h5
    exact .up rest output
  rw [if_neg h5]
  by_cases h6 : input = [slash, dot, dot]
  · rw [if_pos h6, h6]
    exact .upLast output
  rw [if_neg h6]
  by_cases h7 : input = [dot] ∨ input = [dot, dot]
  · rw [if_pos h7]
    exact .dots output h7
  rw [if_neg h7]
  obtain ⟨c, tail, rfl⟩ := List.exists_cons_of_ne_nil hinput
  have hsplit : tail.takeWhile (· ≠ slash) ++ tail.dropWhile (· ≠ slash) = tail :=
    List.takeWhile_append_dropWhile
  have hends := ends_dropWhile slash tail
  have hfree : slash ∉ tail.takeWhile (· ≠ slash) := by
    intro hmem
    have hne := List.mem_takeWhile_imp hmem
    simp at hne
  simp only [List.tail_cons, List.take_succ_cons, List.take_zero, List.append_assoc,
    List.singleton_append]
  generalize tail.takeWhile (· ≠ slash) = segment at hsplit hfree ⊢
  generalize tail.dropWhile (· ≠ slash) = rest at hsplit hends ⊢
  subst hsplit
  refine .move output hfree hends ?_
  intro hdots
  obtain rfl | ⟨more, rfl⟩ := hends.cases
  · rw [List.append_nil] at h4 h6 h7
    by_cases hc : c = slash
    · subst hc
      rw [if_pos rfl] at hdots
      obtain rfl | rfl := hdots
      · exact h4 rfl
      · exact h6 rfl
    · rw [if_neg hc] at hdots
      exact h7 hdots
  · by_cases hc : c = slash
    · subst hc
      rw [if_pos rfl] at hdots
      obtain rfl | rfl := hdots
      · exact h3 ⟨more, rfl⟩
      · exact h5 ⟨more, rfl⟩
    · rw [if_neg hc] at hdots
      obtain hone | htwo := hdots
      · rw [← List.cons_append, hone] at h2
        exact h2 ⟨more, rfl⟩
      · rw [← List.cons_append, htwo] at h1
        exact h1 ⟨more, rfl⟩

variable {slash dot}

variable {output : List α}

theorem removeLast_of_not_mem (h : slash ∉ output) :
    removeLast slash output = [] := by
  have hnone : output.rdropWhile (· ≠ slash) = [] := by
    rw [List.rdropWhile_eq_nil_iff]
    intro c hc
    exact decide_eq_true fun heq => h (heq ▸ hc)
  rw [removeLast, hnone]
  rfl

variable {segment : List α}

theorem removeLast_append (front : List α) (h : slash ∉ segment) :
    removeLast slash (front ++ slash :: segment) = front := by
  have hsegment : ∀ c ∈ segment.reverse, decide (c ≠ slash) = true := by
    intro c hc
    exact decide_eq_true fun heq => h (heq ▸ List.mem_reverse.mp hc)
  unfold removeLast List.rdropWhile
  rw [List.reverse_append, List.reverse_cons, List.append_assoc, List.singleton_append,
    List.dropWhile_append_of_pos hsegment, List.dropWhile_cons_of_neg (by simp)]
  simp

theorem exists_last_slash (output : List α) : slash ∉ output ∨
    ∃ front segment, output = front ++ slash :: segment ∧ slash ∉ segment := by
  by_cases h : slash ∈ output
  · right
    obtain ⟨segment, front, hsplit, hfree⟩ :=
      List.eq_append_cons_of_mem (List.mem_reverse.mpr h)
    refine ⟨front.reverse, segment.reverse, ?_, fun hmem => hfree (List.mem_reverse.mp hmem)⟩
    rw [← List.reverse_inj, hsplit]
    simp
  · exact .inl h

theorem removeLast_concat (output : List α) {c : α} (hc : c ≠ slash) :
    removeLast slash (output ++ [c]) = removeLast slash output := by
  obtain hfree | ⟨front, segment, rfl, hfree⟩ := @exists_last_slash α slash _ output
  · rw [removeLast_of_not_mem hfree, removeLast_of_not_mem]
    simpa [hfree] using hc.symm
  · rw [removeLast_append front hfree, List.append_assoc, List.cons_append, removeLast_append]
    simpa [hfree] using hc.symm

theorem length_removeLast_le (output : List α) :
    (removeLast slash output).length ≤ output.length := by
  unfold removeLast
  rw [List.length_dropLast]
  exact (Nat.sub_le _ _).trans (List.rdropWhile_prefix _ _).length_le

theorem Rule.length_lt {input' output' : List α}
    (h : Rule slash dot input output input' output') : input'.length < input.length := by
  cases h with
  | dots _ alone =>
    obtain rfl | rfl := alone
    · exact Nat.one_pos
    · exact Nat.two_pos
  | move _ _ _ _ =>
    rw [List.length_cons, List.length_append]
    omega
  | _ =>
    simp only [List.length_cons, List.length_nil]
    omega

variable (slash dot)

def reduce (input output : List α) : List α :=
  if _hinput : input = [] then output
  else reduce (round slash dot input output).1 (round slash dot input output).2
termination_by input.length
decreasing_by exact (round_rule slash dot _hinput output).length_lt

def removeDotSegments (path : List α) : List α := reduce slash dot path []

@[simp] theorem reduce_nil (output : List α) : reduce slash dot [] output = output := by
  rw [reduce, dif_pos rfl]

@[simp] theorem removeDotSegments_nil : removeDotSegments slash dot [] = [] :=
  reduce_nil slash dot []

theorem reduce_induction {motive : List α → List α → Prop}
    (step : ∀ {input output input' output'}, Rule slash dot input output input' output' →
      motive input output → motive input' output') (n : ℕ) :
    ∀ {input output : List α}, input.length = n → motive input output →
      motive [] (reduce slash dot input output) := by
  induction n using Nat.strongRecOn with
  | _ n ih =>
    intro input output hlength hmotive
    rw [reduce]
    by_cases hinput : input = []
    · rw [dif_pos hinput]
      exact hinput ▸ hmotive
    · rw [dif_neg hinput]
      have hrule := round_rule slash dot hinput output
      exact ih _ (hlength ▸ hrule.length_lt) rfl (step hrule hmotive)

theorem reduce_of_ne_nil (hinput : input ≠ []) (output : List α) :
    reduce slash dot input output =
      reduce slash dot (round slash dot input output).1 (round slash dot input output).2 := by
  rw [reduce, dif_neg hinput]

variable {slash dot}

theorem length_reduce_le (input output : List α) :
    (reduce slash dot input output).length ≤ input.length + output.length := by
  have hbound := @reduce_induction α slash dot _
    (fun buffer moved => buffer.length + moved.length ≤ input.length + output.length)
    (fun {buffer moved buffer' moved'} hrule hle => ?_) _ input output rfl le_rfl
  · rwa [List.length_nil, Nat.zero_add] at hbound
  · have hlast := @length_removeLast_le α slash _ moved
    cases hrule with
    | dots _ alone =>
      rw [List.length_nil]
      omega
    | _ =>
      simp only [List.length_cons, List.length_nil, List.length_append] at hle ⊢
      omega

theorem length_removeDotSegments_le (path : List α) :
    (removeDotSegments slash dot path).length ≤ path.length := by
  simpa [removeDotSegments] using @length_reduce_le α slash dot _ path []

variable {path : List α}

theorem head?_removeDotSegments (hpath : path.head? = some slash) (hne : slash ≠ dot) :
    (removeDotSegments slash dot path).head? = some slash := by
  have hends := @reduce_induction α slash dot _
    (fun buffer moved => buffer.head? = some slash ∧ (moved = [] ∨ moved.head? = some slash) ∨
      buffer = [] ∧ moved.head? = some slash)
    (fun {buffer moved buffer' moved'} hrule h => ?_) _ path [] rfl (.inl ⟨hpath, .inl rfl⟩)
  · obtain ⟨h, -⟩ | ⟨-, h⟩ := hends
    · cases h
    · exact h
  · have hlast : (moved = [] ∨ moved.head? = some slash) →
        removeLast slash moved = [] ∨ (removeLast slash moved).head? = some slash := by
      intro hmoved
      obtain hfree | ⟨front, segment, rfl, hfree⟩ := @exists_last_slash α slash _ moved
      · exact .inl (removeLast_of_not_mem hfree)
      · rw [removeLast_append front hfree]
        cases front with
        | nil => exact .inl rfl
        | cons c front =>
          right
          obtain hnil | hhead := hmoved
          · cases hnil
          · exact hhead
    obtain ⟨hhead, hmoved⟩ | ⟨hnil, hmoved⟩ := h
    · cases hrule with
      | dropTwo rest _ => exact absurd (Option.some.inj hhead).symm hne
      | dropOne rest _ => exact absurd (Option.some.inj hhead).symm hne
      | here rest _ => exact .inl ⟨rfl, hmoved⟩
      | hereLast _ => exact .inl ⟨rfl, hmoved⟩
      | up rest _ => exact .inl ⟨rfl, hlast hmoved⟩
      | upLast _ => exact .inl ⟨rfl, hlast hmoved⟩
      | dots _ alone =>
        obtain rfl | rfl := alone <;> exact absurd (Option.some.inj hhead).symm hne
      | @move c segment _ _ _ ends _ =>
        obtain rfl := Option.some.inj hhead
        have hfront : (moved ++ c :: segment).head? = some c := by
          obtain rfl | hmoved := hmoved
          · rfl
          · rw [List.head?_append, hmoved]
            rfl
        obtain rfl | ⟨more, rfl⟩ := ends.cases
        · exact .inr ⟨rfl, hfront⟩
        · exact .inl ⟨rfl, .inr hfront⟩
    · subst hnil
      cases hrule with
      | dots _ alone => exact absurd alone not_isDots_nil

theorem dotFree_removeDotSegments (hne : slash ≠ dot) (path : List α) :
    DotFree slash dot (removeDotSegments slash dot path) := by
  have hfree := @reduce_induction α slash dot _
    (fun buffer moved => DotFree slash dot moved ∧ (moved = [] ∨ Ends slash buffer))
    (fun {buffer moved buffer' moved'} hrule h => ?_) _ path [] rfl ⟨dotFree_nil, .inl rfl⟩
  · exact hfree.1
  · obtain ⟨hmoved, hempty⟩ := h
    have hlast : DotFree slash dot (removeLast slash moved) := by
      obtain hfree | ⟨front, segment, rfl, hfree⟩ := @exists_last_slash α slash _ moved
      · rw [removeLast_of_not_mem hfree]
        exact dotFree_nil
      · rw [removeLast_append front hfree]
        exact hmoved.front (ends_cons slash segment)
    cases hrule with
    | dropTwo rest _ =>
      refine ⟨hmoved, .inl (hempty.resolve_right fun hends => ?_)⟩
      obtain hnil | ⟨more, hmore⟩ := hends.cases
      · cases hnil
      · exact hne (List.cons.inj hmore).1.symm
    | dropOne rest _ =>
      refine ⟨hmoved, .inl (hempty.resolve_right fun hends => ?_)⟩
      obtain hnil | ⟨more, hmore⟩ := hends.cases
      · cases hnil
      · exact hne (List.cons.inj hmore).1.symm
    | here rest _ => exact ⟨hmoved, .inr (ends_cons slash rest)⟩
    | hereLast _ => exact ⟨hmoved, .inr (ends_cons slash [])⟩
    | up rest _ => exact ⟨hlast, .inr (ends_cons slash rest)⟩
    | upLast _ => exact ⟨hlast, .inr (ends_cons slash [])⟩
    | dots _ _ => exact ⟨hmoved, .inr (.inl rfl)⟩
    | @move c segment _ _ free ends plain =>
      refine ⟨?_, .inr ends⟩
      by_cases hc : c = slash
      · subst hc
        rw [if_pos rfl] at plain
        exact hmoved.append free plain
      · rw [if_neg hc] at plain
        obtain rfl | hends := hempty
        · refine dotFree_segment (fun hmem => ?_) plain
          obtain heq | hmem := List.mem_cons.mp hmem
          · exact hc heq.symm
          · exact free hmem
        · obtain hnil | ⟨more, hmore⟩ := hends.cases
          · cases hnil
          · exact absurd (List.cons.inj hmore).1 hc

theorem reduce_of_dotFree (hne : slash ≠ dot) (n : ℕ) : ∀ {input : List α}, input.length = n →
    DotFree slash dot input → ∀ output, reduce slash dot input output = output ++ input := by
  induction n using Nat.strongRecOn with
  | _ n ih =>
    intro input hlength hfree output
    by_cases hinput : input = []
    · rw [hinput, reduce_nil, List.append_nil]
    have hrule := round_rule slash dot hinput output
    rw [reduce_of_ne_nil slash dot hinput]
    generalize (round slash dot input output).1 = input' at hrule ⊢
    generalize (round slash dot input output).2 = output' at hrule ⊢
    have hone : slash ∉ [dot] := by simpa using hne
    have htwo : slash ∉ [dot, dot] := by simpa using hne
    cases hrule with
    | dropTwo _ _ =>
      exact absurd (.inr rfl) (hfree [] [dot, dot] (slash :: input') rfl (.inl rfl)
        (ends_cons slash input') htwo)
    | dropOne _ _ =>
      exact absurd (.inl rfl) (hfree [] [dot] (slash :: input') rfl (.inl rfl)
        (ends_cons slash input') hone)
    | here rest _ =>
      exact absurd (.inl rfl) (hfree [slash] [dot] (slash :: rest) rfl (.inr rfl)
        (ends_cons slash rest) hone)
    | hereLast _ =>
      exact absurd (.inl rfl) (hfree [slash] [dot] [] rfl (.inr rfl) (.inl rfl) hone)
    | up rest _ =>
      exact absurd (.inr rfl) (hfree [slash] [dot, dot] (slash :: rest) rfl (.inr rfl)
        (ends_cons slash rest) htwo)
    | upLast _ =>
      exact absurd (.inr rfl) (hfree [slash] [dot, dot] [] rfl (.inr rfl) (.inl rfl) htwo)
    | dots _ alone =>
      refine absurd alone (hfree [] input [] (List.append_nil _).symm (.inl rfl) (.inl rfl) ?_)
      obtain rfl | rfl := alone
      · exact hone
      · exact htwo
    | @move c segment _ _ _ ends _ =>
      have hrest : DotFree slash dot input' := by
        apply @DotFree.back α slash dot (c :: segment)
        · exact hfree
        · exact ends
      rw [ih input'.length ?_ rfl hrest]
      · simp
      · rw [← hlength, List.length_cons, List.length_append]
        omega

theorem removeDotSegments_of_dotFree (hne : slash ≠ dot) (h : DotFree slash dot path) :
    removeDotSegments slash dot path = path :=
  reduce_of_dotFree hne _ rfl h []

theorem removeDotSegments_keeps {motive : List α → Prop} (alone : motive [slash])
    (back : ∀ {text rest}, motive (text ++ rest) → motive rest)
    (front : ∀ {text rest}, motive (text ++ rest) → Ends slash rest → motive text)
    (append : ∀ {text rest}, motive text → motive rest → motive (text ++ rest))
    (h : motive path) : motive (removeDotSegments slash dot path) := by
  have nil : motive [] := back ((List.append_nil path).symm ▸ h)
  have hboth := @reduce_induction α slash dot _ (fun buffer moved => motive buffer ∧ motive moved)
    (fun {buffer moved buffer' moved'} hrule hmotive => ?_) _ path [] rfl ⟨h, nil⟩
  · exact hboth.2
  · obtain ⟨hbuffer, hmoved⟩ := hmotive
    have hlast : motive (removeLast slash moved) := by
      obtain hfree | ⟨before, segment, rfl, hfree⟩ := @exists_last_slash α slash _ moved
      · rw [removeLast_of_not_mem hfree]
        exact nil
      · rw [removeLast_append before hfree]
        exact front hmoved (ends_cons slash segment)
    cases hrule with
    | dropTwo rest _ => exact ⟨@back [dot, dot, slash] _ hbuffer, hmoved⟩
    | dropOne rest _ => exact ⟨@back [dot, slash] _ hbuffer, hmoved⟩
    | here rest _ => exact ⟨@back [slash, dot] (slash :: rest) hbuffer, hmoved⟩
    | hereLast _ => exact ⟨alone, hmoved⟩
    | up rest _ => exact ⟨@back [slash, dot, dot] (slash :: rest) hbuffer, hlast⟩
    | upLast _ => exact ⟨alone, hlast⟩
    | dots _ _ => exact ⟨nil, hmoved⟩
    | @move c segment rest _ _ ends _ =>
      rw [← List.cons_append] at hbuffer
      exact ⟨back hbuffer, append hmoved (front hbuffer ends)⟩

theorem count_removeDotSegments_le (hne : slash ≠ dot) (path : List α) :
    (removeDotSegments slash dot path).count slash ≤ path.count slash := by
  have hbound := @reduce_induction α slash dot _
    (fun buffer moved => buffer.count slash + moved.count slash ≤ path.count slash)
    (fun {buffer moved buffer' moved'} hrule hle => ?_) _ path [] rfl (by simp)
  · rwa [List.count_nil, Nat.zero_add] at hbound
  · have hlast : (removeLast slash moved).count slash ≤ moved.count slash := by
      obtain hfree | ⟨before, segment, rfl, hfree⟩ := @exists_last_slash α slash _ moved
      · rw [removeLast_of_not_mem hfree, List.count_nil]
        exact Nat.zero_le _
      · rw [removeLast_append before hfree, List.count_append]
        exact Nat.le_add_right _ _
    cases hrule with
    | dots _ _ =>
      rw [List.count_nil]
      omega
    | _ =>
      simp only [List.count_cons, List.count_append, List.count_nil, hne.symm, beq_self_eq_true,
        if_true, beq_iff_eq, if_false] at hle ⊢
      omega

theorem DotFree.first (h : DotFree slash dot path) :
    ¬ IsDots dot (path.takeWhile (· ≠ slash)) := by
  refine h [] _ (path.dropWhile (· ≠ slash)) ?_ (.inl rfl) (ends_dropWhile slash path) ?_
  · rw [List.nil_append, List.takeWhile_append_dropWhile]
  · intro hmem
    simpa using List.mem_takeWhile_imp hmem

theorem DotFree.back_of_first {text : List α} (h : DotFree slash dot (text ++ path))
    (hplain : ¬ IsDots dot (path.takeWhile (· ≠ slash))) : DotFree slash dot path := by
  intro before segment after hsplit hstarts hends hfree
  obtain rfl | ⟨start, rfl⟩ := hstarts.cases
  · -- the first segment
    have hfirst : path.takeWhile (· ≠ slash) = segment := by
      rw [hsplit, List.nil_append, List.takeWhile_append_of_pos]
      · obtain rfl | ⟨more, rfl⟩ := hends.cases
        · rw [List.takeWhile_nil, List.append_nil]
        · rw [List.takeWhile_cons_of_neg (by simp), List.append_nil]
      · exact fun c hc => decide_eq_true fun heq => hfree (heq ▸ hc)
    rwa [hfirst] at hplain
  · refine h (text ++ (start ++ [slash])) segment after ?_ ?_ hends hfree
    · rw [hsplit]
      simp only [List.append_assoc]
    · right
      rw [← List.append_assoc, List.getLast?_concat]

/-! A path behind another one -/

theorem takeWhile_segment (hfree : slash ∉ segment)
    (hends : Ends slash rest) : (segment ++ rest).takeWhile (· ≠ slash) = segment ∧
      (segment ++ rest).dropWhile (· ≠ slash) = rest := by
  have hpass : ∀ c ∈ segment, decide (c ≠ slash) = true :=
    fun c hc => decide_eq_true fun (heq : c = slash) => hfree (heq ▸ hc)
  rw [List.takeWhile_append_of_pos hpass, List.dropWhile_append_of_pos hpass]
  obtain rfl | ⟨more, rfl⟩ := hends.cases
  · exact ⟨List.append_nil segment, rfl⟩
  · rw [List.takeWhile_cons_of_neg (by simp), List.dropWhile_cons_of_neg (by simp)]
    exact ⟨List.append_nil segment, rfl⟩

theorem segment_eq_of_front {segment rest x : List α} (hfree : slash ∉ segment)
    (hends : Ends slash rest) (hx : slash ∉ x) (h : x ++ [slash] <+: segment ++ rest) :
    segment = x := by
  obtain ⟨more, hmore⟩ := h
  rw [List.append_assoc, List.singleton_append] at hmore
  rw [← (takeWhile_segment hfree hends).1, ← hmore,
    (takeWhile_segment hx (ends_cons slash more)).1]

theorem segment_eq_of_eq {x : List α} (hfree : slash ∉ segment)
    (hends : Ends slash rest) (hx : slash ∉ x) (h : segment ++ rest = x) : segment = x := by
  have hx' := (takeWhile_segment hx (.inl rfl)).1
  rw [List.append_nil, ← h] at hx'
  rw [← (takeWhile_segment hfree hends).1, hx', h]

theorem round_move (hne : slash ≠ dot) (hfree : slash ∉ segment)
    (hends : Ends slash rest) (hplain : ¬ IsDots dot segment) (output : List α) :
    round slash dot (slash :: (segment ++ rest)) output = (rest, output ++ slash :: segment) := by
  have hone : slash ∉ [dot] := by simpa using hne
  have htwo : slash ∉ [dot, dot] := by simpa using hne
  have hfirst : ∀ x : List α, x.head? = some dot → ¬ x <+: slash :: (segment ++ rest) := by
    intro x hx h
    obtain ⟨tail, rfl⟩ := List.head?_eq_some_iff.mp hx
    exact hne (List.cons_prefix_cons.mp h).1.symm
  have h3 : ¬ [slash, dot, slash] <+: slash :: (segment ++ rest) := fun h =>
    hplain (.inl (@segment_eq_of_front _ slash _ _ _ [dot] hfree hends hone
      (List.cons_prefix_cons.mp h).2))
  have h4 : ¬ slash :: (segment ++ rest) = [slash, dot] := fun h =>
    hplain (.inl (segment_eq_of_eq hfree hends hone (List.cons.inj h).2))
  have h5 : ¬ [slash, dot, dot, slash] <+: slash :: (segment ++ rest) := fun h =>
    hplain (.inr (@segment_eq_of_front _ slash _ _ _ [dot, dot] hfree hends htwo
      (List.cons_prefix_cons.mp h).2))
  have h6 : ¬ slash :: (segment ++ rest) = [slash, dot, dot] := fun h =>
    hplain (.inr (segment_eq_of_eq hfree hends htwo (List.cons.inj h).2))
  have h7 : ¬ (slash :: (segment ++ rest) = [dot] ∨ slash :: (segment ++ rest) = [dot, dot]) := by
    rintro (h | h) <;> exact hne (List.cons.inj h).1
  unfold round
  rw [if_neg (hfirst _ rfl), if_neg (hfirst _ rfl), if_neg h3, if_neg h4, if_neg h5, if_neg h6,
    if_neg h7]
  obtain ⟨htake, hdrop⟩ := takeWhile_segment hfree hends
  rw [List.tail_cons, htake, hdrop, List.append_assoc]
  rfl

theorem reduce_move (hne : slash ≠ dot) {segment rest : List α} (hfree : slash ∉ segment)
    (hends : Ends slash rest) (hplain : ¬ IsDots dot segment) (output : List α) :
    reduce slash dot (slash :: (segment ++ rest)) output =
      reduce slash dot rest (output ++ slash :: segment) := by
  rw [reduce_of_ne_nil slash dot (List.cons_ne_nil _ _), round_move hne hfree hends hplain]

/-- A path without dot segments moves to the output as it is. The induction is on its length. -/
theorem reduce_append (hne : slash ≠ dot) (hrest : Ends slash rest) (n : ℕ) :
    ∀ {front : List α}, front.length = n → Ends slash front → DotFree slash dot front →
      ∀ output, reduce slash dot (front ++ rest) output = reduce slash dot rest (output ++ front) := by
  induction n using Nat.strongRecOn with
  | _ n ih =>
    intro front hlength hfront hfree output
    obtain rfl | ⟨tail, rfl⟩ := hfront.cases
    · rw [List.nil_append, List.append_nil]
    have hsplit : tail.takeWhile (· ≠ slash) ++ tail.dropWhile (· ≠ slash) = tail :=
      List.takeWhile_append_dropWhile
    have hends := ends_dropWhile slash tail
    have hsegment : slash ∉ tail.takeWhile (· ≠ slash) := by
      intro hmem
      simpa using List.mem_takeWhile_imp hmem
    generalize tail.takeWhile (· ≠ slash) = segment at hsplit hsegment
    generalize tail.dropWhile (· ≠ slash) = back at hsplit hends
    subst hsplit
    have hplain : ¬ IsDots dot segment :=
      hfree [slash] segment back rfl (.inr rfl) hends hsegment
    have hback : DotFree slash dot back := by
      apply @DotFree.back α slash dot (slash :: segment)
      · exact hfree
      · exact hends
    have hboth : Ends slash (back ++ rest) := by
      obtain rfl | ⟨more, rfl⟩ := hends.cases
      · exact hrest
      · exact ends_cons slash (more ++ rest)
    have hmove := reduce_move hne hsegment hboth hplain output
    rw [List.cons_append, List.append_assoc, hmove, ih back.length ?_ rfl hends hback]
    · simp only [List.append_assoc, List.cons_append]
    · rw [← hlength, List.length_cons, List.length_append]
      omega

/-! Climbing above the start of a path -/

variable (slash dot)

def GoesUp (input : List α) : Prop :=
  [slash, dot, dot, slash] <+: input ∨ input = [slash, dot, dot]

instance (input : List α) : Decidable (GoesUp slash dot input) :=
  inferInstanceAs (Decidable (_ ∨ _))

/-- How many segments are to be taken back when there is none. -/
def climbs (input output : List α) : ℕ :=
  if _hinput : input = [] then 0
  else
    (if GoesUp slash dot input ∧ output = [] then 1 else 0) +
      climbs (round slash dot input output).1 (round slash dot input output).2
termination_by input.length
decreasing_by exact (round_rule slash dot _hinput output).length_lt

variable {slash dot}

theorem round_of_goesUp (hne : slash ≠ dot) (h : GoesUp slash dot input)
    (output : List α) :
    round slash dot input output = (slash :: input.drop 4, removeLast slash output) := by
  obtain ⟨rest, rfl⟩ | rfl := h
  · simp [round, hne, hne.symm]
  · simp [round, hne, hne.symm]

/-- What a round does to the input does not depend on the output, and what it moves
goes behind it. -/
theorem round_of_not_goesUp (h : ¬ GoesUp slash dot input) (output : List α) :
    round slash dot input output =
      ((round slash dot input []).1, output ++ (round slash dot input []).2) := by
  unfold GoesUp at h
  rw [not_or] at h
  unfold round
  simp only [if_neg h.1, if_neg h.2]
  split_ifs <;> simp

theorem ends_round (hne : slash ≠ dot) (h : input.head? = some slash) :
    Ends slash (round slash dot input []).1 ∧
      ((round slash dot input []).2 = [] ∨ (round slash dot input []).2.head? = some slash) := by
  have hinput : input ≠ [] := by
    rintro rfl
    cases h
  have hrule := round_rule slash dot hinput []
  generalize (round slash dot input []).1 = rest at hrule ⊢
  generalize (round slash dot input []).2 = moved at hrule ⊢
  cases hrule with
  | dropTwo _ _ => exact absurd (Option.some.inj h).symm hne
  | dropOne _ _ => exact absurd (Option.some.inj h).symm hne
  | here rest _ => exact ⟨ends_cons slash rest, .inl rfl⟩
  | hereLast _ => exact ⟨ends_cons slash [], .inl rfl⟩
  | up rest _ => exact ⟨ends_cons slash rest, .inl rfl⟩
  | upLast _ => exact ⟨ends_cons slash [], .inl rfl⟩
  | dots _ alone =>
    obtain rfl | rfl := alone <;> exact absurd (Option.some.inj h).symm hne
  | move _ _ ends _ => exact ⟨ends, .inr h⟩

theorem removeLast_behind (h : output.head? = some slash) (front : List α) :
    removeLast slash (front ++ output) = front ++ removeLast slash output ∧
      (removeLast slash output = [] ∨ (removeLast slash output).head? = some slash) := by
  obtain hfree | ⟨before, segment, rfl, hfree⟩ := @exists_last_slash α slash _ output
  · exact absurd (List.mem_of_mem_head? h) hfree
  · rw [← List.append_assoc, removeLast_append _ hfree, removeLast_append _ hfree]
    refine ⟨rfl, ?_⟩
    cases before with
    | nil => exact .inl rfl
    | cons c before => exact .inr h

/-- What stands in front of the output loses one segment for each climb. The induction is on
the length of the input. -/
theorem reduce_behind (hne : slash ≠ dot) (n : ℕ) : ∀ {input : List α}, input.length = n →
    Ends slash input → ∀ {output : List α}, output = [] ∨ output.head? = some slash →
      ∀ front, reduce slash dot input (front ++ output) =
        (removeLast slash)^[climbs slash dot input output] front ++
          reduce slash dot input output := by
  induction n using Nat.strongRecOn with
  | _ n ih =>
    intro input hlength hends output houtput front
    obtain rfl | ⟨tail, htail⟩ := hends.cases
    · simp [climbs]
    have hinput : input ≠ [] := htail ▸ List.cons_ne_nil slash tail
    have hhead : input.head? = some slash := htail ▸ rfl
    have hshort : ∀ o, (round slash dot input o).1.length < n :=
      fun o => hlength ▸ (round_rule slash dot hinput o).length_lt
    rw [reduce_of_ne_nil slash dot hinput, reduce_of_ne_nil slash dot hinput output, climbs,
      dif_neg hinput]
    obtain ⟨hrest, hmoved⟩ := ends_round hne hhead
    by_cases hup : GoesUp slash dot input
    · have hlt := hshort output
      rw [round_of_goesUp hne hup] at hlt
      rw [round_of_goesUp hne hup, round_of_goesUp hne hup output]
      have hnext : Ends slash (slash :: input.drop 4) := ends_cons slash _
      obtain rfl | hsome := houtput
      · -- the output is empty, so the segment is taken from what is in front
        rw [if_pos ⟨hup, rfl⟩, List.append_nil, Nat.add_comm, Function.iterate_succ_apply]
        have hempty : removeLast slash ([] : List α) = [] := rfl
        rw [hempty]
        have hrun := ih _ hlt rfl hnext (.inl rfl) (removeLast slash front)
        rwa [List.append_nil] at hrun
      · obtain ⟨hbehind, hstart⟩ := removeLast_behind hsome front
        have hnotEmpty : ¬ (GoesUp slash dot input ∧ output = []) := by
          rintro ⟨-, rfl⟩
          cases hsome
        rw [if_neg hnotEmpty, Nat.zero_add, hbehind]
        exact ih _ hlt rfl hnext hstart front
    · have hlt := hshort output
      rw [round_of_not_goesUp hup] at hlt
      rw [round_of_not_goesUp hup, round_of_not_goesUp hup output, if_neg fun h => hup h.1,
        Nat.zero_add, List.append_assoc]
      refine ih _ hlt rfl hrest ?_ front
      obtain rfl | hsome := houtput
      · exact hmoved
      · right
        rw [List.head?_append, hsome]
        rfl

theorem iterate_removeLast_nil (n : ℕ) : (removeLast slash)^[n] ([] : List α) = [] :=
  Function.iterate_fixed rfl n

theorem prefix_removeLast (output : List α) : removeLast slash output <+: output :=
  (List.dropLast_prefix _).trans (List.rdropWhile_prefix _ _)

theorem prefix_iterate_removeLast (n : ℕ) : ∀ output : List α,
    (removeLast slash)^[n] output <+: output := by
  induction n with
  | zero => exact fun output => List.prefix_rfl
  | succ n ih =>
    intro output
    rw [Function.iterate_succ_apply]
    exact (ih _).trans (prefix_removeLast output)

theorem length_removeLast_lt (h : output ≠ []) :
    (removeLast slash output).length < output.length := by
  obtain hfree | ⟨front, segment, rfl, hfree⟩ := @exists_last_slash α slash _ output
  · rw [removeLast_of_not_mem hfree]
    exact List.length_pos_iff.mpr h
  · rw [removeLast_append front hfree, List.length_append, List.length_cons]
    omega

theorem iterate_removeLast_eq_self_iff {n : ℕ} :
    (removeLast slash)^[n] output = output ↔ n = 0 ∨ output = [] := by
  constructor
  · intro h
    cases n with
    | zero => exact .inl rfl
    | succ n =>
      right
      by_contra hne
      have hle := (@prefix_iterate_removeLast α slash _ n (removeLast slash output)).length_le
      rw [← Function.iterate_succ_apply, h] at hle
      exact absurd hle (not_le.mpr (length_removeLast_lt hne))
  · rintro (rfl | rfl)
    · rfl
    · exact iterate_removeLast_nil n

theorem removeDotSegments_behind (hne : slash ≠ dot) {front : List α} (hfront : Ends slash front)
    (hfree : DotFree slash dot front) (path : List α) :
    removeDotSegments slash dot (front ++ slash :: path) =
      (removeLast slash)^[climbs slash dot (slash :: path) []] front ++
        removeDotSegments slash dot (slash :: path) := by
  have hbehind := reduce_behind hne _ rfl (ends_cons slash path) (.inl rfl) front
  rw [List.append_nil] at hbehind
  unfold removeDotSegments
  rw [reduce_append hne (ends_cons slash path) _ rfl hfront hfree, List.nil_append, hbehind]

theorem reduce_slash (hne : slash ≠ dot) {x : List α} (hinput : Ends slash input)
    (hx : slash ∉ x) :
    reduce slash dot input (slash :: x) = slash :: reduce slash dot input x ∨
      reduce slash dot input (slash :: x) = reduce slash dot input x ∧
        (reduce slash dot input x).head? = some slash := by
  have hlong := reduce_behind hne _ rfl hinput (.inl rfl) (slash :: x)
  have hshort := reduce_behind hne _ rfl hinput (.inl rfl) x
  rw [List.append_nil] at hlong hshort
  rw [hlong, hshort]
  cases hclimbs : climbs slash dot input [] with
  | zero => exact .inl rfl
  | succ n =>
    have hlast : removeLast slash (slash :: x) = [] := removeLast_append [] hx
    right
    rw [Function.iterate_succ_apply, Function.iterate_succ_apply, hlast,
      removeLast_of_not_mem hx, iterate_removeLast_nil, List.nil_append]
    refine ⟨rfl, ?_⟩
    obtain rfl | ⟨more, rfl⟩ := hinput.cases
    · rw [climbs, dif_pos rfl] at hclimbs
      cases hclimbs
    · exact head?_removeDotSegments rfl hne

/-- With a slash in front of it a path is reduced to the same behind a slash, unless all of its
first segments are taken back. The induction is on the length of the path. -/
theorem removeDotSegments_slash (hne : slash ≠ dot) (n : ℕ) : ∀ {path : List α},
    path.length = n → path.head? ≠ some slash →
      removeDotSegments slash dot (slash :: path) = slash :: removeDotSegments slash dot path ∨
        removeDotSegments slash dot (slash :: path) = removeDotSegments slash dot path ∧
          (removeDotSegments slash dot path).head? = some slash := by
  induction n using Nat.strongRecOn with
  | _ n ih =>
    intro path hlength hhead
    have hslash : reduce slash dot [slash] [] = [slash] :=
      (reduce_move hne (List.not_mem_nil) (.inl rfl) not_isDots_nil []).trans (reduce_nil _ _ _)
    by_cases hpath : path = []
    · subst hpath
      left
      rw [removeDotSegments_nil]
      exact hslash
    have hrule := round_rule slash dot hpath []
    have hrun := reduce_of_ne_nil slash dot hpath []
    -- what is left behind one or two dots and a slash
    have hrest : ∀ rest : List α, rest.length < n →
        reduce slash dot (slash :: rest) [] = slash :: reduce slash dot rest [] ∨
          reduce slash dot (slash :: rest) [] = reduce slash dot rest [] ∧
            (reduce slash dot rest []).head? = some slash := by
      intro rest hlt
      by_cases hstart : rest.head? = some slash
      · have hmove := @reduce_move α slash dot _ hne [] rest List.not_mem_nil (.inr hstart)
          not_isDots_nil []
        rw [List.nil_append, List.nil_append] at hmove
        rw [hmove]
        exact reduce_slash hne (.inr hstart) List.not_mem_nil
      · exact ih _ hlt rfl hstart
    unfold removeDotSegments
    generalize hround : round slash dot path [] = result at hrule hrun
    obtain ⟨input', output'⟩ := result
    rw [hrun]
    cases hrule with
    | dropTwo rest _ =>
      have hup : GoesUp slash dot (slash :: dot :: dot :: slash :: input') := .inl ⟨input', rfl⟩
      rw [reduce_of_ne_nil slash dot (List.cons_ne_nil _ _), round_of_goesUp hne hup]
      refine hrest input' ?_
      rw [← hlength]
      simp only [List.length_cons]
      omega
    | dropOne rest _ =>
      have hhere : round slash dot (slash :: dot :: slash :: input') [] = (slash :: input', []) := by
        simp [round, hne, hne.symm]
      rw [reduce_of_ne_nil slash dot (List.cons_ne_nil _ _), hhere]
      refine hrest input' ?_
      rw [← hlength]
      simp only [List.length_cons]
      omega
    | here rest _ => exact absurd rfl hhead
    | hereLast _ => exact absurd rfl hhead
    | up rest _ => exact absurd rfl hhead
    | upLast _ => exact absurd rfl hhead
    | dots _ alone =>
      left
      rw [reduce_nil, reduce_of_ne_nil slash dot (List.cons_ne_nil _ _)]
      obtain rfl | rfl := alone
      · have hhere : round slash dot [slash, dot] [] = ([slash], []) := by
          simp [round, hne, hne.symm]
        rw [hhere]
        exact hslash
      · rw [round_of_goesUp hne (.inr rfl)]
        exact hslash
    | @move c segment rest _ free ends plain =>
      have hc : c ≠ slash := by
        rintro rfl
        exact hhead rfl
      rw [if_neg hc] at plain
      have hfree : slash ∉ c :: segment := fun hmem =>
        (List.mem_cons.mp hmem).elim (fun heq => hc heq.symm) free
      rw [← List.cons_append, reduce_move hne hfree ends plain, List.nil_append]
      exact reduce_slash hne ends hfree

end Yans.Library.DotSegments
