import Mathlib.Data.Nat.Notation
import Mathlib.Order.Basic
import Mathlib.Tactic.Common

/-! Merging neighbours of a list from left to right, and the loop that does it
in place: entries are absorbed into the current one, and the rest of the array
is moved down when a new current entry starts. One variant forgets what the move
leaves behind, the other goes on to scan it. -/
namespace Yans.Library.Compaction

variable {α : Type*} (joins : α → α → Bool) (absorb : α → α → α)

def mergeFrom (cur : α) : List α → List α
  | [] => [cur]
  | next :: rest =>
    if joins cur next then mergeFrom (absorb cur next) rest else cur :: mergeFrom next rest

def merge : List α → List α
  | [] => []
  | first :: rest => mergeFrom joins absorb first rest

def memmove (arr : List α) (dst src len : ℕ) : List α :=
  arr.take dst ++ (arr.drop src).take len ++ arr.drop (dst + len)

/-- Returns the array and how many entries of it are the result. With `shrink`
the entries that a move leaves behind are no longer counted in `n`. -/
def compactLoop (shrink : Bool) (arr : List α) (n curr next : ℕ) : List α × ℕ :=
  if _hnext : next < n then
    match arr[curr]?, arr[next]? with
    | some a, some b =>
      if joins a b then compactLoop shrink (arr.set curr (absorb a b)) n curr (next + 1)
      else if next > curr + 1 then
        compactLoop shrink (memmove arr (curr + 1) next (n - next))
          (if shrink then n - (next - (curr + 1)) else n) (curr + 1) (curr + 2)
      else compactLoop shrink arr n (curr + 1) (next + 1)
    | _, _ => (arr, curr + 1)
  else (arr, curr + 1)
termination_by (n - curr, n - next)
decreasing_by
  · apply Prod.Lex.right
    omega
  · apply Prod.Lex.left
    split <;> omega
  · by_cases hcurr : curr < n
    · apply Prod.Lex.left
      omega
    · have hsame : n - (curr + 1) = n - curr := by omega
      rw [hsame]
      apply Prod.Lex.right
      omega

def compact (shrink : Bool) (arr : List α) (n : ℕ) : List α × ℕ :=
  compactLoop joins absorb shrink arr n 0 1

/-- The indices that the loop reads, with those of the entries it moves. -/
def compactReads (shrink : Bool) (arr : List α) (n curr next : ℕ) : List ℕ :=
  if _hnext : next < n then
    match arr[curr]?, arr[next]? with
    | some a, some b =>
      if joins a b then
        curr :: next :: compactReads shrink (arr.set curr (absorb a b)) n curr (next + 1)
      else if next > curr + 1 then
        curr :: next :: (List.range' next (n - next) ++
          compactReads shrink (memmove arr (curr + 1) next (n - next))
            (if shrink then n - (next - (curr + 1)) else n) (curr + 1) (curr + 2))
      else curr :: next :: compactReads shrink arr n (curr + 1) (next + 1)
    | _, _ => [curr, next]
  else []
termination_by (n - curr, n - next)
decreasing_by
  · apply Prod.Lex.right
    omega
  · apply Prod.Lex.left
    split <;> omega
  · by_cases hcurr : curr < n
    · apply Prod.Lex.left
      omega
    · have hsame : n - (curr + 1) = n - curr := by omega
      rw [hsame]
      apply Prod.Lex.right
      omega

variable {joins absorb}

/-! Whatever the entries are, the loop keeps to the first `n` of them. -/

theorem length_memmove {arr : List α} {dst src len : ℕ} (hle : dst ≤ src)
    (hfits : src + len ≤ arr.length) : (memmove arr dst src len).length = arr.length := by
  simp only [memmove, List.length_append, List.length_take, List.length_drop]
  omega

theorem compactLoop_bounds (shrink : Bool) (arr : List α) (n curr next : ℕ)
    (hcurr : curr < n) (hless : curr < next) (hfits : n ≤ arr.length) :
    (compactLoop joins absorb shrink arr n curr next).1.length = arr.length ∧
      0 < (compactLoop joins absorb shrink arr n curr next).2 ∧
      (compactLoop joins absorb shrink arr n curr next).2 ≤ n := by
  fun_induction compactLoop joins absorb shrink arr n curr next with
  | case1 arr n curr next hnext a b hb ha hjoins ih =>
    have h := ih hcurr (by omega) (by rwa [List.length_set])
    rwa [List.length_set] at h
  | case2 arr n curr next hnext a b hb ha hjoins hgap ih =>
    have hlength := @length_memmove _ arr (curr + 1) next (n - next) (by omega) (by omega)
    have h := ih (by split <;> omega) (by omega) (by rw [hlength]; split <;> omega)
    rw [hlength] at h
    refine ⟨h.1, h.2.1, Nat.le_trans h.2.2 ?_⟩
    split <;> omega
  | case3 arr n curr next hnext a b hb ha hjoins hgap ih => exact ih (by omega) (by omega) hfits
  | case4 => exact ⟨rfl, Nat.succ_pos _, hcurr⟩
  | case5 => exact ⟨rfl, Nat.succ_pos _, hcurr⟩

theorem compactReads_lt (shrink : Bool) (arr : List α) (n curr next : ℕ) (hless : curr < next) :
    ∀ i ∈ compactReads joins absorb shrink arr n curr next, i < n := by
  fun_induction compactReads joins absorb shrink arr n curr next with
  | case1 arr n curr next hnext a b hb ha hjoins ih =>
    simp only [List.mem_cons]
    rintro i (rfl | rfl | hi)
    · omega
    · exact hnext
    · exact ih (by omega) i hi
  | case2 arr n curr next hnext a b hb ha hjoins hgap ih =>
    simp only [List.mem_cons, List.mem_append, List.mem_range'_1]
    rintro i (rfl | rfl | hi | hi)
    · omega
    · exact hnext
    · omega
    · have hlt := ih (by omega) i hi
      split at hlt <;> omega
  | case3 arr n curr next hnext a b hb ha hjoins hgap ih =>
    simp only [List.mem_cons]
    rintro i (rfl | rfl | hi)
    · omega
    · exact hnext
    · exact ih (by omega) i hi
  | case4 arr n curr next hnext =>
    simp only [List.mem_cons]
    rintro i (rfl | rfl | hi)
    · omega
    · exact hnext
    · cases hi
  | case5 => exact fun i hi => nomatch hi

theorem mergeFrom_ne_nil (cur : α) (rest : List α) : mergeFrom joins absorb cur rest ≠ [] := by
  induction rest generalizing cur with
  | nil => simp [mergeFrom]
  | cons next rest ih =>
    unfold mergeFrom
    split
    · exact ih _
    · simp

theorem merge_ne_nil {entries : List α} (h : entries ≠ []) : merge joins absorb entries ≠ [] := by
  cases entries with
  | nil => exact absurd rfl h
  | cons first rest => exact mergeFrom_ne_nil first rest

theorem memmove_gap {done gone todo beyond : List α} {cur : α} {n : ℕ}
    (hn : n = done.length + 1 + gone.length + todo.length) :
    memmove (done ++ cur :: (gone ++ todo) ++ beyond) (done.length + 1)
        (done.length + 1 + gone.length) (n - (done.length + 1 + gone.length)) =
      done ++ cur :: (todo ++ (gone ++ todo).drop todo.length) ++ beyond := by
  have hlen : n - (done.length + 1 + gone.length) = todo.length := by omega
  have hfront : done ++ cur :: (gone ++ todo) ++ beyond =
      (done ++ [cur]) ++ (gone ++ todo ++ beyond) := by simp
  have hsource : done ++ cur :: (gone ++ todo) ++ beyond =
      (done ++ [cur] ++ gone) ++ (todo ++ beyond) := by simp
  have htake : (done ++ cur :: (gone ++ todo) ++ beyond).take (done.length + 1) =
      done ++ [cur] := by
    rw [hfront]
    exact List.take_left' (by simp)
  have hmoved : ((done ++ cur :: (gone ++ todo) ++ beyond).drop
      (done.length + 1 + gone.length)).take todo.length = todo := by
    rw [hsource, List.drop_left' (by simp; omega)]
    exact List.take_left
  have hkept : (done ++ cur :: (gone ++ todo) ++ beyond).drop
      (done.length + 1 + todo.length) = (gone ++ todo).drop todo.length ++ beyond := by
    rw [hfront, ← List.drop_drop, List.drop_left' (by simp)]
    exact List.drop_append_of_le_length (by simp)
  unfold memmove
  rw [hlen, htake, hmoved, hkept]
  simp

section

variable {shrink : Bool} {done gone todo beyond : List α} {cur next : α} {n : ℕ}

theorem compactLoop_end (hn : n = done.length + 1 + gone.length) :
    compactLoop joins absorb shrink (done ++ cur :: gone ++ beyond) n done.length
        (done.length + 1 + gone.length) =
      (done ++ cur :: gone ++ beyond, done.length + 1) := by
  rw [compactLoop, dif_neg (by omega)]

theorem getElem?_cur (rest : List α) : (done ++ cur :: rest ++ beyond)[done.length]? = some cur := by
  simp

theorem getElem?_next (rest : List α) :
    (done ++ cur :: (gone ++ next :: rest) ++ beyond)[done.length + 1 + gone.length]? =
      some next := by
  have hsplit : done ++ cur :: (gone ++ next :: rest) ++ beyond =
      (done ++ cur :: gone) ++ (next :: (rest ++ beyond)) := by simp
  have hlen : done.length + 1 + gone.length = (done ++ cur :: gone).length := by
    simp only [List.length_append, List.length_cons]
    omega
  rw [hsplit, hlen, List.getElem?_append_right (Nat.le_refl _), Nat.sub_self]
  rfl

theorem compactLoop_join (hn : n = done.length + 1 + gone.length + (next :: todo).length)
    (hjoins : joins cur next = true) :
    compactLoop joins absorb shrink (done ++ cur :: (gone ++ next :: todo) ++ beyond) n done.length
        (done.length + 1 + gone.length) =
      compactLoop joins absorb shrink
        (done ++ absorb cur next :: ((gone ++ [next]) ++ todo) ++ beyond) n done.length
        (done.length + 1 + (gone ++ [next]).length) := by
  rw [List.length_cons] at hn
  rw [compactLoop, dif_pos (by omega), getElem?_cur, getElem?_next]
  dsimp only
  rw [if_pos hjoins]
  congr 1
  · simp
  · simp only [List.length_append, List.length_singleton]
    omega

theorem compactLoop_next (hn : n = done.length + 1 + (next :: todo).length)
    (hjoins : joins cur next = false) :
    compactLoop joins absorb shrink (done ++ cur :: ([] ++ next :: todo) ++ beyond) n done.length
        (done.length + 1 + ([] : List α).length) =
      compactLoop joins absorb shrink ((done ++ [cur]) ++ next :: ([] ++ todo) ++ beyond) n
        (done ++ [cur]).length ((done ++ [cur]).length + 1 + ([] : List α).length) := by
  rw [List.length_cons] at hn
  rw [compactLoop, dif_pos (by simp; omega), getElem?_cur, getElem?_next]
  dsimp only
  rw [hjoins]
  simp

theorem compactLoop_move (hn : n = done.length + 1 + gone.length + (next :: todo).length)
    (hgone : gone ≠ []) (hjoins : joins cur next = false) :
    compactLoop joins absorb shrink (done ++ cur :: (gone ++ next :: todo) ++ beyond) n done.length
        (done.length + 1 + gone.length) =
      compactLoop joins absorb shrink
        ((done ++ [cur]) ++
          next :: ([] ++ (todo ++ (gone ++ next :: todo).drop (next :: todo).length)) ++ beyond)
        (if shrink then n - gone.length else n) (done ++ [cur]).length
        ((done ++ [cur]).length + 1 + ([] : List α).length) := by
  have hpos := List.length_pos_iff.mpr hgone
  have hmoved := @memmove_gap _ done gone (next :: todo) beyond cur n hn
  rw [List.length_cons] at hn
  rw [compactLoop, dif_pos (by omega), getElem?_cur, getElem?_next]
  dsimp only
  rw [hjoins, if_neg (by simp), if_pos (by omega), hmoved]
  congr 1
  · simp
  · congr 1
    omega
  · simp
  · simp

theorem compactLoop_settled {stale : List α}
    (hsettled : ∀ e ∈ stale, joins cur e = true ∧ absorb cur e = cur) : ∀ {gone : List α},
    n = done.length + 1 + gone.length + stale.length →
    compactLoop joins absorb shrink (done ++ cur :: (gone ++ stale) ++ beyond) n done.length
        (done.length + 1 + gone.length) =
      (done ++ cur :: (gone ++ stale) ++ beyond, done.length + 1) := by
  induction stale with
  | nil =>
    intro gone hn
    rw [List.append_nil]
    exact compactLoop_end (by simpa using hn)
  | cons next stale ih =>
    intro gone hn
    obtain ⟨hjoins, habsorb⟩ := hsettled next List.mem_cons_self
    rw [compactLoop_join hn hjoins, habsorb,
      ih (fun e he => hsettled e (List.mem_cons_of_mem _ he)) (by simp at hn ⊢; omega)]
    simp

end

/-- The scan that also goes over what its moves leave behind. All entries are
such that the last entry of the result absorbs them without a change. The
induction is on the entries that are not copies. -/
theorem compactLoop_scan {final : α} {real : List α} :
    ∀ {done gone stale beyond : List α} {cur : α} {n : ℕ},
    n = done.length + 1 + gone.length + (real ++ stale).length →
    (mergeFrom joins absorb cur real).getLast? = some final →
    (∀ e ∈ gone ++ (real ++ stale), joins final e = true ∧ absorb final e = final) →
    ∃ tail, compactLoop joins absorb false (done ++ cur :: (gone ++ (real ++ stale)) ++ beyond) n
        done.length (done.length + 1 + gone.length) =
        (done ++ mergeFrom joins absorb cur real ++ tail ++ beyond,
          done.length + (mergeFrom joins absorb cur real).length) ∧
      (∀ e ∈ tail, e ∈ gone ++ (real ++ stale)) ∧
      done.length + (mergeFrom joins absorb cur real).length + tail.length = n := by
  induction real with
  | nil =>
    intro done gone stale beyond cur n hn hfinal hsettled
    obtain rfl : cur = final := by simpa [mergeFrom] using hfinal
    rw [List.nil_append] at hn hsettled ⊢
    refine ⟨gone ++ stale, ?_, fun e he => he, ?_⟩
    · rw [compactLoop_settled (fun e he => hsettled e (List.mem_append_right _ he)) hn]
      simp [mergeFrom]
    · simp only [mergeFrom, List.length_singleton, List.length_append] at hn ⊢
      omega
  | cons next real ih =>
    intro done gone stale beyond cur n hn hfinal hsettled
    have hlen : n = done.length + 1 + gone.length + (next :: (real ++ stale)).length := hn
    rw [List.cons_append] at hn hsettled ⊢
    unfold mergeFrom at hfinal ⊢
    by_cases hjoins : joins cur next = true
    · rw [if_pos hjoins] at hfinal ⊢
      rw [compactLoop_join hlen hjoins]
      have hsame : (gone ++ [next]) ++ (real ++ stale) = gone ++ next :: (real ++ stale) := by simp
      obtain ⟨tail, hloop, htail, hcount⟩ := @ih done (gone ++ [next]) stale beyond
        (absorb cur next) n (by simp at hlen ⊢; omega) hfinal (by rwa [hsame])
      rw [hsame] at htail
      exact ⟨tail, hloop, htail, hcount⟩
    · rw [if_neg hjoins] at hfinal ⊢
      rw [Bool.not_eq_true] at hjoins
      have hrest : (mergeFrom joins absorb next real).getLast? = some final := by
        rwa [List.getLast?_cons_of_ne_nil (mergeFrom_ne_nil _ _)] at hfinal
      have hprefix : done ++ cur :: mergeFrom joins absorb next real =
          (done ++ [cur]) ++ mergeFrom joins absorb next real := by simp
      by_cases hgone : gone = []
      · subst hgone
        obtain ⟨tail, hloop, htail, hcount⟩ := @ih (done ++ [cur]) [] stale beyond next n
          (by simp at hlen ⊢; omega) hrest (fun e he => hsettled e (by simp at he ⊢; tauto))
        rw [compactLoop_next (by simpa using hlen) hjoins, hloop, hprefix]
        refine ⟨tail, ?_, fun e he => List.mem_cons_of_mem _ (htail e he), ?_⟩
        · simp only [List.length_append, List.length_cons, List.length_nil]
          congr 1
          omega
        · simp only [List.length_append, List.length_cons, List.length_nil] at hcount ⊢
          omega
      · set left := (gone ++ next :: (real ++ stale)).drop (next :: (real ++ stale)).length with hleft
        have hsub : ∀ e ∈ left, e ∈ gone ++ next :: (real ++ stale) :=
          fun e he => List.mem_of_mem_drop he
        have hleftlen : left.length = gone.length := by
          rw [hleft, List.length_drop, List.length_append]
          omega
        have hassoc : (real ++ stale) ++ left = real ++ (stale ++ left) := List.append_assoc _ _ _
        have hmem : ∀ e ∈ real ++ (stale ++ left), e ∈ gone ++ next :: (real ++ stale) := by
          intro e he
          rw [← hassoc] at he
          obtain he | he := List.mem_append.mp he
          · exact List.mem_append_right _ (List.mem_cons_of_mem _ he)
          · exact hsub e he
        obtain ⟨tail, hloop, htail, hcount⟩ := @ih (done ++ [cur]) [] (stale ++ left) beyond next n
          (by simp [hleftlen] at hlen ⊢; omega) hrest (fun e he => hsettled e (hmem e he))
        rw [compactLoop_move hlen hgone hjoins, ← hleft, hassoc, if_neg (by simp), hloop, hprefix]
        refine ⟨tail, ?_, fun e he => hmem e (htail e he), ?_⟩
        · simp only [List.length_append, List.length_cons, List.length_nil]
          congr 1
          omega
        · simp only [List.length_append, List.length_cons, List.length_nil] at hcount ⊢
          omega

theorem compactLoop_shrink {real : List α} :
    ∀ {done gone beyond : List α} {cur : α} {n : ℕ},
    n = done.length + 1 + gone.length + real.length →
    ∃ tail, compactLoop joins absorb true (done ++ cur :: (gone ++ real) ++ beyond) n
        done.length (done.length + 1 + gone.length) =
        (done ++ mergeFrom joins absorb cur real ++ tail,
          done.length + (mergeFrom joins absorb cur real).length) := by
  induction real with
  | nil =>
    intro done gone beyond cur n hn
    refine ⟨gone ++ beyond, ?_⟩
    rw [List.append_nil, compactLoop_end (by simpa using hn)]
    simp [mergeFrom]
  | cons next real ih =>
    intro done gone beyond cur n hn
    unfold mergeFrom
    by_cases hjoins : joins cur next = true
    · rw [if_pos hjoins, compactLoop_join hn hjoins]
      exact ih (by simp at hn ⊢; omega)
    · rw [if_neg hjoins]
      rw [Bool.not_eq_true] at hjoins
      have hprefix : done ++ cur :: mergeFrom joins absorb next real =
          (done ++ [cur]) ++ mergeFrom joins absorb next real := by simp
      by_cases hgone : gone = []
      · subst hgone
        obtain ⟨tail, hloop⟩ := @ih (done ++ [cur]) [] beyond next n (by simp at hn ⊢; omega)
        rw [compactLoop_next (by simpa using hn) hjoins, hloop, hprefix]
        refine ⟨tail, ?_⟩
        simp only [List.length_append, List.length_cons, List.length_nil]
        congr 1
        omega
      · set left := (gone ++ next :: real).drop (next :: real).length with hleft
        obtain ⟨tail, hloop⟩ := @ih (done ++ [cur]) [] (left ++ beyond) next (n - gone.length)
          (by simp at hn ⊢; omega)
        have harr : (done ++ [cur]) ++ next :: ([] ++ (real ++ left)) ++ beyond =
            (done ++ [cur]) ++ next :: ([] ++ real) ++ (left ++ beyond) := by simp
        rw [compactLoop_move hn hgone hjoins, ← hleft, if_pos rfl, harr, hloop, hprefix]
        refine ⟨tail, ?_⟩
        simp only [List.length_append, List.length_cons, List.length_nil]
        congr 1
        omega

theorem compact_scan {entries beyond : List α} {final : α}
    (hfinal : (merge joins absorb entries).getLast? = some final)
    (hsettled : ∀ e ∈ entries, joins final e = true ∧ absorb final e = final) :
    ∃ tail, compact joins absorb false (entries ++ beyond) entries.length =
        (merge joins absorb entries ++ tail ++ beyond, (merge joins absorb entries).length) ∧
      (∀ e ∈ tail, e ∈ entries) ∧
      (merge joins absorb entries ++ tail).length = entries.length := by
  cases entries with
  | nil => simp [merge] at hfinal
  | cons first rest =>
    obtain ⟨tail, hloop, htail, hcount⟩ := @compactLoop_scan _ joins absorb final rest [] [] []
      beyond first (first :: rest).length (by simp; omega) hfinal
      (fun e he => hsettled e (by simp at he ⊢; tauto))
    simp only [List.nil_append, List.append_nil, List.length_nil, Nat.zero_add, Nat.add_zero] at *
    refine ⟨tail, hloop, fun e he => List.mem_cons_of_mem _ (htail e he), ?_⟩
    rw [List.length_append]
    exact hcount

theorem compact_shrink {entries beyond : List α} (hentries : entries ≠ []) :
    ∃ tail, compact joins absorb true (entries ++ beyond) entries.length =
        (merge joins absorb entries ++ tail, (merge joins absorb entries).length) := by
  cases entries with
  | nil => exact absurd rfl hentries
  | cons first rest =>
    obtain ⟨tail, hloop⟩ := @compactLoop_shrink _ joins absorb rest [] [] beyond first
      (first :: rest).length (by simp; omega)
    simp only [List.nil_append, List.length_nil, Nat.zero_add, Nat.add_zero] at hloop
    exact ⟨tail, hloop⟩

end Yans.Library.Compaction
