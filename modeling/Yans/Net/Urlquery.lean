import Yans.Library.PercentEncoding
import Yans.Library.Strings
import Yans.Library.Tokens

/-! `lib/net/urlquery.c`: a query string is split at its separators and decoded in place.
Pointers are offsets into the one array; every access is checked, and an access outside of
the array is `none`. -/
namespace Yans.Net.Urlquery

open Library Library.Memory Library.Strings

def percent : UInt8 := 37

def ampersand : UInt8 := 38

def plus : UInt8 := 43

def equals : UInt8 := 61

/-- `isxdigit` of the C locale. -/
def isxdigit (ch : UInt8) : Bool := PercentEncoding.isHexDigit ch

def fromhex (ch : UInt8) : ℕ :=
  if 48 ≤ ch ∧ ch ≤ 57 then ch.toNat - 48
  else if 65 ≤ ch ∧ ch ≤ 70 then ch.toNat - 65 + 10
  else if 97 ≤ ch ∧ ch ≤ 102 then ch.toNat - 97 + 10
  else 0

/-- `num`, as it is stored. -/
def octet (hi lo : UInt8) : UInt8 := UInt8.ofNat (fromhex hi * 16 + fromhex lo)

/-- `mem[i] = ch` -/
def store (mem : Bytes) (i : ℕ) (ch : UInt8) : Option Bytes :=
  if i < mem.length then some (mem.set i ch) else none

/-- `str[0] == '%' && isxdigit(str[1]) && isxdigit(str[2])` -/
def tripleAt (mem : Bytes) (str : ℕ) : Option Bool := do
  let ch ← mem[str]?
  if ch = percent then
    let hi ← mem[str + 1]?
    if isxdigit hi then
      let lo ← mem[str + 2]?
      pure (isxdigit lo)
    else pure false
  else pure false

/-- One round of `while(*str)`; the second value is the new `str`. -/
def decodeRound (mem : Bytes) (dst str : ℕ) : Option (Bytes × ℕ) := do
  if ← tripleAt mem str then
    let hi ← mem[str + 1]?
    let lo ← mem[str + 2]?
    let mem ← store mem dst (octet hi lo)
    pure (mem, str + 3)
  else
    let ch ← mem[str]?
    let mem ← store mem dst (if ch = plus then 32 else ch)
    pure (mem, str + 1)

/-- `while(*str)` and what is behind it; `rounds` bounds the loop. -/
def decodeLoop : ℕ → Bytes → ℕ → ℕ → Option (Bytes × ℕ)
  | 0, _, _, _ => none
  | rounds + 1, mem, dst, str => do
    let ch ← mem[str]?
    if ch = 0 then
      let mem ← store mem dst 0
      pure (mem, dst)
    else
      let (mem, str) ← decodeRound mem dst str
      decodeLoop rounds mem (dst + 1) str

/-- The second value is where the decoded string ends. -/
def urlqueryDecode (mem : Bytes) (str : ℕ) : Option (Bytes × ℕ) :=
  decodeLoop mem.length mem str str

/-- Bytes are passed over while `go` says so; `rounds` bounds the loop. -/
def scan (go : UInt8 → Bool) (mem : Bytes) : ℕ → ℕ → Option ℕ
  | 0, _ => none
  | rounds + 1, i => do
    let c ← mem[i]?
    if go c then scan go mem rounds (i + 1) else pure i

/-- `some none` is a null pointer. -/
def strchr (mem : Bytes) (str : ℕ) (ch : UInt8) : Option (Option ℕ) := do
  let i ← scan (fun c => c ≠ ch ∧ c ≠ 0) mem mem.length str
  let c ← mem[i]?
  pure (if c = ch then some i else none)

/-- `curr + strspn(curr, "&")` -/
def skipSeparators (mem : Bytes) (curr : ℕ) : Option ℕ :=
  scan (fun c => c = ampersand) mem mem.length curr

/-- `curr + strcspn(curr, "&")` -/
def pieceEnd (mem : Bytes) (curr : ℕ) : Option ℕ :=
  scan (fun c => c ≠ ampersand ∧ c ≠ 0) mem mem.length curr

/-- What `key` and `val` point to. -/
structure Pair where
  key : ℕ
  val : ℕ
deriving DecidableEq

def parsePair (mem : Bytes) (pair : ℕ) : Option (Bytes × Pair) := do
  match ← strchr mem pair equals with
  | some valptr =>
    let mem ← store mem valptr 0
    let (mem, _) ← urlqueryDecode mem pair
    let (mem, _) ← urlqueryDecode mem (valptr + 1)
    pure (mem, ⟨pair, valptr + 1⟩)
  | none =>
    let (mem, tmp) ← urlqueryDecode mem pair
    pure (mem, ⟨pair, tmp⟩)

/-- `*str` before and after the call; no pair is a 0 with null pointers. -/
def urlqueryNextPair (mem : Bytes) : Option ℕ → Option (Bytes × Option ℕ × Option Pair)
  | none => some (mem, none, none)
  | some curr => do
    let pair ← skipSeparators mem curr
    let ch ← mem[pair]?
    if ch = 0 then pure (mem, some pair, none)
    else
      let curr ← pieceEnd mem pair
      let ch ← mem[curr]?
      if ch ≠ 0 then
        let mem ← store mem curr 0
        let (mem, found) ← parsePair mem pair
        pure (mem, some (curr + 1), some found)
      else
        let (mem, found) ← parsePair mem pair
        pure (mem, some curr, some found)

structure Entry where
  pair : Pair
  key : Bytes
  val : Bytes
deriving DecidableEq

/-- The calls up to the first 0. The strings are read right behind each call; `none` when
`calls` of them were too few. -/
def allPairs : ℕ → Bytes → Option ℕ → Option (Bytes × List Entry)
  | 0, _, _ => none
  | calls + 1, mem, str => do
    match ← urlqueryNextPair mem str with
    | (mem, _, none) => pure (mem, [])
    | (mem, str, some pair) =>
      let entry : Entry := ⟨pair, cstring (mem.drop pair.key), cstring (mem.drop pair.val)⟩
      let (mem, more) ← allPairs calls mem str
      pure (mem, entry :: more)

def plain (ch : UInt8) : UInt8 := if ch = plus then 32 else ch

/-- A text with its percent triples and its plus signs replaced. -/
def decoded : Bytes → Bytes
  | [] => []
  | [a] => [plain a]
  | [a, b] => [plain a, plain b]
  | a :: hi :: lo :: rest =>
    if a = percent ∧ isxdigit hi ∧ isxdigit lo then octet hi lo :: decoded rest
    else plain a :: decoded (hi :: lo :: rest)

/-- The pieces between separators, without the empty ones. -/
def pieces (query : Bytes) : List Bytes := (query.splitOn ampersand).filter (· ≠ [])

def keyPart (piece : Bytes) : Bytes := piece.takeWhile (· ≠ equals)

def valPart (piece : Bytes) : Bytes := (piece.dropWhile (· ≠ equals)).drop 1

def keyText (piece : Bytes) : Bytes := cstring (decoded (keyPart piece))

def valText (piece : Bytes) : Bytes := cstring (decoded (valPart piece))

example : (allPairs 9 [38, 97, 61, 37, 0x34, 0x31, 38, 38, 98, 0] (some 0)).map
    (fun run => run.2.map fun entry => (entry.key, entry.val)) =
      some [([97], [65]), ([98], [])] := by decide

end Yans.Net.Urlquery

/-! The calls of `urlquery_next_pair` find the pairs of the query string. Each works on its
own piece of the array: what is in front has been handed out, what is behind is still to
come. -/
namespace Yans.Net.Urlquery

open Library Library.Memory Library.Strings

theorem load_append (front rest : Bytes) (i : ℕ) :
    (front ++ rest)[front.length + i]? = rest[i]? := by
  rw [List.getElem?_append_right (Nat.le_add_right _ _), Nat.add_sub_cancel_left]

theorem load_front (front rest : Bytes) : (front ++ rest)[front.length]? = rest[0]? :=
  load_append front rest 0

theorem store_append (front : Bytes) (old new : UInt8) (after : Bytes) :
    store (front ++ old :: after) front.length new = some (front ++ new :: after) := by
  unfold store
  rw [if_pos (by rw [List.length_append, List.length_cons]; omega), List.set_append_right _ _
    (Nat.le_refl _), Nat.sub_self]
  rfl

theorem store_front (front : Bytes) {rest : Bytes} (hne : rest ≠ []) (new : UInt8) :
    store (front ++ rest) front.length new = some (front ++ new :: rest.tail) := by
  obtain ⟨old, rest, rfl⟩ := List.exists_cons_of_ne_nil hne
  exact store_append front old new rest

theorem cstring_stop (text rest : Bytes) (h : ∀ c ∈ rest.head?, c = 0) :
    cstring (text ++ rest) = cstring text := by
  induction text with
  | nil =>
    rw [List.nil_append, cstring_nil, cstring_eq_nil_iff]
    cases rest with
    | nil => rfl
    | cons c rest => exact h c rfl
  | cons c text ih => rw [List.cons_append, cstring_cons, cstring_cons, ih]

theorem isxdigit_zero : isxdigit 0 = false := by decide

structure Taken (text : Bytes) (ch : UInt8) (used rest : Bytes) : Prop where
  split : text = used ++ rest
  nonempty : used ≠ []
  decoded_eq : decoded text = ch :: decoded rest

theorem decodeRound_triple (front after : Bytes) {hi lo : UInt8} (dst : ℕ)
    (hhi : isxdigit hi = true) (hlo : isxdigit lo = true) :
    decodeRound (front ++ percent :: hi :: lo :: after) dst front.length =
      (store (front ++ percent :: hi :: lo :: after) dst (octet hi lo)).map
        fun mem => (mem, front.length + 3) := by
  unfold decodeRound tripleAt
  rw [load_front, load_append, load_append, Option.map_eq_bind]
  simp only [List.getElem?_cons_zero, List.getElem?_cons_succ, Option.pure_def,
    Option.bind_eq_bind, Option.bind_some, hhi, hlo, if_true]
  rfl

variable {ch : UInt8}

theorem decodeRound_plain {front after : Bytes} (dst : ℕ)
    (htriple : tripleAt (front ++ ch :: after) front.length = some false) :
    decodeRound (front ++ ch :: after) dst front.length =
      (store (front ++ ch :: after) dst (plain ch)).map fun mem => (mem, front.length + 1) := by
  unfold decodeRound
  rw [htriple, load_front, Option.map_eq_bind]
  rfl

theorem tripleAt_eq (front : Bytes) (ch hi : UInt8) (after : Bytes) :
    tripleAt (front ++ ch :: hi :: after) front.length =
      if ch = percent ∧ isxdigit hi = true then after[0]?.map isxdigit else some false := by
  unfold tripleAt
  rw [load_front, load_append, load_append]
  by_cases hch : ch = percent
  · by_cases hhi : isxdigit hi = true
    · simp only [List.getElem?_cons_zero, List.getElem?_cons_succ, Option.pure_def,
        Option.bind_eq_bind, Option.bind_some, hch, hhi, if_true, and_self, Option.map_eq_bind]
      rfl
    · simp [hch, hhi]
  · simp [hch]

variable {text : Bytes}

theorem decodeRound_spec (front : Bytes) (hne : text ≠ []) (after : Bytes)
    (dst : ℕ) : ∃ ch used rest, Taken text ch used rest ∧
      decodeRound (front ++ (text ++ 0 :: after)) dst front.length =
        (store (front ++ (text ++ 0 :: after)) dst ch).map
          fun mem => (mem, front.length + used.length) := by
  match text with
  | [a] =>
    refine ⟨plain a, [a], [], ⟨rfl, List.cons_ne_nil _ _, rfl⟩, decodeRound_plain dst ?_⟩
    refine (tripleAt_eq front a 0 after).trans (if_neg fun h => ?_)
    rw [isxdigit_zero] at h
    cases h.2
  | [a, hi] =>
    refine ⟨plain a, [a], [hi], ⟨rfl, List.cons_ne_nil _ _, rfl⟩, decodeRound_plain dst ?_⟩
    refine (tripleAt_eq front a hi (0 :: after)).trans ?_
    split
    · exact congrArg some isxdigit_zero
    · rfl
  | a :: hi :: lo :: rest =>
    by_cases htriple : a = percent ∧ isxdigit hi = true ∧ isxdigit lo = true
    · obtain ⟨rfl, hhi, hlo⟩ := htriple
      refine ⟨octet hi lo, [percent, hi, lo], rest, ⟨rfl, List.cons_ne_nil _ _, ?_⟩,
        decodeRound_triple front _ dst hhi hlo⟩
      rw [decoded, if_pos ⟨rfl, hhi, hlo⟩]
    · refine ⟨plain a, [a], hi :: lo :: rest, ⟨rfl, List.cons_ne_nil _ _, ?_⟩,
        decodeRound_plain dst ?_⟩
      · rw [decoded, if_neg htriple]
      · refine (tripleAt_eq front a hi (lo :: (rest ++ 0 :: after))).trans ?_
        split
        · rename_i hfront
          refine congrArg some (Bool.eq_false_iff.mpr fun hlo => ?_)
          exact htriple ⟨hfront.1, hfront.2, hlo⟩
        · rfl

theorem decodeLoop_spec (after : Bytes) (rounds : ℕ) : ∀ {out gap text : Bytes},
    0 ∉ text → text.length < rounds →
      ∃ tail, decodeLoop rounds (out ++ (gap ++ (text ++ 0 :: after))) out.length
          (out ++ gap).length =
            some (out ++ (decoded text ++ (tail ++ 0 :: after)), out.length + (decoded text).length) ∧
        (decoded text).length + tail.length = gap.length + text.length ∧
        ∀ c ∈ tail.head?, c = 0 := by
  induction rounds with
  | zero => exact fun _ h => absurd h (Nat.not_lt_zero _)
  | succ rounds ih =>
    intro out gap text hfree hrounds
    have hroom : gap ++ (text ++ 0 :: after) ≠ [] := by simp
    rw [decodeLoop]
    by_cases hne : text = []
    · -- the end of the string; a zero ends what has been written
      subst hne
      have hend : (out ++ (gap ++ ([] ++ 0 :: after)))[(out ++ gap).length]? = some 0 := by
        rw [← List.append_assoc, load_front]
        rfl
      rw [hend, Option.bind_eq_bind, Option.bind_some, if_pos rfl, store_front out hroom]
      cases gap with
      | nil => exact ⟨[], rfl, rfl, nofun⟩
      | cons g gap =>
        refine ⟨0 :: gap, rfl, ?_, fun c hc => (Option.some.inj hc).symm⟩
        rw [decoded, List.length_cons, List.length_cons, List.length_nil, Nat.zero_add]
    · obtain ⟨ch, used, rest, htaken, hround⟩ := decodeRound_spec (out ++ gap) hne after out.length
      obtain ⟨c, more, hcons⟩ := List.exists_cons_of_ne_nil hne
      have hc : c ≠ 0 := fun h => hfree (by rw [hcons, h]; exact List.mem_cons_self)
      have hload : (out ++ (gap ++ (text ++ 0 :: after)))[(out ++ gap).length]? = some c := by
        rw [← List.append_assoc, load_front, hcons]
        rfl
      have husedPos := List.length_pos_iff.mpr htaken.nonempty
      have hlength := congrArg List.length htaken.split
      rw [List.length_append] at hlength
      have hwritten : (gap ++ (text ++ 0 :: after)).tail =
          (gap ++ used).tail ++ (rest ++ 0 :: after) := by
        have hfront : gap ++ used ≠ [] := fun h => htaken.nonempty (List.append_eq_nil_iff.mp h).2
        rw [htaken.split, List.append_assoc, ← List.append_assoc gap, List.tail_append_of_ne_nil
          hfront]
      have hgap : (gap ++ used).tail.length + 1 = gap.length + used.length := by
        rw [List.length_tail, List.length_append]
        omega
      have hstr : (out ++ gap).length + used.length = (out ++ [ch] ++ (gap ++ used).tail).length := by
        simp only [List.length_append, List.length_singleton]
        omega
      obtain ⟨tail, hrun, htail, hzero⟩ := @ih (out ++ [ch]) (gap ++ used).tail rest
        (fun h => hfree (by rw [htaken.split]; exact List.mem_append_right _ h)) (by omega)
      rw [hload, Option.bind_eq_bind, Option.bind_some, if_neg hc, ← List.append_assoc out gap,
        hround, List.append_assoc out gap, store_front out hroom, hwritten, hstr]
      rw [List.length_append, List.length_singleton] at hrun
      refine ⟨tail, ?_, ?_, hzero⟩
      · rw [htaken.decoded_eq, List.length_cons]
        simp only [List.append_assoc, List.singleton_append, List.length_append] at hrun ⊢
        refine hrun.trans ?_
        rw [Nat.add_assoc, Nat.add_comm 1]
        rfl
      · rw [htaken.decoded_eq, List.length_cons]
        omega

theorem urlqueryDecode_spec {front text after : Bytes} (hfree : 0 ∉ text) :
    ∃ tail, urlqueryDecode (front ++ (text ++ 0 :: after)) front.length =
        some (front ++ (decoded text ++ (tail ++ 0 :: after)),
          front.length + (decoded text).length) ∧
      (decoded text).length + tail.length = text.length ∧ ∀ c ∈ tail.head?, c = 0 := by
  have hrounds : text.length < (front ++ (text ++ 0 :: after)).length := by
    simp only [List.length_append, List.length_cons]
    omega
  obtain ⟨tail, hrun, htail, hzero⟩ := @decodeLoop_spec after _ front [] text hfree hrounds
  rw [List.append_nil, List.length_nil, Nat.zero_add] at *
  exact ⟨tail, hrun, htail, hzero⟩

/-- The induction is on what is passed over. -/
theorem scan_spec {go : UInt8 → Bool} {c : UInt8} (hc : go c = false) (after text : Bytes) :
    ∀ {front : Bytes} {rounds : ℕ}, (∀ d ∈ text, go d = true) → text.length < rounds →
      scan go (front ++ (text ++ c :: after)) rounds front.length =
        some (front.length + text.length) := by
  induction text with
  | nil =>
    intro front rounds _ hrounds
    cases rounds with
    | zero => exact absurd hrounds (Nat.not_lt_zero _)
    | succ rounds =>
      rw [scan, load_front]
      simp [hc]
  | cons d text ih =>
    intro front rounds hgo hrounds
    obtain ⟨hd, htext⟩ := List.forall_mem_cons.mp hgo
    cases rounds with
    | zero => exact absurd hrounds (Nat.not_lt_zero _)
    | succ rounds =>
      have hrest := @ih (front ++ [d]) rounds htext (Nat.lt_of_succ_lt_succ hrounds)
      rw [List.append_assoc, List.length_append, List.length_singleton] at hrest
      rw [scan, load_front]
      simp only [List.cons_append, List.getElem?_cons_zero, Option.bind_eq_bind, Option.bind_some,
        hd, if_true]
      refine hrest.trans (congrArg some ?_)
      rw [List.length_cons]
      omega

theorem scan_all {go : UInt8 → Bool} {c : UInt8} (hc : go c = false) (front after : Bytes)
    {text : Bytes} (hgo : ∀ d ∈ text, go d = true) :
    scan go (front ++ (text ++ c :: after)) (front ++ (text ++ c :: after)).length front.length =
      some (front.length + text.length) := by
  apply scan_spec hc after text hgo
  simp only [List.length_append, List.length_cons]
  omega

theorem passes (hch : ch ∉ text) (hfree : 0 ∉ text) :
    ∀ d ∈ text, decide (d ≠ ch ∧ d ≠ 0) = true := by
  intro d hd
  refine decide_eq_true ⟨?_, ?_⟩
  · rintro rfl
    exact hch hd
  · rintro rfl
    exact hfree hd

theorem strchr_found (front after : Bytes) (hch : ch ∉ text)
    (hfree : 0 ∉ text) : strchr (front ++ (text ++ ch :: after)) front.length ch =
      some (some (front.length + text.length)) := by
  unfold strchr
  rw [scan_all (by simp) front after (passes hch hfree), ← List.append_assoc, ← List.length_append]
  simp only [Option.bind_eq_bind, Option.bind_some, load_front]
  simp

theorem strchr_missing (front after : Bytes) (hne : ch ≠ 0)
    (hch : ch ∉ text) (hfree : 0 ∉ text) :
    strchr (front ++ (text ++ 0 :: after)) front.length ch = some none := by
  unfold strchr
  rw [scan_all (by simp) front after (passes hch hfree), ← List.append_assoc, ← List.length_append]
  simp only [Option.bind_eq_bind, Option.bind_some, load_front]
  simp [hne.symm]

/-- What is left in the place of a piece: the strings of its key and of its value, in this
order, whatever follows behind the zero. -/
structure Holds (before area : Bytes) (pair : Pair) (piece : Bytes) : Prop where
  length : area.length = piece.length
  key : ∀ more, cstring ((before ++ (area ++ 0 :: more)).drop pair.key) = keyText piece
  val : ∀ more, cstring ((before ++ (area ++ 0 :: more)).drop pair.val) = valText piece
  apart : pair.key + (keyText piece).length ≤ pair.val
  inside : pair.val ≤ before.length + area.length

theorem length_cstring_le (s : Bytes) : (cstring s).length ≤ s.length :=
  (List.takeWhile_prefix _).length_le

variable {piece : Bytes}

theorem keyPart_of_not_mem (h : equals ∉ piece) :
    keyPart piece = piece ∧ valPart piece = [] := by
  have hall : ∀ c ∈ piece, decide (c ≠ equals) = true := by
    intro c hc
    refine decide_eq_true ?_
    rintro rfl
    exact h hc
  constructor
  · exact List.takeWhile_eq_self_iff.mpr hall
  · rw [valPart, List.dropWhile_eq_nil_iff.mpr hall, List.drop_nil]

theorem keyPart_of_split {front rest : Bytes} (h : equals ∉ front) :
    keyPart (front ++ equals :: rest) = front ∧ valPart (front ++ equals :: rest) = rest := by
  have hall : ∀ c ∈ front, decide (c ≠ equals) = true := by
    intro c hc
    refine decide_eq_true ?_
    rintro rfl
    exact h hc
  have hstop : ¬ decide (equals ≠ equals) = true := by simp
  constructor
  · rw [keyPart, List.takeWhile_append_of_pos hall, List.takeWhile_cons_of_neg
      (p := fun c => decide (c ≠ equals)) hstop, List.append_nil]
  · rw [valPart, List.dropWhile_append_of_pos hall, List.dropWhile_cons_of_neg
      (p := fun c => decide (c ≠ equals)) hstop]
    rfl

theorem head_of_tail {tail : Bytes} (hzero : ∀ c ∈ tail.head?, c = 0) (more : Bytes) :
    ∀ c ∈ (tail ++ 0 :: more).head?, c = 0 := by
  cases tail with
  | nil => exact fun c hc => (Option.some.inj hc).symm
  | cons d tail => exact hzero

theorem holds_of_key {before tail : Bytes} (hequals : equals ∉ piece)
    (hlength : (decoded piece).length + tail.length = piece.length)
    (hzero : ∀ c ∈ tail.head?, c = 0) :
    Holds before (decoded piece ++ tail)
      ⟨before.length, before.length + (decoded piece).length⟩ piece := by
  obtain ⟨hkey, hval⟩ := keyPart_of_not_mem hequals
  refine ⟨?_, fun more => ?_, fun more => ?_, ?_, ?_⟩
  · rw [List.length_append]
    exact hlength
  · dsimp only
    rw [List.drop_left, List.append_assoc, cstring_stop _ _ (head_of_tail hzero more), keyText,
      hkey]
  · dsimp only
    rw [List.append_assoc, ← List.append_assoc before, ← List.length_append, List.drop_left,
      valText, hval]
    exact cstring_stop [] _ (head_of_tail hzero more)
  · rw [keyText, hkey]
    exact Nat.add_le_add_left (length_cstring_le _) _
  · dsimp only
    rw [List.length_append]
    omega

theorem holds_of_value {before key val keyTail valTail : Bytes} (hequals : equals ∉ key)
    (hkeyLength : (decoded key).length + keyTail.length = key.length)
    (hkeyZero : ∀ c ∈ keyTail.head?, c = 0)
    (hvalLength : (decoded val).length + valTail.length = val.length)
    (hvalZero : ∀ c ∈ valTail.head?, c = 0) :
    Holds before (decoded key ++ (keyTail ++ 0 :: (decoded val ++ valTail)))
      ⟨before.length, before.length + key.length + 1⟩ (key ++ equals :: val) := by
  obtain ⟨hkeyPart, hvalPart⟩ := @keyPart_of_split key val hequals
  refine ⟨?_, fun more => ?_, fun more => ?_, ?_, ?_⟩
  · simp only [List.length_append, List.length_cons]
    omega
  · dsimp only
    rw [List.drop_left, keyText, hkeyPart, List.append_assoc, List.append_assoc]
    exact cstring_stop _ _ (head_of_tail hkeyZero _)
  · have hfront : before.length + key.length + 1 =
        (before ++ decoded key ++ keyTail ++ [0]).length := by
      simp only [List.length_append, List.length_singleton]
      omega
    have hsplit : before ++ (decoded key ++ (keyTail ++ 0 :: (decoded val ++ valTail)) ++ 0 :: more) =
        before ++ decoded key ++ keyTail ++ [0] ++ (decoded val ++ (valTail ++ 0 :: more)) := by
      simp only [List.append_assoc, List.cons_append, List.nil_append]
    rw [hsplit, hfront, List.drop_left, cstring_stop _ _ (head_of_tail hvalZero more), valText,
      hvalPart]
  · have hle := length_cstring_le (decoded key)
    rw [keyText, hkeyPart]
    dsimp only
    omega
  · simp only [List.length_append, List.length_cons]
    omega

theorem parsePair_spec (before after : Bytes) (hfree : 0 ∉ piece) :
    ∃ area pair, parsePair (before ++ (piece ++ 0 :: after)) before.length =
        some (before ++ (area ++ 0 :: after), pair) ∧ Holds before area pair piece := by
  by_cases hequals : equals ∈ piece
  · obtain ⟨key, val, rfl, hkey⟩ := List.eq_append_cons_of_mem hequals
    have hkeyFree : 0 ∉ key := fun h => hfree (List.mem_append_left _ h)
    have hvalFree : 0 ∉ val := fun h => hfree (List.mem_append_right _ (List.mem_cons_of_mem _ h))
    obtain ⟨keyTail, hkeyRun, hkeyLength, hkeyZero⟩ :=
      @urlqueryDecode_spec before key (val ++ 0 :: after) hkeyFree
    obtain ⟨valTail, hvalRun, hvalLength, hvalZero⟩ :=
      @urlqueryDecode_spec (before ++ (decoded key ++ (keyTail ++ [0]))) val after hvalFree
    have hstart : (before ++ (decoded key ++ (keyTail ++ [0]))).length =
        before.length + key.length + 1 := by
      simp only [List.length_append, List.length_singleton]
      omega
    have hstore := store_append (before ++ key) equals 0 (val ++ 0 :: after)
    rw [hstart] at hvalRun
    rw [List.length_append] at hstore
    simp only [List.append_assoc, List.cons_append, List.nil_append] at hstore hkeyRun hvalRun
    refine ⟨_, _, ?_, holds_of_value hkey hkeyLength hkeyZero hvalLength hvalZero⟩
    have hchr := strchr_found before (val ++ 0 :: after) hkey hkeyFree
    unfold parsePair
    simp only [List.append_assoc, List.cons_append, hchr, Option.bind_eq_bind, Option.bind_some,
      hstore, hkeyRun, hvalRun]
    rfl
  · obtain ⟨tail, hrun, hlength, hzero⟩ := @urlqueryDecode_spec before piece after hfree
    refine ⟨_, _, ?_, holds_of_key hequals hlength hzero⟩
    unfold parsePair
    rw [strchr_missing before after (by decide) hequals hfree]
    simp only [Option.bind_eq_bind, Option.bind_some, hrun, List.append_assoc]
    rfl

theorem pieces_separators (n : ℕ) (query : Bytes) :
    pieces (List.replicate n ampersand ++ query) = pieces query := by
  induction n with
  | zero => rfl
  | succ n ih =>
    have hsplit := @List.splitOn_append_cons_self_of_not_mem _ [] _ _ ampersand List.not_mem_nil
      (List.replicate n ampersand ++ query)
    rw [List.nil_append] at hsplit
    rw [List.replicate_succ, List.cons_append, pieces, hsplit, List.filter_cons_of_neg (by simp),
      ← pieces, ih]

theorem pieces_last (hne : piece ≠ []) (hsep : ampersand ∉ piece) :
    pieces piece = [piece] := by
  rw [pieces, List.splitOn_eq_singleton hsep]
  simp [hne]

theorem pieces_append (hne : piece ≠ []) (hsep : ampersand ∉ piece)
    (rest : Bytes) : pieces (piece ++ ampersand :: rest) = piece :: pieces rest := by
  rw [pieces, pieces, List.splitOn_append_cons_self_of_not_mem hsep]
  simp [hne]

/-- What is left of a query string: nothing but separators, or separators, a piece and the
end of the string or another separator. -/
theorem query_cases (query : Bytes) :
    (∃ n, query = List.replicate n ampersand) ∨
      ∃ n piece rest, query = List.replicate n ampersand ++ (piece ++ rest) ∧ piece ≠ [] ∧
        ampersand ∉ piece ∧ (rest = [] ∨ ∃ more, rest = ampersand :: more) := by
  induction query with
  | nil => exact .inl ⟨0, rfl⟩
  | cons c query ih =>
    by_cases hc : c = ampersand
    · subst hc
      obtain ⟨n, rfl⟩ | ⟨n, piece, rest, rfl, hrest⟩ := ih
      · exact .inl ⟨n + 1, rfl⟩
      · exact .inr ⟨n + 1, piece, rest, rfl, hrest⟩
    · obtain ⟨piece, rest, hsplit, hne, hpiece, hrest, -⟩ :=
        @Tokens.exists_front _ (fun d => decide (d = ampersand)) c (decide_eq_false hc) query
      refine .inr ⟨0, piece, rest, hsplit, hne, fun hmem => ?_, ?_⟩
      · exact of_decide_eq_false (hpiece _ hmem) rfl
      · cases rest with
        | nil => exact .inl rfl
        | cons d more =>
          have hd : d = ampersand := of_decide_eq_true (hrest d rfl)
          exact .inr ⟨more, by rw [hd]⟩

theorem separators_passed (n : ℕ) : ∀ d ∈ List.replicate n ampersand,
    decide (d = ampersand) = true :=
  fun _ hd => decide_eq_true (List.eq_of_mem_replicate hd)

theorem urlqueryNextPair_end (before : Bytes) (n : ℕ) :
    urlqueryNextPair (before ++ (List.replicate n ampersand ++ [0])) (some before.length) =
      some (before ++ (List.replicate n ampersand ++ [0]), some (before.length + n), none) := by
  have hskip := @scan_all (fun c => decide (c = ampersand)) 0 (by decide) before [] _
    (separators_passed n)
  have hload := load_front (before ++ List.replicate n ampersand) [0]
  rw [List.append_assoc, List.length_append, List.length_replicate] at hload
  rw [List.length_replicate] at hskip
  unfold urlqueryNextPair skipSeparators
  simp only [hskip, hload, Option.bind_eq_bind, Option.bind_some, List.getElem?_cons_zero, if_true]
  rfl

variable {piece : Bytes}

theorem urlqueryNextPair_piece (before : Bytes) (n : ℕ) (hne : piece ≠ [])
    (hsep : ampersand ∉ piece) (hfree : 0 ∉ piece) {stop : UInt8}
    (hstop : stop = ampersand ∨ stop = 0) (after : Bytes) :
    ∃ area pair, Holds (before ++ List.replicate n ampersand) area pair piece ∧
      urlqueryNextPair (before ++ List.replicate n ampersand ++ (piece ++ stop :: after))
          (some before.length) =
        some (before ++ List.replicate n ampersand ++ (area ++ 0 :: after),
          some ((before ++ List.replicate n ampersand).length + piece.length +
            if stop = 0 then 0 else 1), some pair) := by
  obtain ⟨c, more, hpiece⟩ := List.exists_cons_of_ne_nil hne
  have hc : decide (c = ampersand) = false := by
    refine decide_eq_false ?_
    rintro rfl
    exact hsep (by rw [hpiece]; exact List.mem_cons_self)
  have hczero : c ≠ 0 := by
    rintro rfl
    exact hfree (by rw [hpiece]; exact List.mem_cons_self)
  have hskip := @scan_all (fun c => decide (c = ampersand)) c hc before (more ++ stop :: after) _
    (separators_passed n)
  rw [← List.cons_append, ← hpiece, ← List.append_assoc, List.length_replicate] at hskip
  generalize hfront : before ++ List.replicate n ampersand = front at hskip ⊢
  have hlength : before.length + n = front.length := by
    rw [← hfront, List.length_append, List.length_replicate]
  rw [hlength] at hskip
  have hloadPiece : (front ++ (piece ++ stop :: after))[front.length]? = some c := by
    rw [load_front, hpiece]
    rfl
  have hend : pieceEnd (front ++ (piece ++ stop :: after)) front.length =
      some (front.length + piece.length) := by
    refine scan_all ?_ front after (passes hsep hfree)
    rcases hstop with rfl | rfl
    · rfl
    · rfl
  have hloadStop : (front ++ (piece ++ stop :: after))[front.length + piece.length]? =
      some stop := by
    rw [← List.append_assoc, ← List.length_append, load_front]
    rfl
  have hstore : store (front ++ (piece ++ stop :: after)) (front.length + piece.length) 0 =
      some (front ++ (piece ++ 0 :: after)) := by
    rw [← List.append_assoc, ← List.length_append, store_append, List.append_assoc]
  obtain ⟨area, pair, hparse, hholds⟩ := parsePair_spec front after hfree
  refine ⟨area, pair, hholds, ?_⟩
  unfold urlqueryNextPair skipSeparators
  simp only [hskip, hloadPiece, hend, hloadStop, Option.bind_eq_bind, Option.bind_some, hczero,
    if_false]
  rcases hstop with rfl | rfl
  · have hne : ampersand ≠ 0 := by decide
    simp only [hstore, hparse, Option.bind_some, if_pos hne, if_neg hne]
    rfl
  · simp only [hparse, Option.bind_some, ne_eq, not_true_eq_false, if_false, if_true]
    rfl

structure Entry.Stands (entry : Entry) (mem : Bytes) : Prop where
  key : cstring (mem.drop entry.pair.key) = entry.key
  val : cstring (mem.drop entry.pair.val) = entry.val
  apart : entry.pair.key + entry.key.length ≤ entry.pair.val
  inside : entry.pair.val < mem.length

variable {pair : Pair}

theorem Holds.stands {before area : Bytes}
    (h : Holds before area pair piece) (more : Bytes) :
    Entry.Stands ⟨pair, keyText piece, valText piece⟩ (before ++ (area ++ 0 :: more)) where
  key := h.key more
  val := h.val more
  apart := h.apart
  inside := by
    have hinside := h.inside
    simp only [List.length_append, List.length_cons]
    omega

def pairTexts (query : Bytes) : List (Bytes × Bytes) :=
  (pieces query).map fun piece => (keyText piece, valText piece)

theorem allPairs_step {calls : ℕ} {mem next fin : Bytes} {str more : Option ℕ}
    {entries : List Entry} (hcall : urlqueryNextPair mem str = some (next, more, some pair))
    (hrest : allPairs calls next more = some (fin, entries)) :
    allPairs (calls + 1) mem str = some (fin,
      ⟨pair, cstring (next.drop pair.key), cstring (next.drop pair.val)⟩ :: entries) := by
  rw [allPairs, hcall]
  simp only [Option.bind_eq_bind, Option.bind_some, hrest]
  rfl

theorem allPairs_cons {calls : ℕ} {mem front area after fin : Bytes} {str more : Option ℕ}
    {entries : List Entry} (hholds : Holds front area pair piece)
    (hcall : urlqueryNextPair mem str = some (front ++ (area ++ 0 :: after), more, some pair))
    (hrun : allPairs calls (front ++ (area ++ 0 :: after)) more =
      some (front ++ (area ++ 0 :: fin), entries))
    (hstands : ∀ entry ∈ entries, entry.Stands (front ++ (area ++ 0 :: fin))) :
    ∃ all, allPairs (calls + 1) mem str = some (front ++ (area ++ 0 :: fin), all) ∧
      all.map (fun entry => (entry.key, entry.val)) =
        (keyText piece, valText piece) :: entries.map (fun entry => (entry.key, entry.val)) ∧
      ∀ entry ∈ all, entry.Stands (front ++ (area ++ 0 :: fin)) := by
  refine ⟨_, allPairs_step hcall hrun, ?_, ?_⟩
  · rw [List.map_cons, hholds.key after, hholds.val after]
  · rw [hholds.key after, hholds.val after]
    exact List.forall_mem_cons.mpr ⟨hholds.stands fin, hstands⟩

/-- The induction is on the calls; `before` has been handed out. -/
theorem allPairs_spec (calls : ℕ) : ∀ {before query : Bytes}, 0 ∉ query → query.length < calls →
    ∃ area entries, allPairs calls (before ++ (query ++ [0])) (some before.length) =
        some (before ++ (area ++ [0]), entries) ∧
      area.length = query.length ∧
      entries.map (fun entry => (entry.key, entry.val)) = pairTexts query ∧
      ∀ entry ∈ entries, entry.Stands (before ++ (area ++ [0])) := by
  induction calls with
  | zero => exact fun _ h => absurd h (Nat.not_lt_zero _)
  | succ calls ih =>
    intro before query hfree hcalls
    obtain ⟨n, rfl⟩ | ⟨n, piece, rest, rfl, hne, hsep, hrest⟩ := query_cases query
    · have hpieces := pieces_separators n []
      rw [List.append_nil] at hpieces
      refine ⟨List.replicate n ampersand, [], ?_, rfl, ?_, List.forall_mem_nil _⟩
      · rw [allPairs, urlqueryNextPair_end]
        rfl
      · rw [pairTexts, hpieces]
        rfl
    · have hpieceFree : 0 ∉ piece := fun h =>
        hfree (List.mem_append_right _ (List.mem_append_left _ h))
      have hrestFree : 0 ∉ rest := fun h =>
        hfree (List.mem_append_right _ (List.mem_append_right _ h))
      have hpiecePos := List.length_pos_iff.mpr hne
      simp only [List.length_append] at hcalls
      rw [pairTexts, pieces_separators]
      rcases hrest with rfl | ⟨more, rfl⟩
      · -- the last piece; the next call starts at its zero
        obtain ⟨area, pair, hholds, hcall⟩ :=
          urlqueryNextPair_piece before n hne hsep hpieceFree (.inr rfl) []
        obtain ⟨last, entries, hrun, hlast, htexts, hstands⟩ :=
          @ih (before ++ List.replicate n ampersand ++ area) [] List.not_mem_nil (by
            rw [List.length_nil]
            omega)
        obtain rfl := List.length_eq_zero_iff.mp hlast
        have hstr : (before ++ List.replicate n ampersand).length + piece.length + 0 =
            (before ++ List.replicate n ampersand ++ area).length := by
          rw [← hholds.length, ← List.length_append]
          rfl
        rw [if_pos rfl, hstr] at hcall
        rw [List.nil_append, List.append_assoc _ area] at hrun hstands
        obtain ⟨all, hall, halltexts, hallStands⟩ := allPairs_cons hholds hcall hrun hstands
        refine ⟨List.replicate n ampersand ++ area, all, ?_, ?_, ?_, ?_⟩
        · simpa only [List.append_assoc, List.append_nil, List.nil_append] using hall
        · rw [List.append_nil, List.length_append, List.length_append, hholds.length]
        · rw [halltexts, htexts, List.append_nil, pieces_last hne hsep]
          rfl
        · simpa only [List.append_assoc] using hallStands
      · -- the next call starts behind the zero that the separator became
        obtain ⟨area, pair, hholds, hcall⟩ :=
          urlqueryNextPair_piece before n hne hsep hpieceFree (.inl rfl) (more ++ [0])
        obtain ⟨last, entries, hrun, hlast, htexts, hstands⟩ :=
          @ih (before ++ List.replicate n ampersand ++ (area ++ [0])) more
            (fun h => hrestFree (List.mem_cons_of_mem _ h)) (by
            rw [List.length_cons] at hcalls
            omega)
        have hstr : (before ++ List.replicate n ampersand).length + piece.length + 1 =
            (before ++ List.replicate n ampersand ++ (area ++ [0])).length := by
          rw [← hholds.length]
          simp only [List.length_append, List.length_singleton]
          omega
        rw [if_neg (by decide), hstr] at hcall
        have hregroup : ∀ tail : Bytes, before ++ List.replicate n ampersand ++ (area ++ [0]) ++ tail =
            before ++ List.replicate n ampersand ++ (area ++ 0 :: tail) := by
          intro tail
          simp only [List.append_assoc, List.singleton_append]
        rw [hregroup, hregroup] at hrun
        rw [hregroup] at hstands
        obtain ⟨all, hall, halltexts, hallStands⟩ := allPairs_cons hholds hcall hrun hstands
        refine ⟨List.replicate n ampersand ++ (area ++ 0 :: last), all, ?_, ?_, ?_, ?_⟩
        · simpa only [List.append_assoc, List.cons_append] using hall
        · simp only [List.length_append, List.length_cons, hholds.length, hlast]
        · rw [halltexts, htexts, pieces_append hne hsep]
          rfl
        · simpa only [List.append_assoc, List.cons_append] using hallStands

/-- The pairs of a query string, of which each stays where it is handed out. -/
theorem query_pairs {query : Bytes} (hfree : 0 ∉ query) :
    ∃ mem entries, allPairs (query.length + 1) (query ++ [0]) (some 0) = some (mem, entries) ∧
      mem.length = query.length + 1 ∧
      entries.map (fun entry => (entry.key, entry.val)) = pairTexts query ∧
      ∀ entry ∈ entries, entry.Stands mem := by
  obtain ⟨area, entries, hrun, hlength, htexts, hstands⟩ :=
    @allPairs_spec (query.length + 1) [] query hfree (Nat.lt_succ_self _)
  refine ⟨_, entries, hrun, ?_, htexts, hstands⟩
  rw [List.nil_append, List.length_append, hlength]
  rfl

theorem query_pairs_escaped : ∃ mem entries,
    allPairs 9 [97, 61, 37, 0x32, 0x36, 38, 38, 98, 0] (some 0) = some (mem, entries) ∧
      mem.length = 9 ∧
      entries.map (fun entry => (entry.key, entry.val)) =
        pairTexts [97, 61, 37, 0x32, 0x36, 38, 38, 98] ∧
      ∀ entry ∈ entries, entry.Stands mem :=
  @query_pairs [97, 61, 37, 0x32, 0x36, 38, 38, 98] (by decide)

end Yans.Net.Urlquery
