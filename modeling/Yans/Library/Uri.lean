import Yans.Library.Memory
import Mathlib.Data.List.TakeWhile

/-! The components of a URI reference, as the regular expression of RFC 3986, appendix B,
splits them (with the grammar of section 3.1 for a scheme), and their recomposition of
section 5.3. -/
namespace Yans.Library.Uri

open Memory

def colon : UInt8 := 58
def slash : UInt8 := 47
def question : UInt8 := 63
def hash : UInt8 := 35

def isAlpha (c : UInt8) : Bool := 65 ≤ c && c ≤ 90 || 97 ≤ c && c ≤ 122

/-- Letters, digits and `+`, `-`, `.` -/
def isSchemeChar (c : UInt8) : Bool :=
  isAlpha c || 48 ≤ c && c ≤ 57 || c = 43 || c = 45 || c = 46

def isAuthorityChar (c : UInt8) : Bool := c ≠ slash && c ≠ question && c ≠ hash

def isPathChar (c : UInt8) : Bool := c ≠ question && c ≠ hash

structure IsScheme (x : Bytes) : Prop where
  first : ∃ c rest, x = c :: rest ∧ isAlpha c = true
  all : ∀ c ∈ x, isSchemeChar c = true

/-- The five components; all but the path may be missing. -/
structure Pieces where
  scheme : Option Bytes
  authority : Option Bytes
  path : Bytes
  query : Option Bytes
  fragment : Option Bytes
deriving DecidableEq

def schemeText : Option Bytes → Bytes
  | none => []
  | some x => x ++ [colon]

def authorityText : Option Bytes → Bytes
  | none => []
  | some a => slash :: slash :: a

def queryText : Option Bytes → Bytes
  | none => []
  | some q => question :: q

def fragmentText : Option Bytes → Bytes
  | none => []
  | some f => hash :: f

def Pieces.tail (p : Pieces) : Bytes := queryText p.query ++ fragmentText p.fragment

def Pieces.relative (p : Pieces) : Bytes := authorityText p.authority ++ (p.path ++ p.tail)

def Pieces.text (p : Pieces) : Bytes := schemeText p.scheme ++ p.relative

def schemeOf (s : Bytes) : Option Bytes :=
  let run := s.takeWhile isSchemeChar
  if run.head?.any isAlpha && s[run.length]? = some colon then some run else none

def authorityOf (s : Bytes) : Option Bytes :=
  if [slash, slash] <+: s then some ((s.drop 2).takeWhile isAuthorityChar) else none

def queryOf (s : Bytes) : Option Bytes :=
  if s.head? = some question then some (s.tail.takeWhile (· ≠ hash)) else none

def fragmentOf (s : Bytes) : Option Bytes :=
  if s.head? = some hash then some s.tail else none

def behind (s : Bytes) : Pieces :=
  let path := s.takeWhile isPathChar
  let s := s.drop path.length
  let query := queryOf s
  let s := s.drop (queryText query).length
  ⟨none, none, path, query, fragmentOf s⟩

def split (s : Bytes) : Pieces :=
  let scheme := schemeOf s
  let s := s.drop (schemeText scheme).length
  let authority := authorityOf s
  let s := s.drop (authorityText authority).length
  { behind s with scheme, authority }

theorem colon_not_scheme : isSchemeChar colon = false := by decide

theorem schemeOf_of_isScheme {x : Bytes} (h : IsScheme x) (rest : Bytes) :
    schemeOf (x ++ colon :: rest) = some x := by
  have hrun : (x ++ colon :: rest).takeWhile isSchemeChar = x := by
    rw [List.takeWhile_append_of_pos h.all,
      List.takeWhile_cons_of_neg (by rw [colon_not_scheme]; exact Bool.false_ne_true),
      List.append_nil]
  obtain ⟨c, more, rfl, hc⟩ := h.first
  unfold schemeOf
  rw [hrun, if_pos]
  rw [Bool.and_eq_true, decide_eq_true_eq]
  refine ⟨by simpa using hc, ?_⟩
  rw [List.getElem?_append_right le_rfl, Nat.sub_self]
  rfl

variable {s : Bytes}

theorem schemeOf_eq_some_iff {x : Bytes} :
    schemeOf s = some x ↔ IsScheme x ∧ x ++ [colon] <+: s := by
  constructor
  · intro h
    unfold schemeOf at h
    dsimp only at h
    split at h
    · rename_i htest
      rw [Bool.and_eq_true, decide_eq_true_eq] at htest
      obtain ⟨hfirst, hcolon⟩ := htest
      cases h
      refine ⟨⟨?_, fun c hc => List.mem_takeWhile_imp hc⟩, ?_⟩
      · cases hrun : s.takeWhile isSchemeChar with
        | nil =>
          rw [hrun] at hfirst
          cases hfirst
        | cons c rest =>
          rw [hrun] at hfirst
          exact ⟨c, rest, rfl, by simpa using hfirst⟩
      · obtain ⟨hlt, hthere⟩ := List.getElem?_eq_some_iff.mp hcolon
        refine ⟨s.drop ((s.takeWhile isSchemeChar).length + 1), ?_⟩
        rw [List.append_assoc, List.singleton_append, ← hthere, ← List.drop_eq_getElem_cons hlt]
        exact (List.prefix_iff_eq_append.mp (List.takeWhile_prefix _))
    · cases h
  · rintro ⟨hx, rest, rfl⟩
    rw [List.append_assoc, List.singleton_append]
    exact schemeOf_of_isScheme hx rest

/-! A text is its components in their order. -/

theorem front_schemeText (s : Bytes) : schemeText (schemeOf s) <+: s := by
  cases h : schemeOf s with
  | none => exact List.nil_prefix
  | some x =>
    exact (schemeOf_eq_some_iff.mp h).2

theorem front_authorityText (s : Bytes) : authorityText (authorityOf s) <+: s := by
  unfold authorityOf
  split
  · rename_i hslashes
    obtain ⟨rest, rfl⟩ := hslashes
    exact List.prefix_append_right_inj [slash, slash] |>.mpr (List.takeWhile_prefix _)
  · exact List.nil_prefix

theorem front_queryText (s : Bytes) : queryText (queryOf s) <+: s := by
  unfold queryOf
  split
  · rename_i hmark
    obtain ⟨rest, rfl⟩ := List.head?_eq_some_iff.mp hmark
    exact (List.prefix_cons_inj question).mpr (List.takeWhile_prefix _)
  · exact List.nil_prefix

theorem drop_takeWhile (p : UInt8 → Bool) (s : Bytes) :
    s.drop (s.takeWhile p).length = s.dropWhile p := by
  calc
    s.drop (s.takeWhile p).length =
        (s.takeWhile p ++ s.dropWhile p).drop (s.takeWhile p).length := by
      rw [List.takeWhile_append_dropWhile]
    _ = s.dropWhile p := List.drop_left

def TailStart (s : Bytes) : Prop := s = [] ∨ s.head? = some question ∨ s.head? = some hash

theorem tailStart_dropWhile (s : Bytes) : TailStart (s.dropWhile isPathChar) := by
  cases hrest : s.dropWhile isPathChar with
  | nil => exact .inl rfl
  | cons c rest =>
    have hhead := List.head?_dropWhile_not isPathChar s
    rw [hrest] at hhead
    right
    simpa [isPathChar, Classical.or_iff_not_imp_left] using hhead

theorem fragmentText_eq (h : s = [] ∨ s.head? = some hash) :
    fragmentText (fragmentOf s) = s := by
  unfold fragmentOf
  obtain rfl | hhash := h
  · rfl
  · rw [if_pos hhash]
    obtain ⟨rest, rfl⟩ := List.head?_eq_some_iff.mp hhash
    rfl

theorem drop_queryText (h : TailStart s) :
    s.drop (queryText (queryOf s)).length = [] ∨
      (s.drop (queryText (queryOf s)).length).head? = some hash := by
  unfold queryOf
  obtain rfl | hmark | hhash := h
  · exact .inl rfl
  · rw [if_pos hmark]
    obtain ⟨rest, rfl⟩ := List.head?_eq_some_iff.mp hmark
    rw [queryText, List.tail_cons, List.length_cons, List.drop_succ_cons, drop_takeWhile]
    cases hrest : rest.dropWhile (· ≠ hash) with
    | nil => exact .inl rfl
    | cons c more =>
      have hhead := List.head?_dropWhile_not (· ≠ hash) rest
      rw [hrest] at hhead
      right
      simpa using hhead
  · right
    have hne : s.head? ≠ some question := by
      rw [hhash]
      decide
    rw [if_neg hne]
    exact hhash

theorem text_behind (s : Bytes) : (behind s).path ++ (behind s).tail = s := by
  unfold behind Pieces.tail
  dsimp only
  rw [drop_takeWhile, fragmentText_eq (drop_queryText (tailStart_dropWhile _)),
    List.prefix_iff_eq_append.mp (front_queryText _), List.takeWhile_append_dropWhile]

theorem text_split (s : Bytes) : (split s).text = s := by
  have happend : ∀ {x s : Bytes}, x <+: s → x ++ s.drop x.length = s :=
    List.prefix_iff_eq_append.mp
  have hbehind := text_behind
  unfold Pieces.tail at hbehind
  unfold split Pieces.text Pieces.relative Pieces.tail
  rw [hbehind, happend (front_authorityText _), happend (front_schemeText s)]

/-! The components that a text can have -/

/-- Each component ends where the next one starts, and nothing in front of a component
is taken for one that is missing. -/
structure Pieces.Proper (p : Pieces) : Prop where
  scheme : ∀ x ∈ p.scheme, IsScheme x
  noScheme : p.scheme = none → p.authority = none → schemeOf p.path = none
  authority : ∀ a ∈ p.authority, (∀ c ∈ a, isAuthorityChar c = true) ∧
    (p.path = [] ∨ p.path.head? = some slash)
  noAuthority : p.authority = none → ¬ [slash, slash] <+: p.path
  path : ∀ c ∈ p.path, isPathChar c = true
  query : ∀ q ∈ p.query, hash ∉ q

theorem tailStart_tail (p : Pieces) : TailStart p.tail := by
  unfold Pieces.tail
  cases p.query with
  | some q => exact .inr (.inl rfl)
  | none =>
    cases p.fragment with
    | some f => exact .inr (.inr rfl)
    | none => exact .inl rfl

theorem TailStart.takeWhile (h : TailStart s) : s.takeWhile isPathChar = [] := by
  obtain rfl | hmark | hhash := h
  · rfl
  · obtain ⟨rest, rfl⟩ := List.head?_eq_some_iff.mp hmark
    exact List.takeWhile_cons_of_neg (by decide)
  · obtain ⟨rest, rfl⟩ := List.head?_eq_some_iff.mp hhash
    exact List.takeWhile_cons_of_neg (by decide)

variable {path rest : Bytes}

/-- A byte of a front ends with the byte that the tail starts with only if the front ends
before the tail. -/
theorem front_of_front_append {front : Bytes} (h : front <+: path ++ rest)
    (hfirst : ∀ c ∈ rest.head?, c ∉ front) : front <+: path := by
  obtain ⟨more, hmore⟩ := h
  rw [List.append_eq_append_iff] at hmore
  obtain ⟨after, hpath, -⟩ | ⟨after, rfl, hrest⟩ := hmore
  · exact ⟨after, hpath.symm⟩
  · cases after with
    | nil => exact ⟨[], by rw [List.append_nil, List.append_nil]⟩
    | cons c after =>
      exfalso
      refine hfirst c ?_ (List.mem_append_right _ List.mem_cons_self)
      rw [hrest]
      rfl

theorem TailStart.head? (h : TailStart s) {c : UInt8} (hc : c ∈ s.head?) :
    c = question ∨ c = hash := by
  obtain rfl | hmark | hhash := h
  · cases hc
  · rw [hmark] at hc
    exact .inl (Option.some.inj hc).symm
  · rw [hhash] at hc
    exact .inr (Option.some.inj hc).symm

theorem schemeOf_append (h : TailStart rest) :
    schemeOf (path ++ rest) = schemeOf path := by
  ext1 x
  rw [schemeOf_eq_some_iff, schemeOf_eq_some_iff]
  refine and_congr_right fun hx => ⟨fun hfront => front_of_front_append hfront ?_, ?_⟩
  · intro c hc hmem
    obtain hmem | hmem := List.mem_append.mp hmem
    · have hscheme := hx.all c hmem
      obtain rfl | rfl := h.head? hc
      · exact absurd hscheme (by decide)
      · exact absurd hscheme (by decide)
    · rw [List.mem_singleton] at hmem
      obtain rfl | rfl := h.head? hc
      · exact absurd hmem (by decide)
      · exact absurd hmem (by decide)
  · exact fun hfront => hfront.trans (List.prefix_append _ _)

theorem schemeOf_slash (rest : Bytes) : schemeOf (slash :: rest) = none := rfl

theorem takeWhile_append_stop {p : UInt8 → Bool} {x : Bytes} (hx : ∀ c ∈ x, p c = true)
    (hrest : rest.takeWhile p = []) : (x ++ rest).takeWhile p = x := by
  rw [List.takeWhile_append_of_pos hx, hrest, List.append_nil]

variable {a : Bytes}

theorem authorityOf_append (ha : ∀ c ∈ a, isAuthorityChar c = true)
    (hrest : rest.takeWhile isAuthorityChar = []) :
    authorityOf (slash :: slash :: (a ++ rest)) = some a := by
  unfold authorityOf
  rw [if_pos ⟨a ++ rest, rfl⟩, List.drop_succ_cons, List.drop_succ_cons, List.drop_zero,
    takeWhile_append_stop ha hrest]

theorem TailStart.takeWhile_authority (h : TailStart s) :
    s.takeWhile isAuthorityChar = [] := by
  obtain rfl | hmark | hhash := h
  · rfl
  · obtain ⟨rest, rfl⟩ := List.head?_eq_some_iff.mp hmark
    exact List.takeWhile_cons_of_neg (by decide)
  · obtain ⟨rest, rfl⟩ := List.head?_eq_some_iff.mp hhash
    exact List.takeWhile_cons_of_neg (by decide)

theorem authorityOf_of_tailStart (hrest : TailStart rest) :
    authorityOf (path ++ rest) = authorityOf path := by
  unfold authorityOf
  by_cases hslashes : [slash, slash] <+: path
  · rw [if_pos hslashes, if_pos (hslashes.trans (List.prefix_append _ _))]
    obtain ⟨more, rfl⟩ := hslashes
    rw [List.append_assoc]
    change some ((more ++ rest).takeWhile isAuthorityChar) = some (more.takeWhile isAuthorityChar)
    rw [List.takeWhile_append, hrest.takeWhile_authority, List.append_nil]
    split
    · rename_i hall
      rw [((List.takeWhile_prefix _).eq_of_length hall)]
    · rfl
  · rw [if_neg hslashes, if_neg]
    refine fun hfront => hslashes (front_of_front_append hfront ?_)
    intro c hc
    obtain rfl | rfl := hrest.head? hc
    · decide
    · decide

theorem queryOf_append {q : Bytes} (hq : hash ∉ q) (fragment : Option Bytes) :
    queryOf (question :: (q ++ fragmentText fragment)) = some q := by
  unfold queryOf
  rw [List.head?_cons, if_pos rfl, List.tail_cons, takeWhile_append_stop]
  · exact fun c hc => decide_eq_true fun heq => hq (heq ▸ hc)
  · cases fragment with
    | none => rfl
    | some f => exact List.takeWhile_cons_of_neg (by simp)

variable {p : Pieces}

theorem Pieces.Proper.schemeOf_text (h : p.Proper) : schemeOf p.text = p.scheme := by
  unfold Pieces.text
  cases hscheme : p.scheme with
  | some x =>
    rw [schemeText, List.append_assoc, List.singleton_append]
    exact schemeOf_of_isScheme (h.scheme x hscheme) _
  | none =>
    rw [schemeText, List.nil_append, Pieces.relative]
    cases hauth : p.authority with
    | some a => exact schemeOf_slash _
    | none =>
      rw [authorityText, List.nil_append, schemeOf_append (tailStart_tail p)]
      exact h.noScheme hscheme hauth

theorem takeWhile_path {p : Pieces} (h : p.path = [] ∨ p.path.head? = some slash) :
    (p.path ++ p.tail).takeWhile isAuthorityChar = [] := by
  obtain hnil | hslash := h
  · rw [hnil, List.nil_append]
    exact (tailStart_tail p).takeWhile_authority
  · obtain ⟨rest, hrest⟩ := List.head?_eq_some_iff.mp hslash
    rw [hrest]
    exact List.takeWhile_cons_of_neg (by decide)

theorem Pieces.Proper.authorityOf_relative (h : p.Proper) :
    authorityOf p.relative = p.authority := by
  unfold Pieces.relative
  cases hauth : p.authority with
  | none =>
    rw [authorityText, List.nil_append, authorityOf_of_tailStart (tailStart_tail p), authorityOf,
      if_neg (h.noAuthority hauth)]
  | some a =>
    obtain ⟨hchars, hpath⟩ := h.authority a hauth
    exact authorityOf_append hchars (takeWhile_path hpath)

theorem queryOf_tail {p : Pieces} (h : ∀ q ∈ p.query, hash ∉ q) : queryOf p.tail = p.query := by
  unfold Pieces.tail
  cases hquery : p.query with
  | some q => exact queryOf_append (h q hquery) p.fragment
  | none =>
    cases p.fragment with
    | none => rfl
    | some f => rfl

theorem fragmentOf_fragmentText (fragment : Option Bytes) :
    fragmentOf (fragmentText fragment) = fragment := by
  cases fragment with
  | none => rfl
  | some f => rfl

theorem split_text (h : p.Proper) : split p.text = p := by
  unfold split behind
  dsimp only
  rw [h.schemeOf_text, Pieces.text, List.drop_left, h.authorityOf_relative, Pieces.relative,
    List.drop_left, takeWhile_append_stop h.path (tailStart_tail p).takeWhile, List.drop_left,
    queryOf_tail h.query, Pieces.tail, List.drop_left, fragmentOf_fragmentText]

theorem authorityOf_eq_none (h : authorityOf s = none) : ¬ [slash, slash] <+: s := by
  intro hslashes
  rw [authorityOf, if_pos hslashes] at h
  cases h

theorem path_of_takeWhile (h : s.takeWhile isAuthorityChar = []) :
    s.takeWhile isPathChar = [] ∨ (s.takeWhile isPathChar).head? = some slash := by
  cases s with
  | nil => exact .inl rfl
  | cons c rest =>
    have hc : ¬ isAuthorityChar c = true := by
      intro hc
      rw [List.takeWhile_cons_of_pos hc] at h
      cases h
    by_cases hchar : isPathChar c = true
    · right
      rw [List.takeWhile_cons_of_pos hchar]
      -- the only such byte is a slash
      simp [isAuthorityChar, isPathChar] at hc hchar ⊢
      grind
    · left
      exact List.takeWhile_cons_of_neg hchar

theorem takeWhile_dropWhile (p : UInt8 → Bool) (s : Bytes) : (s.dropWhile p).takeWhile p = [] := by
  cases hrest : s.dropWhile p with
  | nil => rfl
  | cons c rest =>
    have hhead := List.head?_dropWhile_not p s
    rw [hrest, List.head?_cons] at hhead
    exact List.takeWhile_cons_of_neg (by simpa using hhead)

theorem drop_authorityText (h : authorityOf s = some a) :
    (s.drop (authorityText (some a)).length).takeWhile isAuthorityChar = [] := by
  unfold authorityOf at h
  split at h
  · rename_i hslashes
    obtain ⟨rest, rfl⟩ := hslashes
    cases h
    change ((rest.drop (rest.takeWhile isAuthorityChar).length).takeWhile isAuthorityChar) = []
    rw [drop_takeWhile, takeWhile_dropWhile]
  · cases h

theorem mem_authorityOf (h : authorityOf s = some a) :
    ∀ c ∈ a, isAuthorityChar c = true := by
  unfold authorityOf at h
  split at h
  · cases h
    exact fun c hc => List.mem_takeWhile_imp hc
  · cases h

theorem hash_not_mem_behind (s : Bytes) : ∀ q ∈ (behind s).query, hash ∉ q := by
  intro q hq
  unfold behind at hq
  dsimp only at hq
  unfold queryOf at hq
  split at hq
  · cases hq
    intro hmem
    simpa using List.mem_takeWhile_imp hmem
  · cases hq

theorem proper_split (s : Bytes) : (split s).Proper := by
  have htext := text_split s
  refine ⟨?_, ?_, ?_, ?_, fun c hc => List.mem_takeWhile_imp hc, hash_not_mem_behind _⟩
  · exact fun x hx => (schemeOf_eq_some_iff.mp hx).1
  · intro hscheme hauth
    have hnone : schemeOf s = none := hscheme
    rw [Pieces.text, Pieces.relative, hscheme, hauth, schemeText, authorityText, List.nil_append,
      List.nil_append] at htext
    rwa [← htext, schemeOf_append (tailStart_tail _)] at hnone
  · intro a ha
    have hpath := path_of_takeWhile (drop_authorityText ha)
    rw [← ha] at hpath
    exact ⟨mem_authorityOf ha, hpath⟩
  · intro hauth hslashes
    have hnone : authorityOf (s.drop (schemeText (schemeOf s)).length) = none := hauth
    refine authorityOf_eq_none hnone (hslashes.trans ?_)
    have hpath : (split s).path = (s.drop (schemeText (schemeOf s)).length).takeWhile isPathChar := by
      unfold split behind
      dsimp only
      rw [hnone, authorityText, List.length_nil, List.drop_zero]
    rw [hpath]
    exact List.takeWhile_prefix _

/-! Texts that are put together -/

theorem behind_of_path {path : Bytes} {query fragment : Option Bytes}
    (hpath : ∀ c ∈ path, isPathChar c = true) (hquery : ∀ q ∈ query, hash ∉ q) :
    behind (path ++ (queryText query ++ fragmentText fragment)) =
      ⟨none, none, path, query, fragment⟩ := by
  have htail := tailStart_tail ⟨none, none, path, query, fragment⟩
  have hread := @queryOf_tail ⟨none, none, path, query, fragment⟩ hquery
  unfold Pieces.tail at htail hread
  unfold behind
  dsimp only
  rw [takeWhile_append_stop hpath htail.takeWhile, List.drop_left, hread, List.drop_left,
    fragmentOf_fragmentText]

theorem split_of_authority {scheme : Option Bytes}
    (hscheme : ∀ x ∈ scheme, IsScheme x) (ha : ∀ c ∈ a, isAuthorityChar c = true)
    (hrest : rest.takeWhile isAuthorityChar = []) :
    split (schemeText scheme ++ (authorityText (some a) ++ rest)) =
      { behind rest with scheme, authority := some a } := by
  have hproper : Pieces.Proper { behind rest with scheme, authority := some a } :=
    { scheme := hscheme
      noScheme := nofun
      authority := by
        intro b hb
        cases hb
        exact ⟨ha, path_of_takeWhile hrest⟩
      noAuthority := nofun
      path := fun c hc => List.mem_takeWhile_imp hc
      query := hash_not_mem_behind rest }
  have hsplit := split_text hproper
  have htext : Pieces.text { behind rest with scheme, authority := some a } =
      schemeText scheme ++ (authorityText (some a) ++ rest) := by
    change _ ++ (_ ++ ((behind rest).path ++ (behind rest).tail)) = _
    rw [text_behind]
  rwa [htext] at hsplit

theorem split_of_path {scheme : Option Bytes} {path : Bytes} {query fragment : Option Bytes}
    (hscheme : ∀ x ∈ scheme, IsScheme x) (hnone : scheme = none → schemeOf path = none)
    (hpath : ∀ c ∈ path, isPathChar c = true) (hquery : ∀ q ∈ query, hash ∉ q) :
    split (schemeText scheme ++ (path ++ (queryText query ++ fragmentText fragment))) =
      ⟨scheme, authorityOf path, path.drop (authorityText (authorityOf path)).length, query,
        fragment⟩ := by
  have hback : ∀ c ∈ path.drop (authorityText (authorityOf path)).length, isPathChar c = true :=
    fun c hc => hpath c (List.mem_of_mem_drop hc)
  have hproper : Pieces.Proper ⟨scheme, authorityOf path,
      path.drop (authorityText (authorityOf path)).length, query, fragment⟩ := by
    refine ⟨hscheme, ?_, ?_, ?_, hback, hquery⟩
    · intro hx hauth
      dsimp only at hauth ⊢
      rw [hauth]
      exact hnone hx
    · intro a ha
      refine ⟨mem_authorityOf ha, ?_⟩
      have hroot := path_of_takeWhile (drop_authorityText ha)
      rw [← Option.mem_def.mp ha] at hroot
      rwa [List.takeWhile_eq_self_iff.mpr hback] at hroot
    · intro hauth
      dsimp only at hauth ⊢
      rw [hauth]
      exact authorityOf_eq_none hauth
  have hsplit := split_text hproper
  have htext : Pieces.text ⟨scheme, authorityOf path,
      path.drop (authorityText (authorityOf path)).length, query, fragment⟩ =
      schemeText scheme ++ (path ++ (queryText query ++ fragmentText fragment)) := by
    unfold Pieces.text Pieces.relative Pieces.tail
    rw [← List.append_assoc (authorityText _),
      List.prefix_iff_eq_append.mp (front_authorityText path)]
  rwa [htext] at hsplit

end Yans.Library.Uri
