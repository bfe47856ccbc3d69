import Yans.Net.UrlPieces

/-! The path that `url_normalize` writes. -/
namespace Yans.Net.Url

open Library Library.Memory Library.DotSegments Library.Strings

/-- `path` stands in the output `t` between what is written for the scheme and the authority
of `s` and what is written for its query and its fragment. -/
def PathWritten (ctx : UrlCtx) (s t path : Bytes) : Prop :=
  ∃ parts scheme auth, urlParse s = some parts ∧ normalizeScheme s parts = .ok scheme ∧
    normalizeAuth ctx s parts = .ok auth ∧
    t = scheme ++ auth ++ path ++ normalizeQuery ctx s parts ++ normalizeFragment ctx s parts

/-- The encoded path without its dot segments, or a slash if nothing is left of it behind an
authority. -/
def requiredPath (s : Bytes) : Bytes :=
  let path := reducePath (piecesOf s).path
  if path = [] ∧ authorityBytes (piecesOf s) ≠ [] then [slash] else path

def escapes (s : Bytes) : ℕ := PercentEncoding.escapes isPathByte (piecesOf s).path

variable {ctx : UrlCtx} {s t : Bytes}

theorem pathWritten_iff (hrun : urlNormalize ctx s = .ok t) {path : Bytes} :
    PathWritten ctx s t path ↔
      path = normalPath (authorityBytes (piecesOf s) ≠ []) (piecesOf s).path := by
  obtain ⟨parts, scheme, auth, hparts, hscheme, hauth, htext⟩ := urlNormalize_cases hrun
  have hparse := urlParse_eq s
  have hpath : normalizePath s parts =
      normalPath (authorityBytes (piecesOf s) ≠ []) (piecesOf s).path := by
    cases hparsed : parseAuthority (authorityBytes (piecesOf s)) with
    | none =>
      rw [hparsed, hparts] at hparse
      cases hparse
    | some parsed =>
      rw [hparsed] at hparse
      obtain ⟨parts', hparts', hshows⟩ := hparse
      rw [hparts] at hparts'
      cases hparts'
      exact normalizePath_eq hshows
  rw [hpath] at htext
  constructor
  · rintro ⟨parts', scheme', auth', hparts', hscheme', hauth', htext'⟩
    rw [hparts] at hparts'
    cases hparts'
    rw [hscheme] at hscheme'
    rw [hauth] at hauth'
    cases hscheme'
    cases hauth'
    rw [htext] at htext'
    simpa using htext'.symm
  · rintro rfl
    exact ⟨parts, scheme, auth, hparts, hscheme, hauth, htext⟩

theorem length_encodePath : (encodePath (piecesOf s).path).length =
    (piecesOf s).path.length + 2 * escapes s := PercentEncoding.length_encode _

theorem head?_path (hauth : authorityBytes (piecesOf s) ≠ []) (hpath : (piecesOf s).path ≠ []) :
    (piecesOf s).path.head? = some slash := by
  unfold authorityBytes at hauth
  cases ha : (piecesOf s).authority with
  | none =>
    rw [ha] at hauth
    exact absurd rfl hauth
  | some a => exact ((proper_piecesOf s).authority a ha).2.resolve_left hpath

/-- Behind an authority the path is the required one unless it is, after the reduction, twice
as long as there are encoded bytes. -/
theorem path_reduced_iff (hrun : urlNormalize ctx s = .ok t) :
    PathWritten ctx s t (requiredPath s) ↔
      (authorityBytes (piecesOf s) ≠ [] → escapes s ≠ 0 →
        (reducePath (piecesOf s).path).length ≠ 2 * escapes s) := by
  rw [pathWritten_iff hrun]
  unfold requiredPath normalPath
  by_cases hauth : authorityBytes (piecesOf s) = []
  · have hdecide : decide (authorityBytes (piecesOf s) ≠ []) = false :=
      decide_eq_false (not_not.mpr hauth)
    rw [hdecide, if_neg fun h => h.2 hauth, if_neg fun h => Bool.false_ne_true h.1,
      if_neg fun h => Bool.false_ne_true h.1, List.append_nil]
    exact iff_of_true rfl fun hne => absurd hauth hne
  have hdecide : decide (authorityBytes (piecesOf s) ≠ []) = true := decide_eq_true hauth
  rw [hdecide]
  by_cases hpath : (piecesOf s).path = []
  · have hnone : escapes s = 0 := by
      unfold escapes
      rw [hpath]
      rfl
    have hreduced : reducePath (piecesOf s).path = [] := by
      rw [hpath]
      exact removeDotSegments_nil slash dot
    rw [if_pos ⟨hreduced, hauth⟩, if_pos ⟨rfl, hpath⟩]
    exact iff_of_true rfl fun _ hescapes => absurd hnone hescapes
  · have hhead := head?_reducePath (head?_path hauth hpath)
    have hne : reducePath (piecesOf s).path ≠ [] := by
      intro hnil
      rw [hnil] at hhead
      cases hhead
    have hlength : (reducePath (piecesOf s).path).length ≤
        (encodePath (piecesOf s).path).length := length_removeDotSegments_le _
    have hpos := List.length_pos_iff.mpr hne
    rw [length_encodePath] at hlength ⊢
    rw [if_neg fun h => hne h.1, if_neg fun h => hpath h.2]
    -- a slash follows if and only if the two lengths differ by that of the path
    by_cases htwice : (reducePath (piecesOf s).path).length = 2 * escapes s
    · rw [if_pos ⟨rfl, by omega⟩]
      refine iff_of_false ?_ fun h => h hauth (by omega) htwice
      intro heq
      simpa using congrArg List.length heq
    · rw [if_neg fun h => htwice (by omega), List.append_nil]
      exact iff_of_true rfl fun _ _ => htwice

example : urlNormalize nameless (ascii "//h/a /../b") = .ok (ascii "//h/b/") := by decide +kernel

theorem path_reduced_iff_encoded :
    PathWritten nameless (ascii "//h/a /../bc") (ascii "//h/bc")
        (requiredPath (ascii "//h/a /../bc")) ↔
      (authorityBytes (piecesOf (ascii "//h/a /../bc")) ≠ [] →
        escapes (ascii "//h/a /../bc") ≠ 0 →
        (reducePath (piecesOf (ascii "//h/a /../bc")).path).length ≠
          2 * escapes (ascii "//h/a /../bc")) :=
  path_reduced_iff (by decide +kernel)

/-- One byte is encoded and two bytes are left. -/
theorem slash_added : ¬ ∀ (ctx : UrlCtx) (s t : Bytes), urlNormalize ctx s = .ok t →
    PathWritten ctx s t (requiredPath s) := by
  intro h
  have hrun : urlNormalize nameless (ascii "//h/a /../b") = .ok (ascii "//h/b/") := by
    decide +kernel
  have hreduced : reducePath (piecesOf (ascii "//h/a /../b")).path = ascii "/b" :=
    removeDotSegments_eq_of_run (w := 2) (s := ascii "/b%20/../b") (by decide +kernel)
  have hwritten := (pathWritten_iff hrun).mp (h _ _ _ hrun)
  unfold requiredPath normalPath at hwritten
  rw [hreduced] at hwritten
  revert hwritten
  decide +kernel

end Yans.Net.Url
