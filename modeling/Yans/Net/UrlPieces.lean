import Yans.Library.PercentEncoding
import Yans.Net.Url

/-! `url_parse` and `url_normalize` on the components of a text instead of its offsets:
each component has its own rule, and the result is their recomposition. -/
namespace Yans.Net.Url

open Library Library.Memory Library.DotSegments

structure Authority where
  userinfo : Bytes
  host : Bytes
  port : Bytes
deriving DecidableEq

namespace Authority

/-- An empty component is left out together with its mark. -/
def front (auth : Authority) : Bytes :=
  if auth.userinfo = [] then [] else auth.userinfo ++ [commercialAt]

def back (auth : Authority) : Bytes := if auth.port = [] then [] else colon :: auth.port

def text (auth : Authority) : Bytes := auth.front ++ auth.host ++ auth.back

end Authority

/-- What stands before and after the first `ch`. -/
def before (ch : UInt8) (s : Bytes) : Bytes := s.takeWhile (· ≠ ch)

def after (ch : UInt8) (s : Bytes) : Bytes := (s.dropWhile (· ≠ ch)).tail

def hostAndPort (s : Bytes) : Option (Bytes × Bytes) :=
  if s.head? = some openBracket then
    if closeBracket ∈ s then
      let rest := after closeBracket s
      some (before closeBracket s ++ [closeBracket],
        if rest.head? = some colon then rest.tail else [])
    else none
  else some (before colon s, after colon s)

def parseAuthority (s : Bytes) : Option Authority :=
  if commercialAt ∈ s then
    (hostAndPort (after commercialAt s)).map fun ⟨host, port⟩ =>
      ⟨before commercialAt s, host, port⟩
  else (hostAndPort s).map fun ⟨host, port⟩ => ⟨[], host, port⟩

def normalScheme : Option Bytes → Option (Option Bytes)
  | none => some none
  | some x => if urlSupportedScheme (x.map tolower) then some (some (x.map tolower)) else none

def normalHost (ctx : UrlCtx) (host : Bytes) : Option Bytes :=
  if host = [] then some [] else (normalizeHost ctx host).toOption

def normalAuthority (ctx : UrlCtx) (s : Bytes) : Option Bytes := do
  let auth ← parseAuthority s
  let host ← normalHost ctx auth.host
  some { auth with host }.text

def isPathByte (ch : UInt8) : Bool := isPchar ch || ch = slash

def encodePath (path : Bytes) : Bytes := PercentEncoding.encode isPathByte path

def encodeQuery (query : Bytes) : Bytes := PercentEncoding.encode isQuerychar query

def reducePath (path : Bytes) : Bytes := removeDotSegments slash dot (encodePath path)

/-- The lengths decide whether a slash follows the path. -/
def normalPath (hasAuthority : Bool) (path : Bytes) : Bytes :=
  if hasAuthority ∧ path = [] then [slash]
  else reducePath path ++
    if hasAuthority ∧ (encodePath path).length - (reducePath path).length = path.length then [slash]
    else []

def keepEmpty (remove : Bool) (text : Option Bytes) : Option Bytes :=
  text.filter fun text => text ≠ [] ∨ ¬ remove

def normalQuery (ctx : UrlCtx) (query : Option Bytes) : Option Bytes :=
  (keepEmpty ctx.opts.removeEmptyQuery query).map encodeQuery

def normalFragment (ctx : UrlCtx) (fragment : Option Bytes) : Option Bytes :=
  keepEmpty ctx.opts.removeEmptyFragment fragment

def authorityBytes (pieces : Uri.Pieces) : Bytes := pieces.authority.getD []

theorem authorityBytes_of_some {pieces : Uri.Pieces} {a : Bytes} (h : pieces.authority = some a) :
    authorityBytes pieces = a := by
  rw [authorityBytes, h]
  rfl

theorem authorityBytes_of_none {pieces : Uri.Pieces} (h : pieces.authority = none) :
    authorityBytes pieces = [] := by
  rw [authorityBytes, h]
  rfl

def normalPieces (ctx : UrlCtx) (pieces : Uri.Pieces) : Option Uri.Pieces := do
  let scheme ← normalScheme pieces.scheme
  let authority ← normalAuthority ctx (authorityBytes pieces)
  some
    { scheme
      authority := if authorityBytes pieces = [] then none else some authority
      path := normalPath (authorityBytes pieces ≠ []) pieces.path
      query := normalQuery ctx pieces.query
      fragment := normalFragment ctx pieces.fragment }

theorem firstLine_append {x : Bytes} (h : newline ∉ x) (rest : Bytes) :
    firstLine (x ++ rest) = x ++ firstLine rest :=
  List.takeWhile_append_of_pos fun _ hc => decide_eq_true (ne_of_mem_of_not_mem hc h)

theorem firstLine_of_not_mem {s : Bytes} (h : newline ∉ s) : firstLine s = s :=
  List.takeWhile_eq_self_iff.mpr fun _ hc => decide_eq_true (ne_of_mem_of_not_mem hc h)

theorem newline_not_mem_firstLine (s : Bytes) : newline ∉ firstLine s := by
  intro hmem
  simpa using List.mem_takeWhile_imp hmem

theorem piecesOf_of_not_mem {s : Bytes} (h : newline ∉ s) : piecesOf s = Uri.split s := by
  rw [piecesOf, firstLine_of_not_mem h]

theorem text_piecesOf (s : Bytes) :
    ∃ lines, s = (piecesOf s).text ++ lines ∧ (newline ∉ s → lines = []) ∧
      lines.takeWhile (· ≠ newline) = [] := by
  refine ⟨s.dropWhile (· ≠ newline), ?_, fun h => ?_, Uri.takeWhile_dropWhile _ s⟩
  · rw [piecesOf, Uri.text_split]
    exact List.takeWhile_append_dropWhile.symm
  · exact List.dropWhile_eq_nil_iff.mpr fun _ hc => decide_eq_true (ne_of_mem_of_not_mem hc h)

theorem proper_piecesOf (s : Bytes) : (piecesOf s).Proper := Uri.proper_split _

/-- The part of `s` holds `text`. -/
def Part.Holds (part : Part) (s text : Bytes) : Prop :=
  part.len = text.length ∧ ∃ rest, s.drop part.off = text ++ rest

theorem Part.Holds.of_eq {part : Part} {s text : Bytes} (h : part.Holds s text) :
    part.of s = text := by
  obtain ⟨hlen, rest, hdrop⟩ := h
  rw [Part.of, slice, hdrop, hlen, List.take_left]

theorem holds_zero (s : Bytes) : Part.Holds ⟨0, 0⟩ s [] := ⟨rfl, s, rfl⟩

theorem holds_of_append {s front text rest : Bytes} {part : Part}
    (hs : s = front ++ (text ++ rest)) (hoff : part.off = front.length)
    (hlen : part.len = text.length) : part.Holds s text :=
  ⟨hlen, rest, by rw [hs, hoff, List.drop_left]⟩

variable {ch : UInt8}

theorem forall_ne {s : Bytes} (h : ch ∉ s) : ∀ c ∈ s, decide (c ≠ ch) = true :=
  fun _ hc => decide_eq_true (ne_of_mem_of_not_mem hc h)

theorem before_append {s : Bytes} (h : ch ∉ s) (rest : Bytes) :
    before ch (s ++ ch :: rest) = s := by
  unfold before
  rw [List.takeWhile_append_of_pos (forall_ne h), List.takeWhile_cons_of_neg (by simp),
    List.append_nil]

theorem after_append {s : Bytes} (h : ch ∉ s) (rest : Bytes) :
    after ch (s ++ ch :: rest) = rest := by
  unfold after
  rw [List.dropWhile_append_of_pos (forall_ne h), List.dropWhile_cons_of_neg (by simp),
    List.tail_cons]

theorem before_after {s : Bytes} (h : ch ∈ s) :
    s = before ch s ++ ch :: after ch s := by
  obtain ⟨front, back, rfl, hfree⟩ := List.eq_append_cons_of_mem h
  rw [before_append hfree, after_append hfree]

theorem before_of_not_mem {s : Bytes} (h : ch ∉ s) : before ch s = s :=
  List.takeWhile_eq_self_iff.mpr (forall_ne h)

theorem after_of_not_mem {s : Bytes} (h : ch ∉ s) : after ch s = [] := by
  unfold after
  rw [List.dropWhile_eq_nil_iff.mpr (forall_ne h)]
  rfl

theorem not_mem_before (ch : UInt8) (s : Bytes) : ch ∉ before ch s := by
  intro hmem
  simpa using List.mem_takeWhile_imp hmem

variable {rest : Bytes}

theorem memchr_eq {front text : Bytes} (ch : UInt8) :
    memchr (front ++ (text ++ rest)) front.length ch text.length =
      if ch ∈ text then some (before ch text).length else none := by
  unfold memchr slice
  rw [List.drop_left, List.take_left]
  by_cases hmem : ch ∈ text
  · rw [if_pos hmem]
    have hsplit := before_after hmem
    have hfree := not_mem_before ch text
    generalize before ch text = start at hsplit hfree ⊢
    generalize after ch text = back at hsplit
    subst hsplit
    have hnone : start.findIdx? (· = ch) = none := by
      rw [List.findIdx?_eq_none_iff]
      exact fun c hc => decide_eq_false (ne_of_mem_of_not_mem hc hfree)
    rw [List.findIdx?_append, hnone, List.findIdx?_cons]
    simp
  · rw [if_neg hmem, List.findIdx?_eq_none_iff]
    exact fun c hc => decide_eq_false (ne_of_mem_of_not_mem hc hmem)

theorem getElem?_front {front : Bytes} : (front ++ rest)[front.length]? = rest.head? := by
  rw [List.getElem?_append_right le_rfl, Nat.sub_self, List.head?_eq_getElem?]

theorem urlParseHost_eq {s front text rest : Bytes} (hs : s = front ++ (text ++ rest))
    {out : UrlParts} (hhost : out.host = ⟨0, 0⟩) (hport : out.port = ⟨0, 0⟩) :
    match hostAndPort text with
    | none => urlParseHost s out front.length text.length = none
    | some (host, port) => ∃ hasPort hostPart portPart,
        urlParseHost s out front.length text.length =
          some { out with hasPort, host := hostPart, port := portPart } ∧
        hostPart.Holds s host ∧ portPart.Holds s port := by
  unfold urlParseHost hostAndPort
  by_cases hempty : text = []
  · subst hempty
    refine ⟨out.hasPort, ⟨0, 0⟩, ⟨0, 0⟩, ?_, holds_zero s, holds_zero s⟩
    rw [List.length_nil, if_pos rfl]
    cases out
    subst hhost hport
    rfl
  have hlen : text.length ≠ 0 := fun h => hempty (List.length_eq_zero_iff.mp h)
  have hfirst : s[front.length]? = text.head? := by
    rw [hs, getElem?_front]
    exact List.head?_append_of_ne_nil _ hempty
  have hmemchr : ∀ ch, memchr s front.length ch text.length =
      if ch ∈ text then some (before ch text).length else none := fun ch => hs ▸ memchr_eq ch
  rw [if_neg hlen, hfirst, hmemchr, hmemchr]
  by_cases hbracket : text.head? = some openBracket
  · rw [if_pos hbracket, if_pos hbracket]
    by_cases hclose : closeBracket ∈ text
    · rw [if_pos hclose, if_pos hclose]
      have hsplit := before_after hclose
      generalize before closeBracket text = host at hsplit ⊢
      generalize after closeBracket text = back at hsplit ⊢
      subst hsplit
      have hback : (host ++ closeBracket :: back).length - (host.length + 1) = back.length := by
        rw [List.length_append, List.length_cons]
        omega
      have hpos : s = (front ++ (host ++ [closeBracket])) ++ (back ++ rest) := by
        rw [hs]
        simp
      have hnext : s[front.length + (host.length + 1)]? = (back ++ rest).head? := by
        rw [hpos, ← getElem?_front]
        congr 1
        simp
      have hholds : Part.Holds ⟨front.length, host.length + 1⟩ s (host ++ [closeBracket]) := by
        refine @holds_of_append _ front _ (back ++ rest) _ ?_ rfl (by simp)
        rw [hs]
        simp
      dsimp only
      rw [hback, hnext]
      by_cases hcolon : back.head? = some colon
      · obtain ⟨port, rfl⟩ := List.head?_eq_some_iff.mp hcolon
        rw [if_pos ⟨Nat.succ_pos _, rfl⟩]
        refine ⟨true, _, _, rfl, hholds, ?_⟩
        refine @holds_of_append _ (front ++ (host ++ [closeBracket, colon])) _ rest _ ?_ ?_ rfl
        · rw [hpos]
          simp
        · simp [Nat.add_assoc]
      · rw [if_neg hcolon, if_neg]
        · refine ⟨out.hasPort, _, ⟨0, 0⟩, ?_, hholds, holds_zero s⟩
          rw [← hport]
        · rintro ⟨hmore, hhead⟩
          rw [List.head?_append_of_ne_nil _ (List.ne_nil_of_length_pos hmore)] at hhead
          exact hcolon hhead
    · rw [if_neg hclose, if_neg hclose]
  · rw [if_neg hbracket, if_neg hbracket]
    by_cases hcolon : colon ∈ text
    · rw [if_pos hcolon]
      have hsplit := before_after hcolon
      generalize before colon text = host at hsplit ⊢
      generalize after colon text = port at hsplit ⊢
      subst hsplit
      have hback : (host ++ colon :: port).length - (host.length + 1) = port.length := by
        rw [List.length_append, List.length_cons]
        omega
      have hholds : Part.Holds ⟨front.length, host.length⟩ s host := by
        refine @holds_of_append _ front _ (colon :: port ++ rest) _ ?_ rfl rfl
        rw [hs]
        simp
      dsimp only
      rw [hback]
      by_cases hmore : port.length > 0
      · rw [if_pos hmore]
        refine ⟨true, _, _, rfl, hholds, ?_⟩
        refine @holds_of_append _ (front ++ (host ++ [colon])) _ rest _ ?_ ?_ rfl
        · rw [hs]
          simp
        · simp
      · rw [if_neg hmore, List.eq_nil_of_length_eq_zero (Nat.eq_zero_of_not_pos hmore)]
        refine ⟨true, _, ⟨0, 0⟩, ?_, hholds, holds_zero s⟩
        rw [← hport]
    · rw [if_neg hcolon, before_of_not_mem hcolon, after_of_not_mem hcolon]
      refine ⟨out.hasPort, ⟨front.length, text.length⟩, ⟨0, 0⟩, ?_, holds_of_append hs rfl rfl,
        holds_zero s⟩
      rw [← hport]

theorem urlParseAuth_eq {s front text rest : Bytes} (hs : s = front ++ (text ++ rest))
    {out : UrlParts} (hoff : text ≠ [] → out.auth.off = front.length)
    (hlen : out.auth.len = text.length) (huser : out.userinfo = ⟨0, 0⟩)
    (hhost : out.host = ⟨0, 0⟩) (hport : out.port = ⟨0, 0⟩) :
    match parseAuthority text with
    | none => urlParseAuth s out = none
    | some auth => ∃ hasUserinfo hasPort userPart hostPart portPart,
        urlParseAuth s out =
          some { out with hasUserinfo, hasPort, userinfo := userPart, host := hostPart
                          port := portPart } ∧
        userPart.Holds s auth.userinfo ∧ hostPart.Holds s auth.host ∧
        portPart.Holds s auth.port := by
  unfold urlParseAuth parseAuthority
  by_cases hempty : text = []
  · rw [if_pos (hlen.trans (List.length_eq_zero_iff.mpr hempty)), hempty]
    refine ⟨out.hasUserinfo, out.hasPort, ⟨0, 0⟩, ⟨0, 0⟩, ⟨0, 0⟩, ?_, holds_zero s, holds_zero s,
      holds_zero s⟩
    cases out
    dsimp only at huser hhost hport ⊢
    rw [huser, hhost, hport]
  have hpos : text.length ≠ 0 := fun h => hempty (List.length_eq_zero_iff.mp h)
  have hmemchr : memchr s front.length commercialAt text.length =
      if commercialAt ∈ text then some (before commercialAt text).length else none :=
    hs ▸ memchr_eq commercialAt
  dsimp only
  rw [hlen, if_neg hpos, hoff hempty, hmemchr]
  by_cases hat : commercialAt ∈ text
  · rw [if_pos hat, if_pos hat]
    have hsplit := before_after hat
    generalize before commercialAt text = user at hsplit ⊢
    generalize after commercialAt text = back at hsplit ⊢
    subst hsplit
    have hback : (user ++ commercialAt :: back).length - (user.length + 1) = back.length := by
      rw [List.length_append, List.length_cons]
      omega
    have hpos : s = (front ++ (user ++ [commercialAt])) ++ (back ++ rest) := by
      rw [hs]
      simp
    have hnext : front.length + (user.length + 1) = (front ++ (user ++ [commercialAt])).length := by
      simp
    have hholds : Part.Holds ⟨front.length, user.length⟩ s user := by
      refine @holds_of_append _ front _ (commercialAt :: back ++ rest) _ ?_ rfl rfl
      rw [hs]
      simp
    have hrun := @urlParseHost_eq s _ back rest hpos
      { out with hasUserinfo := true, userinfo := ⟨front.length, user.length⟩ } hhost hport
    dsimp only
    rw [hback, hnext]
    cases hparsed : hostAndPort back with
    | none =>
      rw [hparsed] at hrun
      exact hrun
    | some parsed =>
      rw [hparsed] at hrun
      obtain ⟨hasPort, hostPart, portPart, hrun, hhostPart, hportPart⟩ := hrun
      exact ⟨true, hasPort, _, hostPart, portPart, hrun, hholds, hhostPart, hportPart⟩
  · rw [if_neg hat, if_neg hat]
    have hrun := urlParseHost_eq hs hhost hport
    cases hparsed : hostAndPort text with
    | none =>
      rw [hparsed] at hrun
      exact hrun
    | some parsed =>
      rw [hparsed] at hrun
      obtain ⟨hasPort, hostPart, portPart, hrun, hhostPart, hportPart⟩ := hrun
      refine ⟨out.hasUserinfo, hasPort, ⟨0, 0⟩, hostPart, portPart, ?_, holds_zero s, hhostPart,
        hportPart⟩
      rw [hrun, ← huser]

/-- The parts hold the components of the text and of its authority. -/
structure Shows (s : Bytes) (parts : UrlParts) (pieces : Uri.Pieces) (parsed : Authority) :
    Prop where
  scheme_off : parts.scheme.off = 0
  scheme : parts.scheme.Holds s (pieces.scheme.getD [])
  auth : parts.auth.Holds s (authorityBytes pieces)
  behind : newline ∉ s → authorityBytes pieces ≠ [] →
    s.drop parts.auth.off = authorityBytes pieces ++ (pieces.path ++ pieces.tail)
  userinfo : parts.userinfo.Holds s parsed.userinfo
  host : parts.host.Holds s parsed.host
  port : parts.port.Holds s parsed.port
  path : parts.path.Holds s pieces.path
  query : parts.query.Holds s (pieces.query.getD [])
  fragment : parts.fragment.Holds s (pieces.fragment.getD [])
  hasQuery : parts.hasQuery = pieces.query.isSome
  hasFragment : parts.hasFragment = pieces.fragment.isSome

theorem holds_getD {s : Bytes} {group : Option Bytes} {part : Bytes → Part}
    (h : ∀ text ∈ group, (part text).Holds s text) :
    Part.Holds ((group.map part).getD ⟨0, 0⟩) s (group.getD []) := by
  cases group with
  | none => exact holds_zero s
  | some text => exact h text rfl

theorem urlParse_eq (s : Bytes) :
    match parseAuthority (authorityBytes (piecesOf s)) with
    | none => urlParse s = none
    | some auth => ∃ parts, urlParse s = some parts ∧ Shows s parts (piecesOf s) auth := by
  unfold urlParse
  by_cases hempty : s = []
  · subst hempty
    refine ⟨UrlParts.zero, rfl, rfl, ?_, ?_, fun _ h => absurd rfl h, ?_, ?_, ?_, ?_, ?_, ?_, rfl,
      rfl⟩
    all_goals exact holds_zero []
  rw [if_neg hempty]
  obtain ⟨lines, htext, hlines, -⟩ := text_piecesOf s
  unfold Uri.Pieces.text Uri.Pieces.relative Uri.Pieces.tail at htext
  simp only [List.append_assoc] at htext
  unfold regexec
  generalize piecesOf s = pieces at htext ⊢
  obtain ⟨scheme, authority, path, query, fragment⟩ := pieces
  have hscheme : Part.Holds ((scheme.map fun text => ⟨0, text.length⟩).getD ⟨0, 0⟩) s
      (scheme.getD []) := by
    refine holds_getD fun text hmem => ?_
    rw [Option.mem_def.mp hmem, Uri.schemeText, List.append_assoc] at htext
    exact @holds_of_append _ [] _ _ _ htext rfl rfl
  obtain ⟨front, rest, hs, hoff, hlen⟩ : ∃ front rest, s = front ++ (authority.getD [] ++ rest) ∧
      (authority.getD [] ≠ [] → ((authority.map fun text => Part.mk
        ((Uri.schemeText scheme).length + 2) text.length).getD ⟨0, 0⟩).off = front.length) ∧
      ((authority.map fun text => Part.mk
        ((Uri.schemeText scheme).length + 2) text.length).getD ⟨0, 0⟩).len =
        (authority.getD []).length := by
    cases authority with
    | none => exact ⟨[], s, rfl, fun h => absurd rfl h, rfl⟩
    | some text =>
      refine ⟨Uri.schemeText scheme ++ [slash, slash],
        path ++ (Uri.queryText query ++ (Uri.fragmentText fragment ++ lines)), ?_, fun _ => ?_, rfl⟩
      · rw [htext, Uri.authorityText, List.append_assoc]
        rfl
      · rw [List.length_append]
        rfl
  have hauth : Part.Holds ((authority.map fun text => Part.mk
      ((Uri.schemeText scheme).length + 2) text.length).getD ⟨0, 0⟩) s (authority.getD []) := by
    by_cases hnone : authority.getD [] = []
    · rw [hnone] at hlen ⊢
      exact ⟨hlen, s.drop _, rfl⟩
    · exact holds_of_append hs (hoff hnone) hlen
  have hpath : Part.Holds ⟨(Uri.schemeText scheme).length + (Uri.authorityText authority).length,
      path.length⟩ s path := by
    refine @holds_of_append _ (Uri.schemeText scheme ++ Uri.authorityText authority) _
      (Uri.queryText query ++ (Uri.fragmentText fragment ++ lines)) _ ?_
      List.length_append.symm rfl
    rw [htext, List.append_assoc]
  have hquery : Part.Holds ((query.map fun text => Part.mk ((Uri.schemeText scheme).length +
      (Uri.authorityText authority).length + path.length + 1) text.length).getD ⟨0, 0⟩) s
      (query.getD []) := by
    refine holds_getD fun text hmem => ?_
    rw [Option.mem_def.mp hmem, Uri.queryText] at htext
    refine @holds_of_append _ (Uri.schemeText scheme ++ Uri.authorityText authority ++ path ++
      [question]) _ (Uri.fragmentText fragment ++ lines) _ ?_ ?_ rfl
    on_goal 2 => simp only [List.length_append, List.length_singleton]
    rw [htext]
    simp [question, Uri.question]
  have hfragment : Part.Holds ((fragment.map fun text => Part.mk ((Uri.schemeText scheme).length +
      (Uri.authorityText authority).length + path.length + (Uri.queryText query).length + 1)
      text.length).getD ⟨0, 0⟩) s (fragment.getD []) := by
    refine holds_getD fun text hmem => ?_
    rw [Option.mem_def.mp hmem, Uri.fragmentText] at htext
    refine @holds_of_append _ (Uri.schemeText scheme ++ Uri.authorityText authority ++ path ++
      Uri.queryText query ++ [hash]) _ lines _ ?_ ?_ rfl
    on_goal 2 => simp only [List.length_append, List.length_singleton]
    rw [htext]
    simp [hash, Uri.hash]
  have hrun := @urlParseAuth_eq s front _ rest hs { UrlParts.zero with
    scheme := (scheme.map fun text => Part.mk 0 text.length).getD ⟨0, 0⟩
    auth := (authority.map fun text => Part.mk
      ((Uri.schemeText scheme).length + 2) text.length).getD ⟨0, 0⟩
    path := ⟨(Uri.schemeText scheme).length + (Uri.authorityText authority).length, path.length⟩ }
    hoff hlen rfl rfl rfl
  unfold authorityBytes
  cases hparsed : parseAuthority (authority.getD []) with
  | none =>
    rw [hparsed] at hrun
    dsimp only at hrun ⊢
    unfold UrlParts.zero at hrun ⊢
    rw [hrun]
  | some auth =>
    rw [hparsed] at hrun
    obtain ⟨hasUserinfo, hasPort, userPart, hostPart, portPart, hrun, huser, hhost, hport⟩ := hrun
    unfold UrlParts.zero at hrun ⊢
    dsimp only at hrun ⊢
    rw [hrun]
    refine ⟨_, rfl, ?_, hscheme, hauth, ?_, huser, hhost, hport, hpath, hquery, hfragment, ?_, ?_⟩
    · cases scheme with
      | none => rfl
      | some text => rfl
    · intro hline hne
      obtain rfl := hlines hline
      cases authority with
      | none => exact absurd rfl hne
      | some text =>
        rw [htext, Uri.authorityText, List.append_nil]
        change (Uri.schemeText scheme ++ ([slash, slash] ++ (text ++ _))).drop
          ((Uri.schemeText scheme).length + 2) = _
        rw [← List.drop_drop, List.drop_left]
        rfl
    · exact Option.isSome_map
    · exact Option.isSome_map

theorem encodeByte_eq {allowed : UInt8 → Bool} {s text : Bytes} {off : ℕ}
    (hdrop : s.drop off = ch :: text ++ rest) :
    encodeByte allowed s (off + (ch :: text).length) off =
      if PercentEncoding.kept allowed ch text then [ch] else PercentEncoding.triple ch := by
  have hread : ∀ i, s.getD (off + i) 0 = (ch :: text ++ rest).getD i 0 := by
    intro i
    rw [← hdrop, List.getD_eq_getElem?_getD, List.getD_eq_getElem?_getD, List.getElem?_drop]
  have hfirst : s.getD off 0 = ch := hread 0
  unfold encodeByte PercentEncoding.kept
  dsimp only
  rw [hfirst, hread 1, hread 2]
  cases hallowed : allowed ch with
  | true => rfl
  | false =>
    rw [if_neg Bool.false_ne_true, Bool.false_or]
    match text with
    | d :: e :: text =>
      have hmore : off + 2 < off + (ch :: d :: e :: text).length := by
        simp only [List.length_cons]
        omega
      simp only [hmore, true_and, PercentEncoding.startsHex, Bool.and_eq_true, decide_eq_true_eq]
      rfl
    | [d] =>
      have hend : ¬ off + 2 < off + [ch, d].length := by
        simp only [List.length_cons, List.length_nil]
        omega
      simp only [hend, false_and, and_false, if_false, PercentEncoding.startsHex, Bool.and_false]
      rfl
    | [] =>
      have hend : ¬ off + 2 < off + [ch].length := by
        simp only [List.length_cons, List.length_nil]
        omega
      simp only [hend, false_and, and_false, if_false, PercentEncoding.startsHex, Bool.and_false]
      rfl

theorem encodePart_eq (allowed : UInt8 → Bool) {s text : Bytes} {part : Part}
    (h : part.Holds s text) : encodePart allowed s part = PercentEncoding.encode allowed text := by
  obtain ⟨off, len⟩ := part
  obtain ⟨hlen, rest, hdrop⟩ := h
  subst hlen
  unfold encodePart
  induction text generalizing off with
  | nil => rfl
  | cons ch text ih =>
    have hnext : s.drop (off + 1) = text ++ rest := by
      rw [← List.drop_drop, hdrop]
      rfl
    have heoff : off + (ch :: text).length = off + 1 + text.length := by
      rw [List.length_cons]
      omega
    rw [List.length_cons, List.range'_succ, List.flatMap_cons, ← List.length_cons (a := ch),
      encodeByte_eq hdrop, heoff, ih (off + 1) hnext]
    rfl

section

variable {s : Bytes} {parts : UrlParts} {pieces : Uri.Pieces} {parsed : Authority}

theorem Part.Holds.len_pos {part : Part} {text : Bytes} (h : part.Holds s text) :
    part.len > 0 ↔ text ≠ [] := by
  rw [h.1, gt_iff_lt, List.length_pos_iff]

theorem normalizePath_eq (h : Shows s parts pieces parsed) :
    normalizePath s parts = normalPath (authorityBytes pieces ≠ []) pieces.path := by
  unfold normalizePath normalPath reducePath
  rw [encodePart_eq _ h.path]
  have hempty : parts.path.len = 0 ↔ pieces.path = [] := by
    rw [h.path.1, List.length_eq_zero_iff]
  simp only [h.auth.len_pos, h.path.len_pos, hempty, decide_eq_true_eq]
  by_cases hboth : authorityBytes pieces ≠ [] ∧ pieces.path = []
  · rw [if_pos hboth, if_pos hboth]
  rw [if_neg hboth, if_neg hboth]
  obtain ⟨st, hrun, hsim⟩ := urlRemoveDotSegments_run (encodePath pieces.path)
  have hw : st.w = (removeDotSegments slash dot (encodePath pieces.path)).length := by
    rw [← hsim.output_eq, List.length_take, hsim.length_eq]
    exact (Nat.min_eq_left (hsim.ordered.trans hsim.bounded)).symm
  unfold encodePath isPathByte at hrun hw hsim ⊢
  by_cases hpath : pieces.path = []
  · rw [if_neg (not_not.mpr hpath), hpath]
    rw [if_neg fun hslash => hboth ⟨hslash.1, hpath⟩, PercentEncoding.encode,
      removeDotSegments_nil, List.append_nil]
  · rw [if_pos hpath, hrun, Option.getD_some, hsim.output_eq, hw, h.path.1]

theorem normalizeQuery_eq (ctx : UrlCtx) (h : Shows s parts pieces parsed) :
    normalizeQuery ctx s parts = Uri.queryText (normalQuery ctx pieces.query) := by
  unfold normalizeQuery normalQuery keepEmpty
  rw [encodePart_eq _ h.query, h.hasQuery]
  simp only [h.query.len_pos]
  cases pieces.query with
  | none => rfl
  | some query =>
    by_cases hquery : query = []
    · subst hquery
      cases ctx.opts.removeEmptyQuery <;> rfl
    · simp [hquery, Option.filter, Uri.queryText, encodeQuery]
      rfl

theorem normalizeFragment_eq (ctx : UrlCtx) (h : Shows s parts pieces parsed) :
    normalizeFragment ctx s parts = Uri.fragmentText (normalFragment ctx pieces.fragment) := by
  unfold normalizeFragment normalFragment keepEmpty
  rw [h.fragment.of_eq, h.hasFragment]
  simp only [h.fragment.len_pos]
  cases pieces.fragment with
  | none => rfl
  | some fragment =>
    by_cases hfragment : fragment = []
    · subst hfragment
      cases ctx.opts.removeEmptyFragment <;> rfl
    · simp [hfragment, Option.filter, Uri.fragmentText]
      rfl

theorem normalizeScheme_eq (h : Shows s parts pieces parsed)
    (hgrammar : ∀ x ∈ pieces.scheme, Uri.IsScheme x) :
    (normalizeScheme s parts).toOption = (normalScheme pieces.scheme).map Uri.schemeText := by
  unfold normalizeScheme normalScheme
  have htext : (s.take parts.scheme.len).drop parts.scheme.off = pieces.scheme.getD [] := by
    have hof := h.scheme.of_eq
    rw [Part.of, slice, h.scheme_off, List.drop_zero] at hof
    rw [h.scheme_off, List.drop_zero, hof]
  simp only [h.scheme.len_pos, htext]
  cases hscheme : pieces.scheme with
  | none => rfl
  | some x =>
    have hx := hgrammar x hscheme
    obtain ⟨c, more, hne, -⟩ := hx.first
    have hnonempty : x ≠ [] := hne ▸ List.cons_ne_nil c more
    have hchars : ¬ (x.any fun ch => ch < 0x20 || ch > 0x7f) = true := by
      rw [List.any_eq_true]
      rintro ⟨ch, hmem, hbad⟩
      have hch := hx.all ch hmem
      simp only [Uri.isSchemeChar, Uri.isAlpha, Bool.or_eq_true, Bool.and_eq_true,
        decide_eq_true_eq, UInt8.le_iff_toNat_le, UInt8.lt_iff_toNat_lt, ← UInt8.toNat_inj,
        UInt8.reduceToNat, gt_iff_lt] at hch hbad
      omega
    rw [Option.getD_some, if_pos hnonempty, if_neg hchars]
    dsimp only
    split
    · rfl
    · rfl

theorem normalizeAuth_eq (ctx : UrlCtx) (h : Shows s parts pieces parsed) :
    (normalizeAuth ctx s parts).toOption = (normalHost ctx parsed.host).map fun host =>
      (if authorityBytes pieces = [] then [] else [slash, slash]) ++ { parsed with host }.text := by
  unfold normalizeAuth normalHost Authority.text Authority.front Authority.back
  rw [h.userinfo.of_eq, h.host.of_eq, h.port.of_eq]
  simp only [h.auth.len_pos, h.userinfo.len_pos, h.host.len_pos, h.port.len_pos, ite_not]
  rw [h.host.1]
  by_cases hempty : parsed.host = []
  · have hshort : ¬ ([] : Bytes).length > 255 := Nat.not_lt_zero 255
    rw [if_pos hempty, if_pos hempty, hempty, if_neg hshort]
    simp only [List.append_assoc]
    rfl
  rw [if_neg hempty, if_neg hempty]
  by_cases hlong : parsed.host.length > 255
  · have hfail : normalizeHost ctx parsed.host = .error .host := if_pos hlong
    rw [if_pos hlong, hfail]
    rfl
  · rw [if_neg hlong]
    cases normalizeHost ctx parsed.host with
    | error ret => rfl
    | ok host =>
      simp only [List.append_assoc]
      rfl

end

theorem toOption_bind {ε α β : Type} (x : Except ε α) (f : α → Except ε β) :
    (x >>= f).toOption = x.toOption.bind fun a => (f a).toOption := by
  cases x with
  | error e => rfl
  | ok a => rfl

theorem urlNormalize_cases {ctx : UrlCtx} {s t : Bytes} (hrun : urlNormalize ctx s = .ok t) :
    ∃ parts scheme auth, urlParse s = some parts ∧ normalizeScheme s parts = .ok scheme ∧
      normalizeAuth ctx s parts = .ok auth ∧
      t = scheme ++ auth ++ normalizePath s parts ++ normalizeQuery ctx s parts ++
        normalizeFragment ctx s parts := by
  unfold urlNormalize at hrun
  cases hparts : urlParse s with
  | none =>
    rw [hparts] at hrun
    cases hrun
  | some parts =>
    rw [hparts] at hrun
    dsimp only at hrun
    cases hscheme : normalizeScheme s parts with
    | error ret =>
      rw [hscheme] at hrun
      cases hrun
    | ok scheme =>
      rw [hscheme] at hrun
      cases hauth : normalizeAuth ctx s parts with
      | error ret =>
        change (normalizeAuth ctx s parts >>= _) = _ at hrun
        rw [hauth] at hrun
        cases hrun
      | ok auth =>
        change (normalizeAuth ctx s parts >>= _) = _ at hrun
        rw [hauth] at hrun
        exact ⟨parts, scheme, auth, rfl, hscheme, hauth, (Except.ok.inj hrun).symm⟩

theorem urlNormalize_eq (ctx : UrlCtx) (s : Bytes) :
    (urlNormalize ctx s).toOption = (normalPieces ctx (piecesOf s)).map Uri.Pieces.text := by
  have hparse := urlParse_eq s
  have hgrammar := (proper_piecesOf s).scheme
  unfold urlNormalize normalPieces normalAuthority
  cases hparsed : parseAuthority (authorityBytes (piecesOf s)) with
  | none =>
    rw [hparsed] at hparse
    rw [hparse]
    cases normalScheme (piecesOf s).scheme with
    | none => rfl
    | some scheme => rfl
  | some parsed =>
    rw [hparsed] at hparse
    obtain ⟨parts, hparts, hshows⟩ := hparse
    rw [hparts]
    rw [toOption_bind, normalizeScheme_eq hshows hgrammar]
    cases normalScheme (piecesOf s).scheme with
    | none => rfl
    | some scheme =>
      simp only [Option.map_some, Option.bind_eq_bind, Option.bind_some]
      rw [toOption_bind, normalizeAuth_eq ctx hshows]
      cases hhost : normalHost ctx parsed.host with
      | none => rfl
      | some host =>
        simp only [Option.map_some, Option.bind_some]
        rw [normalizePath_eq hshows, normalizeQuery_eq ctx hshows, normalizeFragment_eq ctx hshows]
        by_cases hempty : authorityBytes (piecesOf s) = []
        · rw [hempty] at hparsed
          cases hparsed
          cases hhost
          rw [if_pos hempty, if_pos hempty]
          simp only [Uri.Pieces.text, Uri.Pieces.relative, Uri.Pieces.tail, List.append_assoc]
          rfl
        · rw [if_neg hempty, if_neg hempty]
          simp only [Uri.Pieces.text, Uri.Pieces.relative, Uri.Pieces.tail, List.append_assoc]
          rfl

theorem urlNormalize_eq_ok_iff {ctx : UrlCtx} {s t : Bytes} :
    urlNormalize ctx s = .ok t ↔
      ∃ pieces, normalPieces ctx (piecesOf s) = some pieces ∧ pieces.text = t := by
  have heq := urlNormalize_eq ctx s
  rw [← Option.map_eq_some_iff, ← heq]
  cases urlNormalize ctx s with
  | error ret => exact iff_of_false nofun nofun
  | ok text => exact ⟨fun h => congrArg some (Except.ok.inj h), fun h => congrArg _ (Option.some.inj h)⟩

theorem isAlnum_of_isHexDigit (h : PercentEncoding.isHexDigit ch = true) :
    isAlnum ch = true := by
  simp only [PercentEncoding.isHexDigit, isAlnum, Bool.or_eq_true, Bool.and_eq_true,
    decide_eq_true_eq, UInt8.le_iff_toNat_le, UInt8.reduceToNat] at h ⊢
  omega

theorem isPathByte_of_isHexDigit (ch : UInt8) (h : PercentEncoding.isHexDigit ch = true) :
    isPathByte ch = true := by
  simp only [isPathByte, isPchar, isAlnum_of_isHexDigit h, Bool.true_or]

theorem isQuerychar_of_isHexDigit (ch : UInt8) (h : PercentEncoding.isHexDigit ch = true) :
    isQuerychar ch = true := by
  simp only [isQuerychar, isAlnum_of_isHexDigit h, Bool.true_or]

theorem slash_ne_dot : slash ≠ dot := by decide

def EncodedPath (path : Bytes) : Prop := PercentEncoding.Encoded isPathByte path

theorem encodedPath_reducePath (path : Bytes) : EncodedPath (reducePath path) := by
  refine removeDotSegments_keeps ⟨rfl, trivial⟩ PercentEncoding.Encoded.back
    (fun h hends => PercentEncoding.Encoded.front h ?_) PercentEncoding.Encoded.append
    (PercentEncoding.encoded_encode isPathByte_of_isHexDigit path)
  intro ch hch
  obtain rfl | hslash := hends
  · cases hch
  · rw [hslash] at hch
    cases hch
    rfl

theorem dotFree_reducePath (path : Bytes) : DotFree slash dot (reducePath path) :=
  dotFree_removeDotSegments slash_ne_dot _

variable {path : Bytes}

theorem head?_encodePath (h : path.head? = some slash) :
    (encodePath path).head? = some slash := by
  obtain ⟨rest, rfl⟩ := List.head?_eq_some_iff.mp h
  rfl

theorem head?_reducePath (h : path.head? = some slash) :
    (reducePath path).head? = some slash :=
  head?_removeDotSegments (head?_encodePath h) slash_ne_dot

theorem EncodedPath.isPathChar (h : EncodedPath path) :
    ∀ ch ∈ path, Uri.isPathChar ch = true := by
  intro ch hch
  have hmem := PercentEncoding.Encoded.mem h hch
  simp only [Uri.isPathChar, Bool.and_eq_true, decide_eq_true_eq]
  constructor
  · rintro rfl
    revert hmem
    decide
  · rintro rfl
    revert hmem
    decide

theorem hash_not_mem {query : Bytes} (h : PercentEncoding.Encoded isQuerychar query) :
    Uri.hash ∉ query := by
  intro hmem
  have hhash := h.mem hmem
  revert hhash
  decide

theorem encodedPath_normalPath (hasAuthority : Bool) (path : Bytes) :
    EncodedPath (normalPath hasAuthority path) := by
  have halone : EncodedPath [slash] := ⟨rfl, trivial⟩
  unfold normalPath
  split
  · exact halone
  · refine PercentEncoding.Encoded.append (encodedPath_reducePath path) ?_
    split
    · exact halone
    · trivial

theorem dotFree_normalPath (hasAuthority : Bool) (path : Bytes) :
    DotFree slash dot (normalPath hasAuthority path) := by
  have hnil : slash ∉ ([] : Bytes) := List.not_mem_nil
  unfold normalPath
  split
  · exact dotFree_nil.append hnil not_isDots_nil
  · split
    · exact (dotFree_reducePath path).append hnil not_isDots_nil
    · rw [List.append_nil]
      exact dotFree_reducePath path

theorem head?_normalPath (h : path = [] ∨ path.head? = some slash) :
    (normalPath true path).head? = some slash := by
  unfold normalPath
  obtain rfl | hslash := h
  · rfl
  · rw [if_neg, List.head?_append, head?_reducePath hslash]
    · rfl
    · rintro ⟨-, rfl⟩
      cases hslash

theorem normalPath_false (path : Bytes) : normalPath false path = reducePath path := by
  unfold normalPath
  simp

theorem hash_not_mem_normalQuery (ctx : UrlCtx) (query : Option Bytes) :
    ∀ text ∈ normalQuery ctx query, Uri.hash ∉ text := by
  intro text hmem
  obtain ⟨raw, -, rfl⟩ := Option.map_eq_some_iff.mp hmem
  exact hash_not_mem (PercentEncoding.encoded_encode isQuerychar_of_isHexDigit raw)

def nameless : UrlCtx := ⟨⟨false, false⟩, fun _ => none, fun _ => none⟩

end Yans.Net.Url
