import Yans.Net.UrlResolve

/-! The path of what `url_resolve` makes of a relative reference. The dot segments are
removed from the reference before it is merged with the path of the base. -/
namespace Yans.Net.Url

open Library Library.Memory Library.DotSegments Library.Strings

/-- The base's path up to its last slash, or a single slash, with the path behind it. -/
def mergePaths (base path : Bytes) : Bytes :=
  (if slash ∈ base then upToSlash base else [slash]) ++ path

def targetPath (base path : Bytes) : Bytes :=
  if path.head? = some slash then removeDotSegments slash dot path
  else removeDotSegments slash dot (mergePaths base path)

/-- When the path is what it should be. A relative path that is reduced to a path must not be
read as something else, and may only climb above its start where the base has no segments
that could be taken back. -/
def Resolves (base path : Bytes) : Prop :=
  let reduced := removeDotSegments slash dot path
  let rooted := removeDotSegments slash dot (slash :: path)
  let folder := removeLast slash base
  let kept := (removeLast slash)^[climbs slash dot (slash :: path) []] folder
  if path.head? = some slash then
    ¬ [slash, slash] <+: reduced ∨ reduced = [slash, slash] ∧ base = [slash, slash]
  else if reduced = [] ∨ reduced = [slash, slash] then base = kept ++ rooted
  else if reduced.head? = some slash then
    ¬ [slash, slash] <+: reduced ∧ rooted = reduced ∧ kept = []
  else
    Uri.schemeOf reduced = none ∧ (climbs slash dot (slash :: path) [] = 0 ∨ folder = [])

variable {path : Bytes}

theorem upToSlash_eq (h : path.head? = some slash) :
    upToSlash path = removeLast slash path ++ [slash] := by
  have hne : upToSlash path ≠ [] := by
    intro hnil
    have hhead := head?_upToSlash h
    rw [hnil] at hhead
    cases hhead
  have hlast : (upToSlash path).getLast hne = slash := by
    by_contra hother
    exact List.rdropWhile_last_not (· ≠ slash) path hne (decide_eq_true hother)
  have hsplit := List.dropLast_append_getLast hne
  rw [hlast] at hsplit
  exact hsplit.symm

variable {base : Bytes}

theorem mergePaths_eq (hroot : base = [] ∨ base.head? = some slash) (path : Bytes) :
    mergePaths base path = removeLast slash base ++ slash :: path := by
  unfold mergePaths
  obtain rfl | hhead := hroot
  · rfl
  · rw [if_pos (List.mem_of_mem_head? hhead), upToSlash_eq hhead, List.append_assoc]
    rfl

theorem mergedPath_eq (hroot : base = [] ∨ base.head? = some slash)
    (hpath : path ≠ []) (hhead : path.head? ≠ some slash) :
    mergedPath base path = removeLast slash base ++ slash :: path := by
  unfold mergedPath
  rw [if_neg hpath, if_neg hhead]
  obtain rfl | hbase := hroot
  · rfl
  · have hne : base ≠ [] := by
      rintro rfl
      cases hbase
    rw [if_neg hne, upToSlash_eq hbase, List.append_assoc]
    rfl

theorem targetPath_of_relative (hroot : base = [] ∨ base.head? = some slash)
    (hfree : DotFree slash dot base) (hhead : path.head? ≠ some slash) :
    targetPath base path =
      (removeLast slash)^[climbs slash dot (slash :: path) []] (removeLast slash base) ++
        removeDotSegments slash dot (slash :: path) := by
  have hfolder : Ends slash (removeLast slash base) ∧
      DotFree slash dot (removeLast slash base) := by
    obtain rfl | hbase := hroot
    · exact ⟨.inl rfl, dotFree_nil⟩
    · have hends := (removeLast_behind hbase []).2
      obtain hnone | ⟨front, segment, rfl, hsegment⟩ := @exists_last_slash _ slash _ base
      · exact absurd (List.mem_of_mem_head? hbase) hnone
      · rw [removeLast_append front hsegment] at hends ⊢
        exact ⟨hends, hfree.front (ends_cons slash segment)⟩
  unfold targetPath
  rw [if_neg hhead, mergePaths_eq hroot, removeDotSegments_behind slash_ne_dot hfolder.1 hfolder.2]

theorem length_reduced_le {path : Bytes} (hroot : base = [] ∨ base.head? = some slash)
    (hfree : DotFree slash dot base) :
    (removeDotSegments slash dot path).length ≤ (targetPath base path).length := by
  by_cases hhead : path.head? = some slash
  · rw [targetPath, if_pos hhead]
  · rw [targetPath_of_relative hroot hfree hhead, List.length_append]
    obtain hslash | ⟨hsame, -⟩ := removeDotSegments_slash slash_ne_dot _ rfl hhead
    · rw [hslash, List.length_cons]
      omega
    · rw [hsame]
      omega

def Misread (reduced : Bytes) : Prop :=
  Uri.schemeOf reduced ≠ none ∨ [slash, slash] <+: reduced ∧ reduced ≠ [slash, slash]

def writtenPath (base reduced : Bytes) : Bytes :=
  mergedPath base (if reduced = [slash, slash] then [] else reduced)

theorem schemeOf_of_head (h : path.head? = some slash) :
    Uri.schemeOf path = none := by
  obtain ⟨rest, rfl⟩ := List.head?_eq_some_iff.mp h
  exact Uri.schemeOf_slash rest

theorem writtenPath_eq_iff (hroot : base = [] ∨ base.head? = some slash)
    (hfree : DotFree slash dot base) (hread : ¬ Misread (removeDotSegments slash dot path)) :
    writtenPath base (removeDotSegments slash dot path) = targetPath base path ↔
      Resolves base path := by
  have hscheme : Uri.schemeOf (removeDotSegments slash dot path) = none := by
    by_contra hsome
    exact hread (.inl hsome)
  have hslashes : [slash, slash] <+: removeDotSegments slash dot path →
      removeDotSegments slash dot path = [slash, slash] := by
    intro hfront
    by_contra hne
    exact hread (.inr ⟨hfront, hne⟩)
  generalize hr : removeDotSegments slash dot path = reduced at hread hscheme hslashes
  unfold Resolves writtenPath
  rw [hr]
  by_cases hhead : path.head? = some slash
  · have hreduced := head?_removeDotSegments hhead slash_ne_dot
    rw [if_pos hhead, targetPath, if_pos hhead, hr]
    rw [hr] at hreduced
    by_cases htwo : reduced = [slash, slash]
    · rw [if_pos htwo, htwo, mergedPath, if_pos rfl]
      exact ⟨fun hbase => .inr ⟨rfl, hbase⟩,
        fun h => (h.resolve_left (not_not.mpr List.prefix_rfl)).2⟩
    · have hne : reduced ≠ [] := by
        rintro rfl
        cases hreduced
      rw [if_neg htwo, mergedPath, if_neg hne, if_pos hreduced]
      exact iff_of_true rfl (.inl fun hfront => htwo (hslashes hfront))
  rw [if_neg hhead, targetPath_of_relative hroot hfree hhead]
  have hrooted := removeDotSegments_slash slash_ne_dot _ rfl hhead
  rw [hr] at hrooted
  by_cases hend : reduced = [] ∨ reduced = [slash, slash]
  · have hnone : (if reduced = [slash, slash] then [] else reduced) = [] := by
      obtain rfl | rfl := hend
      · rfl
      · rw [if_pos rfl]
    rw [if_pos hend, hnone, mergedPath, if_pos rfl]
  rw [if_neg hend]
  rw [not_or] at hend
  rw [if_neg hend.2]
  by_cases hreduced : reduced.head? = some slash
  · -- the reduced path is absolute, and replaces the one of the base
    rw [if_pos hreduced, mergedPath, if_neg hend.1, if_pos hreduced]
    obtain hslash | ⟨hsame, -⟩ := hrooted
    · rw [hslash]
      refine iff_of_false (fun heq => ?_) fun h => List.cons_ne_self slash reduced h.2.1
      have hlength := congrArg List.length heq
      rw [List.length_append, List.length_cons] at hlength
      omega
    · rw [hsame, List.self_eq_append_left]
      exact ⟨fun hkept => ⟨fun hfront => hend.2 (hslashes hfront), rfl, hkept⟩, fun h => h.2.2⟩
  · rw [if_neg hreduced, mergedPath_eq hroot hend.1 hreduced]
    have hslash := hrooted.resolve_right fun h => hreduced h.2
    rw [hslash, List.append_left_inj, eq_comm, iterate_removeLast_eq_self_iff]
    exact (and_iff_right hscheme).symm

variable {ctx : UrlCtx} {ref : Bytes}

theorem path_of_text {scheme authority : Option Bytes}
    {query fragment : Option Bytes} (hscheme : ∀ x ∈ scheme, Uri.IsScheme x)
    (hauth : ∀ a ∈ authority, ∀ ch ∈ a, Uri.isAuthorityChar ch = true)
    (hroot : path = [] ∨ path.head? = some slash) (hpath : ∀ ch ∈ path, Uri.isPathChar ch = true)
    (hquery : ∀ text ∈ query, Uri.hash ∉ text) :
    (Uri.split (Uri.schemeText scheme ++ (Uri.authorityText authority ++ (path ++
      (Uri.queryText query ++ Uri.fragmentText fragment))))).path =
      if authority.isSome then path
      else path.drop (Uri.authorityText (Uri.authorityOf path)).length := by
  cases authority with
  | none =>
    have hnone : Uri.schemeOf path = none := by
      obtain rfl | hhead := hroot
      · rfl
      · exact schemeOf_of_head hhead
    exact congrArg Uri.Pieces.path (Uri.split_of_path hscheme (fun _ => hnone) hpath hquery)
  | some a =>
    exact congrArg Uri.Pieces.path (split_of_text hscheme (hauth a rfl) hroot hpath hquery)

theorem authorityOf_of_not_slashes (h : ¬ [slash, slash] <+: path) :
    Uri.authorityOf path = none := by
  exact if_neg h

variable {reduced : Bytes}

theorem not_slashes_writtenPath
    (hroot : path = [] ∨ path.head? = some slash) (hpath : ¬ [slash, slash] <+: path)
    (hread : ¬ Misread reduced) : ¬ [slash, slash] <+: writtenPath path reduced := by
  unfold writtenPath
  by_cases htwo : reduced = [slash, slash]
  · rw [if_pos htwo, mergedPath, if_pos rfl]
    exact hpath
  rw [if_neg htwo]
  by_cases hnil : reduced = []
  · rw [mergedPath, if_pos hnil]
    exact hpath
  by_cases hhead : reduced.head? = some slash
  · rw [mergedPath, if_neg hnil, if_pos hhead]
    exact fun hfront => hread (.inr ⟨hfront, htwo⟩)
  · rw [mergedPath_eq hroot hnil hhead]
    intro hfront
    by_cases hfolder : removeLast slash path = []
    · rw [hfolder, List.nil_append, List.cons_prefix_cons] at hfront
      obtain ⟨more, rfl⟩ := hfront.2
      exact hhead rfl
    · have hpathHead : path.head? = some slash := by
        refine hroot.resolve_left ?_
        rintro rfl
        exact hfolder rfl
      have hfull : removeLast slash path ++ [slash] <+: path :=
        upToSlash_eq hpathHead ▸ List.rdropWhile_prefix _ path
      have hlong : removeLast slash path ++ [slash] <+:
          removeLast slash path ++ slash :: reduced := by
        rw [List.prefix_append_right_inj]
        exact ⟨reduced, rfl⟩
      refine hpath (List.IsPrefix.trans ?_ hfull)
      apply List.prefix_of_prefix_length_le hfront hlong
      have hpos := List.length_pos_iff.mpr hfolder
      simp only [List.length_append, List.length_cons, List.length_nil]
      omega

theorem path_of_written {path : Bytes} {query fragment : Option Bytes} {pieces : Uri.Pieces}
    (hproper : pieces.Proper) (hroot : pieces.path = [] ∨ pieces.path.head? = some slash)
    (hpath : ∀ ch ∈ path, Uri.isPathChar ch = true) (hquery : ∀ text ∈ query, Uri.hash ∉ text) :
    let merged := mergedPath pieces.path path
    let out := Uri.split (Uri.schemeText pieces.scheme ++ (Uri.authorityText pieces.authority ++
      (merged ++ (Uri.queryText query ++ Uri.fragmentText fragment))))
    out.path.length ≤ merged.length ∧
      ((pieces.authority = none → ¬ [slash, slash] <+: merged) → out.path = merged) := by
  dsimp only
  rw [path_of_text hproper.scheme (fun a ha => (hproper.authority a ha).1) (mergedPath_root hroot)
    (isPathChar_mergedPath hproper.path hpath) hquery]
  constructor
  · split
    · exact le_rfl
    · exact (List.drop_suffix _ _).length_le
  · intro hslashes
    cases hauth : pieces.authority with
    | none =>
      rw [authorityOf_of_not_slashes (hslashes hauth)]
      rfl
    | some a => rfl

/-- The path of the result: what is left when the reduced path is read as something else is
shorter than it. -/
def PathOf (base reduced path : Bytes) : Prop :=
  (Misread reduced → path.length < reduced.length) ∧
    (¬ Misread reduced → path = writtenPath base reduced)

theorem ne_nil_of_misread (h : Misread reduced) : reduced ≠ [] := by
  rintro rfl
  obtain hscheme | ⟨hfront, -⟩ := h
  · exact hscheme rfl
  · exact absurd (List.prefix_nil.mp hfront) (List.cons_ne_nil _ _)

theorem baseAuthority_eq {pieces : Uri.Pieces} (hstable : Stable ctx pieces) :
    (if authorityBytes pieces ≠ [] then [slash, slash] ++ authorityBytes pieces else []) =
      Uri.authorityText pieces.authority := by
  cases ha : pieces.authority with
  | none =>
    rw [authorityBytes_of_none ha]
    rfl
  | some a =>
    rw [authorityBytes_of_some ha, if_pos (hstable.authority a ha).1]
    rfl

theorem unread_cases (hchars : ∀ ch ∈ path, Uri.isPathChar ch = true)
    (hx : Uri.schemeOf path = none) (hauth : ∀ a ∈ authorityIn path, a = []) :
    let rest := path.drop (Uri.authorityText (authorityIn path)).length
    ([slash, slash] <+: path ∧ path ≠ [slash, slash] →
      rest ≠ [] ∧ rest.head? = some slash ∧ rest.length < path.length) ∧
    (¬ Misread path → rest = if path = [slash, slash] then [] else path) := by
  have hin : authorityIn path = Uri.authorityOf path := by
    rw [authorityIn, hx]
    rfl
  rw [hin] at hauth ⊢
  have hempty : ∀ rest, path = slash :: slash :: rest →
      path.drop (Uri.authorityText (Uri.authorityOf path)).length = rest ∧
        rest.takeWhile Uri.isAuthorityChar = [] := by
    rintro rest rfl
    have hsome : Uri.authorityOf (slash :: slash :: rest) =
        some (rest.takeWhile Uri.isAuthorityChar) := if_pos ⟨rest, rfl⟩
    have hnil := hauth _ hsome
    rw [hsome, hnil]
    exact ⟨rfl, rfl⟩
  constructor
  · rintro ⟨⟨rest, rfl⟩, hne⟩
    obtain ⟨hdrop, hstop⟩ := hempty rest rfl
    have hroot := Uri.path_of_takeWhile hstop
    rw [List.takeWhile_eq_self_iff.mpr fun ch hch => hchars ch (List.mem_append_right _ hch)]
      at hroot
    have hrestNe : rest ≠ [] := by
      rintro rfl
      exact hne rfl
    rw [hdrop]
    refine ⟨hrestNe, hroot.resolve_left hrestNe, ?_⟩
    simp only [List.length_append, List.length_cons]
    omega
  · intro hread
    split
    · rename_i htwo
      exact (hempty [] htwo).1
    · rename_i htwo
      rw [authorityOf_of_not_slashes fun hfront => hread (.inr ⟨hfront, htwo⟩)]
      rfl

theorem resolve_path (hnumeric : NumericTexts ctx) (hbase : urlNormalize ctx base = .ok base)
    (hroot : (Uri.split base).path = [] ∨ (Uri.split base).path.head? = some slash)
    (hscheme : (Uri.split ref).scheme = none) (hauth : (Uri.split ref).authority = none) :
    ∃ out, urlResolve ctx base ref = .ok out ∧
      PathOf (Uri.split base).path (reducePath (firstLine (Uri.split ref).path))
        (Uri.split out).path := by
  obtain ⟨hline, hstable⟩ := (urlNormalize_eq_self_iff hnumeric).mp hbase
  obtain ⟨out, hout, hresolved⟩ :=
    @urlResolve_cases ctx base ref hscheme (authorityBytes_of_none hauth)
  refine ⟨out, hout, ?_⟩
  have hchars := (encodedPath_reducePath (firstLine (Uri.split ref).path)).isPathChar
  rw [piecesOf_of_not_mem hline] at hresolved
  have hbaseProper := Uri.proper_split base
  generalize reducePath (firstLine (Uri.split ref).path) = path at hchars hresolved ⊢
  have hmisread : ∀ a, authorityIn path = some a → a ≠ [] → Misread path := by
    intro a ha hne
    by_cases hx : Uri.schemeOf path = none
    · right
      rw [authorityIn, hx, Uri.schemeText, List.length_nil, List.drop_zero] at ha
      by_contra hslashes
      by_cases hfront : [slash, slash] <+: path
      · obtain rfl : path = [slash, slash] := by
          by_contra htwo
          exact hslashes ⟨hfront, htwo⟩
        exact hne (Option.some.inj ha).symm
      · rw [authorityOf_of_not_slashes hfront] at ha
        cases ha
    · exact .inl hx
  cases hresolved with
  | unread hread =>
    obtain ⟨parts, -, -, hparts, -⟩ := urlNormalize_cases hbase
    have hparse := urlParse_eq base
    rw [piecesOf_of_not_mem hline, hread, hparts] at hparse
    cases hparse
  | @refused a ha hread =>
    have hfalse : Misread path := by
      refine hmisread a ha ?_
      rintro rfl
      cases hread
    exact ⟨fun _ => List.length_pos_iff.mpr (ne_nil_of_misread hfalse), fun h => absurd hfalse h⟩
  | misread hother _ _ hpath =>
    refine ⟨fun _ => hpath, fun h => absurd ?_ h⟩
    obtain hx | ⟨a, ha, hne⟩ := hother
    · exact .inl hx
    · exact hmisread a ha hne
  | merged _ hx hnone hquery =>
    rw [baseAuthority_eq hstable]
    obtain ⟨hle, heq⟩ := @path_of_written _ _ _ _ hbaseProper hroot
      (fun ch (hch : ch ∈ path.drop (Uri.authorityText (authorityIn path)).length) =>
        hchars ch (List.mem_of_mem_drop hch)) hquery
    have hcases := unread_cases hchars hx hnone
    refine ⟨fun hread => hle.trans_lt ?_, fun hread => ?_⟩
    · obtain ⟨hne, hhead, hlt⟩ := hcases.1 (hread.resolve_left (not_not.mpr hx))
      rwa [mergedPath, if_neg hne, if_pos hhead]
    · rw [hcases.2 hread] at heq ⊢
      exact heq fun hbare => not_slashes_writtenPath hroot (hbaseProper.noAuthority hbare) hread

theorem not_resolves_of_misread
    (hread : Misread (removeDotSegments slash dot reduced)) : ¬ Resolves path reduced := by
  unfold Resolves
  have hne := ne_nil_of_misread hread
  have htwo : removeDotSegments slash dot reduced ≠ [slash, slash] := by
    intro htwo
    rw [htwo] at hread
    obtain hscheme | ⟨-, hother⟩ := hread
    · exact hscheme rfl
    · exact hother rfl
  have hslashes : (removeDotSegments slash dot reduced).head? = some slash →
      [slash, slash] <+: removeDotSegments slash dot reduced := fun hhead =>
    (hread.resolve_left (not_not.mpr (schemeOf_of_head hhead))).1
  split
  · rename_i hhead
    rintro (hnot | ⟨heq, -⟩)
    · exact hnot (hslashes (head?_removeDotSegments hhead slash_ne_dot))
    · exact htwo heq
  · rw [if_neg (not_or.mpr ⟨hne, htwo⟩)]
    split
    · rename_i hhead
      exact fun h => h.1 (hslashes hhead)
    · rename_i hhead
      rintro ⟨hnone, -⟩
      obtain hscheme | ⟨hfront, -⟩ := hread
      · exact hscheme hnone
      · obtain ⟨rest, hrest⟩ := hfront
        rw [← hrest] at hhead
        exact hhead rfl

theorem first_line_resolved_iff (hnumeric : NumericTexts ctx)
    (hbase : urlNormalize ctx base = .ok base)
    (hroot : (Uri.split base).path = [] ∨ (Uri.split base).path.head? = some slash)
    (hscheme : (Uri.split ref).scheme = none) (hauth : (Uri.split ref).authority = none) :
    ∃ out, urlResolve ctx base ref = .ok out ∧
      ((Uri.split out).path =
          targetPath (Uri.split base).path (encodePath (firstLine (Uri.split ref).path)) ↔
        Resolves (Uri.split base).path (encodePath (firstLine (Uri.split ref).path))) := by
  have hfree := ((urlNormalize_eq_self_iff hnumeric).mp hbase).2.dotFree
  obtain ⟨out, hout, hshorter, hwritten⟩ := resolve_path hnumeric hbase hroot hscheme hauth
  refine ⟨out, hout, ?_⟩
  unfold reducePath at hshorter hwritten
  generalize firstLine (Uri.split ref).path = path at hshorter hwritten ⊢
  by_cases hread : Misread (removeDotSegments slash dot (encodePath path))
  · refine iff_of_false (fun heq => ?_) (not_resolves_of_misread hread)
    have hlt := hshorter hread
    have hle := @length_reduced_le _ (encodePath path) hroot hfree
    rw [← heq] at hle
    omega
  · rw [hwritten hread]
    exact writtenPath_eq_iff hroot hfree hread

/-- The path of the result is the merged path without its dot segments if and only if the
reference meets the condition, up to a newline in its path, and nothing behind the newline
makes a difference. -/
theorem path_resolved_iff (hnumeric : NumericTexts ctx) (hbase : urlNormalize ctx base = .ok base)
    (hroot : (Uri.split base).path = [] ∨ (Uri.split base).path.head? = some slash)
    (hscheme : (Uri.split ref).scheme = none) (hauth : (Uri.split ref).authority = none) :
    let target := fun path => targetPath (Uri.split base).path (encodePath path)
    let resolves := fun path => Resolves (Uri.split base).path (encodePath path)
    let path := (Uri.split ref).path
    ∃ out, urlResolve ctx base ref = .ok out ∧
      (resolves (firstLine path) ∧ target path = target (firstLine path) →
        (Uri.split out).path = target path) ∧
      (newline ∉ path ∨ resolves (firstLine path) → (Uri.split out).path = target path →
        resolves (firstLine path) ∧ target path = target (firstLine path)) := by
  intro target resolves path
  obtain ⟨out, hout, hfirst⟩ := first_line_resolved_iff hnumeric hbase hroot hscheme hauth
  refine ⟨out, hout, fun h => (hfirst.mpr h.1).trans h.2.symm, ?_⟩
  rintro (hline | hresolves) heq
  · have hsame : firstLine path = path := firstLine_of_not_mem hline
    rw [hsame]
    exact ⟨by rw [← hsame]; exact hfirst.mp (by rw [hsame]; exact heq), rfl⟩
  · exact ⟨hresolves, heq.symm.trans (hfirst.mpr hresolves)⟩

example : urlResolve nameless (ascii "http://h/a/b") (ascii "../c") = .ok (ascii "http://h/a/c") := by
  decide +kernel

theorem path_resolved_iff_climb :
    let target := fun path => targetPath (Uri.split (ascii "http://h/a/b")).path (encodePath path)
    let resolves := fun path => Resolves (Uri.split (ascii "http://h/a/b")).path (encodePath path)
    let path := (Uri.split (ascii "c/../../d\n")).path
    ∃ out, urlResolve nameless (ascii "http://h/a/b") (ascii "c/../../d\n") = .ok out ∧
      (resolves (firstLine path) ∧ target path = target (firstLine path) →
        (Uri.split out).path = target path) ∧
      (newline ∉ path ∨ resolves (firstLine path) → (Uri.split out).path = target path →
        resolves (firstLine path) ∧ target path = target (firstLine path)) :=
  path_resolved_iff nofun (by decide +kernel)
    (by decide +kernel) (by decide +kernel) (by decide +kernel)

/-- A reference that climbs: nothing is left of its dot segments when it is merged. -/
theorem climb_lost : ¬ ∀ (ctx : UrlCtx) (base ref out : Bytes), NumericTexts ctx →
    urlNormalize ctx base = .ok base → (Uri.split base).path.head? = some slash →
    (Uri.split ref).scheme = none → (Uri.split ref).authority = none → (Uri.split ref).path ≠ [] →
    urlResolve ctx base ref = .ok out →
    (Uri.split out).path =
      targetPath (Uri.split base).path (encodePath (Uri.split ref).path) := by
  intro h
  have hsame := h nameless (ascii "http://h/a/b") (ascii "../c") (ascii "http://h/a/c")
    nofun (by decide +kernel) (by decide +kernel)
    (by decide +kernel) (by decide +kernel) (by decide +kernel) (by decide +kernel)
  have hmerged : removeDotSegments slash dot (ascii "/a/../c") = ascii "/c" :=
    removeDotSegments_eq_of_run (w := 2) (s := ascii "/c/../c") (by decide +kernel)
  have htarget : targetPath (Uri.split (ascii "http://h/a/b")).path
      (encodePath (Uri.split (ascii "../c")).path) = ascii "/c" := by
    rw [← hmerged]
    unfold targetPath
    rw [if_neg (by decide +kernel)]
    exact congrArg _ (by decide +kernel)
  rw [htarget] at hsame
  revert hsame
  decide +kernel

end Yans.Net.Url
