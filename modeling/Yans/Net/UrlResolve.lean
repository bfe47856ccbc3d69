import Yans.Net.UrlNormal

/-! The authority of what `url_resolve` makes of a reference without one. -/
namespace Yans.Net.Url

open Library Library.Memory Library.DotSegments Library.Strings

variable {ctx : UrlCtx} {base ref s : Bytes}

/-! What is read of a text with a newline -/

theorem prefix_firstLine {x : Bytes} (h : newline ∉ x) : x <+: firstLine s ↔ x <+: s := by
  constructor
  · exact fun hfront => hfront.trans (List.takeWhile_prefix _)
  · rintro ⟨rest, rfl⟩
    rw [firstLine_append h]
    exact List.prefix_append _ _

theorem schemeOf_firstLine (s : Bytes) : Uri.schemeOf (firstLine s) = Uri.schemeOf s := by
  ext1 x
  rw [Uri.schemeOf_eq_some_iff, Uri.schemeOf_eq_some_iff]
  refine and_congr_right fun hx => prefix_firstLine fun hmem => ?_
  obtain hmem | hmem := List.mem_append.mp hmem
  · exact absurd (hx.all newline hmem) (by decide)
  · exact absurd hmem (by decide)

theorem drop_firstLine {x : Bytes} (h : newline ∉ x) (hfront : x <+: s) :
    (firstLine s).drop x.length = firstLine (s.drop x.length) := by
  obtain ⟨rest, rfl⟩ := hfront
  rw [firstLine_append h, List.drop_left, List.drop_left]

theorem takeWhile_firstLine (p : UInt8 → Bool) (s : Bytes) :
    (firstLine s).takeWhile p = firstLine (s.takeWhile p) := by
  unfold firstLine
  rw [List.takeWhile_takeWhile, List.takeWhile_takeWhile]
  congr 1
  funext ch
  exact decide_eq_decide.mpr and_comm

theorem authorityOf_firstLine (s : Bytes) :
    Uri.authorityOf (firstLine s) = (Uri.authorityOf s).map firstLine := by
  have hclean : newline ∉ [Uri.slash, Uri.slash] := by decide
  unfold Uri.authorityOf
  by_cases hslashes : [Uri.slash, Uri.slash] <+: s
  · rw [if_pos hslashes, if_pos ((prefix_firstLine hclean).mpr hslashes), Option.map_some]
    have hdrop := drop_firstLine hclean hslashes
    change (firstLine s).drop 2 = firstLine (s.drop 2) at hdrop
    rw [hdrop, takeWhile_firstLine]
  · rw [if_neg hslashes, if_neg fun h => hslashes ((prefix_firstLine hclean).mp h)]
    rfl

theorem newline_not_mem_schemeText (s : Bytes) : newline ∉ Uri.schemeText (Uri.schemeOf s) := by
  cases hscheme : Uri.schemeOf s with
  | none => exact List.not_mem_nil
  | some x =>
    have hx := (Uri.schemeOf_eq_some_iff.mp hscheme).1
    intro hmem
    obtain hmem | hmem := List.mem_append.mp hmem
    · exact absurd (hx.all newline hmem) (by decide)
    · exact absurd hmem (by decide)

theorem scheme_piecesOf (s : Bytes) : (piecesOf s).scheme = (Uri.split s).scheme :=
  schemeOf_firstLine s

theorem authority_piecesOf (s : Bytes) :
    (piecesOf s).authority = (Uri.split s).authority.map firstLine := by
  unfold piecesOf Uri.split
  dsimp only
  rw [schemeOf_firstLine, drop_firstLine (newline_not_mem_schemeText s) (Uri.front_schemeText s),
    authorityOf_firstLine]

theorem authorityBytes_piecesOf (h : authorityBytes (Uri.split s) = []) :
    authorityBytes (piecesOf s) = [] := by
  unfold authorityBytes at h ⊢
  rw [authority_piecesOf]
  cases ha : (Uri.split s).authority with
  | none => rfl
  | some a =>
    rw [ha] at h
    obtain rfl : a = [] := h
    rfl

theorem path_piecesOf (h : authorityBytes (Uri.split s) = []) :
    (piecesOf s).path = firstLine (Uri.split s).path := by
  have hauth := authority_piecesOf s
  unfold piecesOf Uri.split Uri.behind at *
  dsimp only [authorityBytes] at *
  rw [schemeOf_firstLine, drop_firstLine (newline_not_mem_schemeText s)
    (Uri.front_schemeText s)] at hauth ⊢
  generalize s.drop (Uri.schemeText (Uri.schemeOf s)).length = rest at h hauth ⊢
  have hfront := Uri.front_authorityText rest
  have hclean : newline ∉ Uri.authorityText (Uri.authorityOf rest) ∧
      (Uri.authorityOf rest).map firstLine = Uri.authorityOf rest := by
    cases ha : Uri.authorityOf rest with
    | none => exact ⟨List.not_mem_nil, rfl⟩
    | some a =>
      rw [ha] at h
      obtain rfl : a = [] := h
      exact ⟨by decide, rfl⟩
  rw [hauth, hclean.2, drop_firstLine hclean.1 hfront, takeWhile_firstLine]

theorem urlNormalize_of_relative (hscheme : (Uri.split s).scheme = none)
    (hauth : authorityBytes (Uri.split s) = []) :
    urlNormalize ctx s = .ok (Uri.Pieces.text ⟨none, none,
      reducePath (firstLine (Uri.split s).path), normalQuery ctx (piecesOf s).query,
      normalFragment ctx (piecesOf s).fragment⟩) ∧
    newline ∉ Uri.Pieces.text ⟨none, none, reducePath (firstLine (Uri.split s).path),
      normalQuery ctx (piecesOf s).query, normalFragment ctx (piecesOf s).fragment⟩ := by
  have hrun : normalPieces ctx (piecesOf s) = some ⟨none, none,
      reducePath (firstLine (Uri.split s).path), normalQuery ctx (piecesOf s).query,
      normalFragment ctx (piecesOf s).fragment⟩ := by
    unfold normalPieces
    rw [scheme_piecesOf, hscheme, authorityBytes_piecesOf hauth, ← normalPath_false,
      path_piecesOf hauth]
    rfl
  refine ⟨urlNormalize_eq_ok_iff.mpr ⟨_, hrun, rfl⟩, fun hmem => ?_⟩
  obtain ⟨a, ha, -⟩ := (newline_mem_normal_iff hrun).mp hmem
  cases ha

variable {path : Bytes}

theorem split_of_path (hpath : ∀ ch ∈ path, Uri.isPathChar ch = true)
    (query fragment : Option Bytes) :
    let rest := path.drop (Uri.schemeText (Uri.schemeOf path)).length
    let pieces := Uri.split (Uri.Pieces.text ⟨none, none, path, query, fragment⟩)
    pieces.scheme = Uri.schemeOf path ∧ pieces.authority = Uri.authorityOf rest ∧
      pieces.path = rest.drop (Uri.authorityText (Uri.authorityOf rest)).length := by
  have htail := Uri.tailStart_tail ⟨none, none, path, query, fragment⟩
  have htext : Uri.Pieces.text ⟨none, none, path, query, fragment⟩ =
      path ++ Uri.Pieces.tail ⟨none, none, path, query, fragment⟩ := rfl
  rw [htext]
  unfold Uri.split Uri.behind
  dsimp only
  rw [Uri.schemeOf_append htail, List.drop_append_of_le_length (Uri.front_schemeText path).length_le]
  generalize hrest : path.drop (Uri.schemeText (Uri.schemeOf path)).length = rest
  have hchars : ∀ ch ∈ rest, Uri.isPathChar ch = true :=
    fun ch hch => hpath ch (List.mem_of_mem_drop (hrest ▸ hch))
  rw [Uri.authorityOf_of_tailStart htail,
    List.drop_append_of_le_length (Uri.front_authorityText rest).length_le,
    Uri.takeWhile_append_stop (fun ch hch => hchars ch (List.mem_of_mem_drop hch)) htail.takeWhile]
  exact ⟨rfl, rfl, rfl⟩

/-! The path and the query of the result -/

def upToSlash (path : Bytes) : Bytes := path.rdropWhile (· ≠ slash)

theorem lastSlash_eq {base rest : Bytes} {off : ℕ} (hdrop : base.drop off = path ++ rest)
    (n : ℕ) : n ≤ path.length →
    (match lastSlash base off n with
      | some pos => slice base off (pos + 1)
      | none => []) = upToSlash (path.take n) := by
  induction n with
  | zero => exact fun _ => rfl
  | succ n ih =>
    intro hn
    have hlt : n < path.length := hn
    have hread : base[off + n]? = some path[n] := by
      rw [← List.getElem?_drop, hdrop, List.getElem?_append_left hlt, List.getElem?_eq_getElem hlt]
    have htake : path.take (n + 1) = path.take n ++ [path[n]] :=
      (List.take_append_getElem hlt).symm
    rw [lastSlash, hread]
    by_cases hslash : path[n] = slash
    · rw [if_pos (congrArg some hslash)]
      dsimp only
      rw [slice, hdrop, List.take_append_of_le_length hn, upToSlash, htake,
        List.rdropWhile_concat_neg _ _ _ (by simpa using hslash)]
    · rw [if_neg fun h => hslash (Option.some.inj h), ih hlt.le, htake, upToSlash, upToSlash,
        List.rdropWhile_concat_pos _ _ _ (by simpa using hslash)]

/-- The path of the result: that of the base, that of the reference or both merged. -/
def mergedPath (base path : Bytes) : Bytes :=
  if path = [] then base
  else if path.head? = some slash then path
  else if base = [] then slash :: path
  else upToSlash base ++ path

theorem head?_upToSlash (h : path.head? = some slash) :
    (upToSlash path).head? = some slash := by
  obtain ⟨rest, hrest⟩ := List.rdropWhile_prefix (· ≠ slash) path
  have hne : upToSlash path ≠ [] := by
    intro hnil
    have hall := List.rdropWhile_eq_nil_iff.mp hnil slash (List.mem_of_mem_head? h)
    simp at hall
  rw [upToSlash] at hne ⊢
  rw [← hrest, List.head?_append_of_ne_nil _ hne] at h
  exact h

section

variable {baseparts refparts : UrlParts} {basePieces refPieces : Uri.Pieces}
  {baseAuth refAuth : Authority}

theorem resolveQuery_eq (h : Shows ref refparts refPieces refAuth) :
    resolveQuery ref refparts = Uri.queryText (refPieces.query.filter (· ≠ [])) := by
  unfold resolveQuery
  rw [h.query.of_eq]
  simp only [h.query.len_pos]
  cases refPieces.query with
  | none => rfl
  | some query =>
    by_cases hquery : query = []
    · subst hquery
      rfl
    · simp [hquery, Option.filter, Uri.queryText]
      rfl

theorem filter_proper {query : Option Bytes} (h : ∀ text ∈ query, Uri.hash ∉ text) :
    ∀ text ∈ query.filter (· ≠ []), Uri.hash ∉ text :=
  fun text hmem => h text (Option.filter_eq_some_iff.mp hmem).1

theorem resolvePath_eq (hbase : Shows base baseparts basePieces baseAuth)
    (href : Shows ref refparts refPieces refAuth) (hbaseProper : basePieces.Proper)
    (hrefProper : refPieces.Proper) :
    ∃ query, resolvePath base baseparts ref refparts =
        mergedPath basePieces.path refPieces.path ++ Uri.queryText query ∧
      ∀ text ∈ query, Uri.hash ∉ text := by
  unfold resolvePath mergedPath
  have hempty : refparts.path.len = 0 ↔ refPieces.path = [] := by
    rw [href.path.1, List.length_eq_zero_iff]
  by_cases hpath : refPieces.path = []
  · rw [if_pos (hempty.mpr hpath), if_pos hpath, hbase.path.of_eq, hbase.query.of_eq,
      href.query.of_eq]
    simp only [hbase.path.len_pos, hbase.query.len_pos, href.query.len_pos]
    have hkeep : (if basePieces.path ≠ [] then basePieces.path else []) = basePieces.path := by
      split
      · rfl
      · rename_i hnil
        exact (not_not.mp hnil).symm
    rw [hkeep]
    by_cases hquery : refPieces.query.getD [] ≠ []
    · rw [if_pos hquery]
      cases hsome : refPieces.query with
      | none =>
        rw [hsome] at hquery
        exact absurd rfl hquery
      | some query =>
        exact ⟨some query, rfl, fun text hmem => hrefProper.query text (hsome.trans hmem)⟩
    · rw [if_neg hquery]
      refine ⟨basePieces.query.filter (· ≠ []), ?_, filter_proper hbaseProper.query⟩
      congr 1
      have hwritten := resolveQuery_eq hbase
      unfold resolveQuery at hwritten
      rw [hbase.query.of_eq] at hwritten
      simpa only [hbase.query.len_pos] using hwritten
  rw [if_neg fun h => hpath (hempty.mp h), if_neg hpath, resolveQuery_eq href, href.path.of_eq]
  have hfirst : ref[refparts.path.off]? = refPieces.path.head? := by
    obtain ⟨-, rest, hdrop⟩ := href.path
    rw [← List.head?_drop, hdrop]
    exact List.head?_append_of_ne_nil _ hpath
  rw [hfirst]
  have hquery := filter_proper hrefProper.query
  by_cases hslash : refPieces.path.head? = some slash
  · rw [if_pos hslash, if_pos hslash]
    exact ⟨_, rfl, hquery⟩
  rw [if_neg hslash, if_neg hslash]
  obtain ⟨hlen, rest, hdrop⟩ := hbase.path
  by_cases hnone : basePieces.path = []
  · rw [if_pos (hlen.trans (List.length_eq_zero_iff.mpr hnone)), if_pos hnone]
    exact ⟨_, rfl, hquery⟩
  · have hcopy := lastSlash_eq hdrop _ le_rfl
    rw [List.take_length] at hcopy
    rw [if_neg fun h => hnone (List.length_eq_zero_iff.mp (hlen.symm.trans h)), if_neg hnone, hlen,
      ← hcopy]
    exact ⟨_, rfl, hquery⟩

theorem mergedPath_root {path' : Bytes} (hroot : path = [] ∨ path.head? = some slash) :
    mergedPath path path' = [] ∨ (mergedPath path path').head? = some slash := by
  unfold mergedPath
  split
  · exact hroot
  · split
    · rename_i hslash
      exact .inr hslash
    · split
      · exact .inr rfl
      · rename_i hne
        right
        rw [List.head?_append, head?_upToSlash (hroot.resolve_left hne)]
        rfl

theorem isPathChar_mergedPath {path' : Bytes} (hpath : ∀ ch ∈ path, Uri.isPathChar ch = true)
    (hpath' : ∀ ch ∈ path', Uri.isPathChar ch = true) :
    ∀ ch ∈ mergedPath path path', Uri.isPathChar ch = true := by
  unfold mergedPath
  split
  · exact hpath
  · split
    · exact hpath'
    · split
      · exact List.forall_mem_cons.mpr ⟨by decide, hpath'⟩
      · intro ch hch
        obtain hch | hch := List.mem_append.mp hch
        · exact hpath ch ((List.rdropWhile_prefix _ _).subset hch)
        · exact hpath' ch hch

theorem baseScheme_eq (h : Shows base baseparts basePieces baseAuth) (hproper : basePieces.Proper) :
    (if baseparts.scheme.len > 0 then baseparts.scheme.of base ++ [colon] else []) =
      Uri.schemeText basePieces.scheme := by
  rw [h.scheme.of_eq]
  simp only [h.scheme.len_pos]
  cases hscheme : basePieces.scheme with
  | none => rfl
  | some x =>
    obtain ⟨c, more, hx, -⟩ := (hproper.scheme x hscheme).first
    rw [Option.getD_some, if_pos (hx ▸ List.cons_ne_nil c more)]
    rfl

theorem fragment_eq (h : Shows ref refparts refPieces refAuth) :
    (if refparts.fragment.len > 0 then hash :: refparts.fragment.of ref else []) =
      Uri.fragmentText (refPieces.fragment.filter (· ≠ [])) := by
  rw [h.fragment.of_eq]
  simp only [h.fragment.len_pos]
  cases refPieces.fragment with
  | none => rfl
  | some fragment =>
    by_cases hfragment : fragment = []
    · subst hfragment
      rfl
    · simp [hfragment, Option.filter, Uri.fragmentText]
      rfl

end

def authorityIn (path : Bytes) : Option Bytes :=
  Uri.authorityOf (path.drop (Uri.schemeText (Uri.schemeOf path)).length)

/-- What becomes of a reference that is reduced to `path`: nothing where an authority cannot be
parsed, what it is read as, or the base's components with both paths merged. -/
inductive Resolved (pieces : Uri.Pieces) (path : Bytes) : Bytes → Prop where
  | unread (hread : parseAuthority (authorityBytes pieces) = none) : Resolved pieces path []
  | refused {a : Bytes} (hauth : authorityIn path = some a) (hread : parseAuthority a = none) :
    Resolved pieces path []
  | misread {t : Bytes} (hne : Uri.schemeOf path ≠ none ∨ ∃ a ∈ authorityIn path, a ≠ [])
    (hread : ∀ a ∈ authorityIn path, parseAuthority a ≠ none)
    (hauth : (Uri.split t).authority = authorityIn path)
    (hpath : (Uri.split t).path.length < path.length) : Resolved pieces path t
  | merged {query fragment : Option Bytes} (hread : parseAuthority (authorityBytes pieces) ≠ none)
    (hscheme : Uri.schemeOf path = none)
    (hauth : ∀ a ∈ authorityIn path, a = []) (hquery : ∀ text ∈ query, Uri.hash ∉ text) :
    Resolved pieces path (Uri.schemeText pieces.scheme ++
      ((if authorityBytes pieces ≠ [] then [slash, slash] ++ authorityBytes pieces else []) ++
        (mergedPath pieces.path (path.drop (Uri.authorityText (authorityIn path)).length) ++
          (Uri.queryText query ++ Uri.fragmentText fragment))))

theorem split_of_text {scheme : Option Bytes} {a : Bytes} {query fragment : Option Bytes}
    (hscheme : ∀ x ∈ scheme, Uri.IsScheme x) (ha : ∀ ch ∈ a, Uri.isAuthorityChar ch = true)
    (hroot : path = [] ∨ path.head? = some slash) (hpath : ∀ ch ∈ path, Uri.isPathChar ch = true)
    (hquery : ∀ text ∈ query, Uri.hash ∉ text) :
    Uri.split (Uri.schemeText scheme ++ ([slash, slash] ++ (a ++ (path ++
      (Uri.queryText query ++ Uri.fragmentText fragment))))) =
        ⟨scheme, some a, path, query, fragment⟩ := by
  have hproper : Uri.Pieces.Proper ⟨scheme, some a, path, query, fragment⟩ :=
    { scheme := hscheme
      noScheme := nofun
      authority := by
        intro b hb
        cases hb
        exact ⟨ha, hroot⟩
      noAuthority := nofun
      path := hpath
      query := hquery }
  exact Uri.split_text hproper

theorem urlResolve_cases (hscheme : (Uri.split ref).scheme = none)
    (hauth : authorityBytes (Uri.split ref) = []) : ∃ out, urlResolve ctx base ref = .ok out ∧
      Resolved (piecesOf base) (reducePath (firstLine (Uri.split ref).path)) out := by
  unfold urlResolve
  obtain ⟨hrun, hclean⟩ := @urlNormalize_of_relative ctx _ hscheme hauth
  rw [hrun]
  have hchars := (encodedPath_reducePath (firstLine (Uri.split ref).path)).isPathChar
  obtain ⟨hschemeOf, hauthorityOf, hpathOf⟩ := split_of_path hchars
    (normalQuery ctx (piecesOf ref).query) (normalFragment ctx (piecesOf ref).fragment)
  generalize Uri.Pieces.text ⟨none, none, reducePath (firstLine (Uri.split ref).path),
    normalQuery ctx (piecesOf ref).query, normalFragment ctx (piecesOf ref).fragment⟩ = t
    at hschemeOf hauthorityOf hpathOf hclean ⊢
  generalize reducePath (firstLine (Uri.split ref).path) = path at *
  change _ = authorityIn path at hauthorityOf
  change _ = (path.drop _).drop (Uri.authorityText (authorityIn path)).length at hpathOf
  have hbaseParse := urlParse_eq base
  have hbaseProper := proper_piecesOf base
  generalize piecesOf base = pieces at hbaseParse hbaseProper ⊢
  cases hparsed : parseAuthority (authorityBytes pieces) with
  | none =>
    rw [hparsed] at hbaseParse
    rw [hbaseParse]
    exact ⟨[], rfl, .unread hparsed⟩
  | some baseAuth =>
    rw [hparsed] at hbaseParse
    obtain ⟨baseparts, hbaseparts, hbaseShows⟩ := hbaseParse
    rw [hbaseparts]
    dsimp only
    have hrefParse := urlParse_eq t
    rw [piecesOf_of_not_mem hclean] at hrefParse
    have hrefProper := Uri.proper_split t
    cases hrefParsed : parseAuthority (authorityBytes (Uri.split t)) with
    | none =>
      -- the authority that the reference seems to have cannot be parsed
      rw [hrefParsed] at hrefParse
      dsimp only at hrefParse
      rw [hrefParse]
      cases ha : (Uri.split t).authority with
      | none =>
        rw [authorityBytes_of_none ha] at hrefParsed
        cases hrefParsed
      | some a =>
        rw [authorityBytes_of_some ha] at hrefParsed
        exact ⟨[], rfl, .refused (hauthorityOf.symm.trans ha) hrefParsed⟩
    | some refAuth =>
      have hread : ∀ a ∈ authorityIn path, parseAuthority a ≠ none := by
        intro a ha
        rw [authorityBytes_of_some (hauthorityOf.trans ha)] at hrefParsed
        rw [hrefParsed]
        exact Option.some_ne_none refAuth
      rw [hrefParsed] at hrefParse
      obtain ⟨refparts, hrefparts, hrefShows⟩ := hrefParse
      rw [hrefparts]
      simp only [hrefShows.scheme.len_pos]
      rw [hschemeOf]
      cases hx : Uri.schemeOf path with
      | some x =>
        -- the reference has a scheme now, and is the result
        obtain ⟨hgrammar, hfront⟩ := Uri.schemeOf_eq_some_iff.mp hx
        obtain ⟨c, more, hxne, -⟩ := hgrammar.first
        rw [Option.getD_some, if_pos (hxne ▸ List.cons_ne_nil c more)]
        refine ⟨t, rfl, .misread (.inl (hx ▸ Option.some_ne_none x)) hread hauthorityOf ?_⟩
        have hle := hfront.length_le
        rw [List.length_append, List.length_singleton] at hle
        rw [hpathOf, hx, Uri.schemeText, List.length_drop, List.length_drop, List.length_append,
          List.length_singleton]
        omega
      | none =>
        rw [hx, Uri.schemeText, List.length_nil, List.drop_zero] at hpathOf
        rw [Option.getD_none, if_neg (not_not.mpr rfl), baseScheme_eq hbaseShows hbaseProper]
        simp only [hrefShows.auth.len_pos]
        by_cases hother : authorityBytes (Uri.split t) = []
        · -- the base's authority goes in front of the path
          rw [if_neg (not_not.mpr hother), hbaseShows.auth.of_eq, fragment_eq hrefShows]
          simp only [hbaseShows.auth.len_pos]
          obtain ⟨query, htext, hquery⟩ :=
            resolvePath_eq hbaseShows hrefShows hbaseProper hrefProper
          rw [htext, hpathOf]
          refine ⟨_, rfl, ?_⟩
          simp only [List.append_assoc]
          refine .merged (hparsed ▸ Option.some_ne_none baseAuth) hx (fun a ha => ?_) hquery
          rw [← authorityBytes_of_some (hauthorityOf.trans ha)]
          exact hother
        · -- the reference has an authority now
          rw [if_pos hother, hrefShows.behind hclean hother]
          cases hb : (Uri.split t).authority with
          | none => exact absurd (authorityBytes_of_none hb) hother
          | some b =>
            obtain ⟨hotherChars, hotherRoot⟩ := hrefProper.authority b hb
            rw [authorityBytes_of_some hb] at hother ⊢
            have hb' := hauthorityOf.symm.trans hb
            refine ⟨_, rfl, .misread (.inr ⟨b, hb', hother⟩) hread ?_ ?_⟩
            all_goals
              rw [Uri.Pieces.tail]
              simp only [List.append_assoc]
              rw [split_of_text hbaseProper.scheme hotherChars hotherRoot hrefProper.path
                hrefProper.query]
            · exact hb'.symm
            · have hfront := Uri.front_authorityText path
              have hin : authorityIn path = Uri.authorityOf path := by
                rw [authorityIn, hx]
                rfl
              rw [← hin, hb'] at hfront
              have hle := hfront.length_le
              rw [hpathOf, hb', List.length_drop]
              simp only [Uri.authorityText, List.length_cons] at hle ⊢
              omega

/-- The encoded path of the reference without its dot segments does not look like a URL of
its own with another authority, and the authority of the base can be read. -/
def KeepsAuthority (authority path : Bytes) : Prop :=
  newline ∉ authority ∧ parseAuthority authority ≠ none ∧
    match Uri.schemeOf path with
    | some x => Uri.authorityOf (path.drop (x.length + 1)) = some authority
    | none => ∀ other, Uri.authorityOf path = some other → other = [] ∨ other = authority

theorem not_keepsAuthority {authority a : Bytes} (h : authorityIn path = some a)
    (hread : parseAuthority a = none) : ¬ KeepsAuthority authority path := by
  rintro ⟨-, hparsed, hkeeps⟩
  unfold authorityIn at h
  cases hx : Uri.schemeOf path with
  | some x =>
    rw [hx, Uri.schemeText, List.length_append, List.length_singleton] at h
    rw [hx] at hkeeps
    obtain rfl := Option.some.inj (hkeeps.symm.trans h)
    exact hparsed hread
  | none =>
    rw [hx, Uri.schemeText, List.length_nil, List.drop_zero] at h
    rw [hx] at hkeeps
    obtain rfl | rfl := hkeeps a h
    · cases hread
    · exact hparsed hread

theorem authority_of_path {a : Bytes} {scheme query fragment : Option Bytes}
    (hscheme : ∀ x ∈ scheme, Uri.IsScheme x) (hroot : path = [] ∨ path.head? = some slash)
    (hpath : ∀ ch ∈ path, Uri.isPathChar ch = true) (hquery : ∀ text ∈ query, Uri.hash ∉ text)
    (h : (Uri.split (Uri.schemeText scheme ++ (path ++
      (Uri.queryText query ++ Uri.fragmentText fragment)))).authority = some a) :
    ∀ ch ∈ a, ch ∈ path := by
  have hnone : Uri.schemeOf path = none := by
    obtain rfl | hhead := hroot
    · rfl
    · obtain ⟨rest, rfl⟩ := List.head?_eq_some_iff.mp hhead
      exact Uri.schemeOf_slash rest
  rw [Uri.split_of_path hscheme (fun _ => hnone) hpath hquery] at h
  obtain ⟨rest, hrest⟩ := Uri.front_authorityText path
  have ha : Uri.authorityOf path = some a := h
  rw [ha] at hrest
  intro ch hch
  rw [← hrest]
  simp [Uri.authorityText, hch]

theorem newline_not_mem_authorityIn (h : newline ∉ path) :
    ∀ a ∈ authorityIn path, newline ∉ a := by
  intro a ha hmem
  obtain ⟨rest, hrest⟩ :=
    Uri.front_authorityText (path.drop (Uri.schemeText (Uri.schemeOf path)).length)
  have ha : Uri.authorityOf (path.drop (Uri.schemeText (Uri.schemeOf path)).length) = some a := ha
  rw [ha] at hrest
  have hdrop : newline ∈ path.drop (Uri.schemeText (Uri.schemeOf path)).length := by
    rw [← hrest]
    simp [Uri.authorityText, hmem]
  exact h (List.mem_of_mem_drop hdrop)

theorem newline_not_mem_mergedPath {path' : Bytes} (h : newline ∉ path) (h' : newline ∉ path') :
    newline ∉ mergedPath path path' := by
  unfold mergedPath
  split
  · exact h
  · split
    · exact h'
    · split
      · exact List.not_mem_cons_of_ne_of_not_mem (by decide) h'
      · intro hmem
        obtain hmem | hmem := List.mem_append.mp hmem
        · exact h ((List.rdropWhile_prefix _ _).subset hmem)
        · exact h' hmem

theorem authority_kept_iff {a : Bytes} (hbase : (Uri.split base).authority = some a) (hne : a ≠ [])
    (hscheme : (Uri.split ref).scheme = none) (hauth : authorityBytes (Uri.split ref) = []) :
    ∃ out, urlResolve ctx base ref = .ok out ∧
      ((Uri.split out).authority = some a ↔
        KeepsAuthority a (reducePath (firstLine (Uri.split ref).path))) := by
  obtain ⟨out, hout, hresolved⟩ := @urlResolve_cases ctx base ref hscheme hauth
  refine ⟨out, hout, ?_⟩
  have hencoded := encodedPath_reducePath (firstLine (Uri.split ref).path)
  generalize reducePath (firstLine (Uri.split ref).path) = path at hresolved hencoded ⊢
  have hclean := newline_not_mem_encoded rfl hencoded
  have hread : (piecesOf base).authority = some (firstLine a) := by
    rw [authority_piecesOf, hbase]
    rfl
  have hbytes := authorityBytes_of_some hread
  have hproper := proper_piecesOf base
  have hbaseClean := newline_not_mem_pieces base
  generalize piecesOf base = pieces at *
  obtain ⟨hchars, hroot⟩ := hproper.authority _ hread
  have hin : Uri.schemeOf path = none → authorityIn path = Uri.authorityOf path := by
    intro hx
    rw [authorityIn, hx]
    rfl
  cases hresolved with
  | unread hread =>
    refine iff_of_false nofun fun h => h.2.1 ?_
    rwa [hbytes, firstLine_of_not_mem h.1] at hread
  | refused hauth hread => exact iff_of_false nofun (not_keepsAuthority hauth hread)
  | misread hother hread hauth =>
    rw [hauth]
    constructor
    · intro ha
      refine ⟨newline_not_mem_authorityIn hclean a ha, hread a ha, ?_⟩
      cases hx : Uri.schemeOf path with
      | some x =>
        rwa [authorityIn, hx, Uri.schemeText, List.length_append, List.length_singleton] at ha
      | none =>
        intro b hb
        rw [hin hx, hb] at ha
        exact .inr (Option.some.inj ha)
    · rintro ⟨-, -, hkeeps⟩
      cases hx : Uri.schemeOf path with
      | some x =>
        rw [hx] at hkeeps
        rwa [authorityIn, hx, Uri.schemeText, List.length_append, List.length_singleton]
      | none =>
        rw [hx] at hkeeps
        obtain ⟨b, hb, hbne⟩ := hother.resolve_left (not_not.mpr hx)
        rw [hin hx] at hb ⊢
        rw [Option.mem_def.mp hb, (hkeeps b hb).resolve_left hbne]
  | merged hread hx hauth hquery =>
    have hmerged := isPathChar_mergedPath hproper.path
      fun ch (hch : ch ∈ path.drop (Uri.authorityText (authorityIn path)).length) =>
        hencoded.isPathChar ch (List.mem_of_mem_drop hch)
    rw [hbytes]
    by_cases hempty : firstLine a = []
    · -- the base's authority starts with a newline, and none is written
      rw [if_neg (not_not.mpr hempty), List.nil_append]
      have hline : newline ∈ a := by
        by_contra hline
        exact hne (firstLine_of_not_mem hline ▸ hempty)
      refine iff_of_false (fun ha => ?_) fun h => h.1 hline
      refine newline_not_mem_mergedPath (fun hmem => ?_) (fun hmem => ?_)
        (authority_of_path hproper.scheme (mergedPath_root hroot) hmerged hquery ha newline hline)
      · exact hbaseClean (by simp [Uri.Pieces.text, Uri.Pieces.relative, hmem])
      · exact hclean (List.mem_of_mem_drop hmem)
    · rw [if_pos hempty]
      simp only [List.append_assoc]
      rw [split_of_text hproper.scheme hchars (mergedPath_root hroot) hmerged hquery]
      constructor
      · intro heq
        have hline : newline ∉ a := Option.some.inj heq ▸ newline_not_mem_firstLine a
        rw [hbytes, firstLine_of_not_mem hline] at hread
        refine ⟨hline, hread, ?_⟩
        rw [hx]
        exact fun b hb => .inl (hauth b ((hin hx).trans hb))
      · exact fun h => congrArg some (firstLine_of_not_mem h.1)

example : urlResolve nameless (ascii "http://h/x") (ascii "/.//evil") = .ok (ascii "http://evil") := by
  decide +kernel

theorem authority_kept_iff_dots : ∃ out,
    urlResolve nameless (ascii "http://h/x") (ascii "/.//evil") = .ok out ∧
      ((Uri.split out).authority = some (ascii "h") ↔
        KeepsAuthority (ascii "h") (reducePath (firstLine (Uri.split (ascii "/.//evil")).path))) :=
  authority_kept_iff (by decide +kernel) (by decide +kernel) (by decide +kernel) (by decide +kernel)

/-- The dot segment goes and what is behind it is an authority. -/
theorem authority_replaced : ¬ ∀ (ctx : UrlCtx) (base ref a out : Bytes),
    (Uri.split base).authority = some a → a ≠ [] → (Uri.split ref).scheme = none →
    (Uri.split ref).authority = none → urlResolve ctx base ref = .ok out →
    (Uri.split out).authority = some a := by
  intro h
  have hsame := h nameless (ascii "http://h/x") (ascii "/.//evil") (ascii "h")
    (ascii "http://evil") (by decide +kernel) (by decide +kernel) (by decide +kernel)
    (by decide +kernel) (by decide +kernel)
  revert hsame
  decide +kernel

end Yans.Net.Url
