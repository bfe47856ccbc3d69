import Yans.Net.UrlPieces

/-! When `url_normalize` leaves its own output alone. -/
namespace Yans.Net.Url

open Library Library.Memory Library.DotSegments Library.Strings

/-- A host that is written as it is read: the text of a numeric address or plain ASCII. -/
def HostNormal (ctx : UrlCtx) (host : Bytes) : Prop :=
  host ≠ [] → host.length < urlMaxhostlen ∧
    match Ip.ipAddr ctx.getaddrinfo host with
    | some addr => ctx.ipAddrStr addr = some host
    | none => ∀ ch ∈ host, 0x1f ≤ ch ∧ ch ≤ 0x7f

/-- A host that stays, with a port or without the mark of one. -/
def HostKept (ctx : UrlCtx) (s : Bytes) : Prop :=
  ∃ host port, hostAndPort s = some (host, port) ∧ HostNormal ctx host ∧
    s = host ++ Authority.back ⟨[], host, port⟩

/-- What stands behind a user information stays. Without one a mark in it makes the front the
user information, which must not be empty. -/
def AuthorityKept (ctx : UrlCtx) (userinfo s : Bytes) : Prop :=
  if userinfo = [] ∧ commercialAt ∈ s then
    before commercialAt s ≠ [] ∧ HostKept ctx (after commercialAt s)
  else HostKept ctx s

structure Stable (ctx : UrlCtx) (pieces : Uri.Pieces) : Prop where
  scheme : ∀ x ∈ pieces.scheme, urlSupportedScheme x = true
  authority : ∀ a ∈ pieces.authority, a ≠ [] ∧ AuthorityKept ctx [] a ∧ pieces.path ≠ []
  encoded : EncodedPath pieces.path
  dotFree : DotFree slash dot pieces.path
  query : ∀ query ∈ pieces.query, PercentEncoding.Encoded isQuerychar query
  noQuery : ctx.opts.removeEmptyQuery = true → pieces.query ≠ some []
  noFragment : ctx.opts.removeEmptyFragment = true → pieces.fragment ≠ some []

variable {ctx : UrlCtx}

def encodedHost (host : Bytes) : Bytes :=
  (((Punycode.punycodeEncode host).getD []).takeWhile (· ≠ 0)).take (urlMaxhostlen - 1)

theorem isAscii_encodedHost (host : Bytes) : Punycode.IsAscii (encodedHost host) := by
  intro ch hch
  have hmem := (List.takeWhile_prefix _).subset (List.mem_of_mem_take hch)
  cases hencoded : Punycode.punycodeEncode host with
  | none =>
    rw [hencoded] at hmem
    cases hmem
  | some oname =>
    rw [hencoded] at hmem
    exact Punycode.isAscii_punycodeEncode hencoded ch hmem

variable {host name port : Bytes}

theorem normalHost_cases (h : normalHost ctx host = some name) :
    host = [] ∧ name = [] ∨
      (∃ addr, Ip.ipAddr ctx.getaddrinfo host = some addr ∧ ctx.ipAddrStr addr = some name) ∨
      Ip.ipAddr ctx.getaddrinfo host = none ∧
        (name = host ∧ HostNormal ctx host ∧ (∀ ch ∈ host, ch ≤ 0x7f) ∨
          (∃ ch ∈ host, 0x7f < ch) ∧ name = encodedHost host) := by
  unfold normalHost at h
  split at h
  · rename_i hempty
    exact .inl ⟨hempty, (Option.some.inj h).symm⟩
  · right
    unfold normalizeHost at h
    split at h
    · cases h
    rename_i hshort
    split at h
    · rename_i addr haddr
      split at h
      · cases h
      · rename_i text htext
        cases h
        exact .inl ⟨addr, haddr, htext⟩
    · rename_i haddr
      refine .inr ⟨haddr, ?_⟩
      split at h
      · rename_i hfind
        cases h
        have hplain : ∀ ch ∈ host, 0x1f ≤ ch ∧ ch ≤ 0x7f := by
          simpa using hfind
        refine .inl ⟨rfl, fun _ => ⟨not_le.mp hshort, ?_⟩, fun ch hch => (hplain ch hch).2⟩
        rw [haddr]
        exact hplain
      · rename_i ch hfind
        have hmem := List.mem_of_find?_eq_some hfind
        have hbyte := List.find?_some hfind
        split at h
        · cases h
        · rename_i hless
          rw [Bool.or_eq_true, decide_eq_true_eq, decide_eq_true_eq] at hbyte
          split at h
          · cases h
          · rename_i oname hencoded
            cases h
            refine .inr ⟨⟨ch, hmem, hbyte.resolve_left hless⟩, ?_⟩
            rw [encodedHost, hencoded]
            rfl

theorem normalHost_of_hostNormal (h : HostNormal ctx host) : normalHost ctx host = some host := by
  unfold normalHost normalizeHost
  by_cases hempty : host = []
  · rw [if_pos hempty, hempty]
  obtain ⟨hshort, hkept⟩ := h hempty
  rw [if_neg hempty, if_neg (not_le.mpr hshort)]
  cases haddr : Ip.ipAddr ctx.getaddrinfo host with
  | some addr =>
    rw [haddr] at hkept
    dsimp only at hkept ⊢
    rw [hkept]
    rfl
  | none =>
    rw [haddr] at hkept
    have hfind : host.find? (fun ch => ch < 0x1f || ch > 0x7f) = none := by
      simpa using hkept
    dsimp only
    rw [hfind]
    rfl

/-- What is read as a host. -/
def IsHost (host : Bytes) : Prop :=
  colon ∉ host ∧ host.head? ≠ some openBracket ∨
    host.head? = some openBracket ∧ ∃ inner, host = inner ++ [closeBracket] ∧ closeBracket ∉ inner

/-- A numeric address without a colon is one of IPv4, and brackets are in none. -/
def NumericTexts (ctx : UrlCtx) : Prop :=
  ∀ host addr text, IsHost host → Ip.ipAddr ctx.getaddrinfo host = some addr →
    ctx.ipAddrStr addr = some text →
    text ≠ [] ∧ text.length < urlMaxhostlen ∧ ∀ ch ∈ text, ch = 46 ∨ 48 ≤ ch ∧ ch ≤ 57

def Consistent (ctx : UrlCtx) : Prop :=
  ∀ addr text, ctx.ipAddrStr addr = some text → Ip.ipAddr ctx.getaddrinfo text = some addr

variable {s : Bytes}

theorem hostAndPort_cut (h : hostAndPort s = some (host, port)) :
    IsHost host ∧ ∃ rest, s = host ++ rest ∧ (∀ ch ∈ port, ch ∈ rest) ∧
      (rest = Authority.back ⟨[], host, port⟩ ∨
        port = [] ∧ (rest = [colon] ∨ openBracket ∈ host)) := by
  unfold hostAndPort at h
  split at h
  · rename_i hopen
    split at h
    · rename_i hclose
      cases h
      have hsplit := before_after hclose
      have hfree := not_mem_before closeBracket s
      generalize before closeBracket s = inner at hsplit hfree ⊢
      generalize after closeBracket s = back at hsplit ⊢
      subst hsplit
      have hhead : (inner ++ [closeBracket]).head? = some openBracket := by
        rw [← hopen]
        cases inner <;> rfl
      refine ⟨.inr ⟨hhead, inner, rfl, hfree⟩, back, by simp, fun ch hch => ?_, ?_⟩
      · split at hch
        · exact List.mem_of_mem_tail hch
        · cases hch
      · split
        · rename_i hcolon
          obtain ⟨port, rfl⟩ := List.head?_eq_some_iff.mp hcolon
          cases port with
          | nil => exact .inr ⟨rfl, .inl rfl⟩
          | cons ch port => exact .inl rfl
        · exact .inr ⟨rfl, .inr (List.mem_of_mem_head? hhead)⟩
    · cases h
  · rename_i hopen
    cases h
    have hhost : IsHost (before colon s) := by
      refine .inl ⟨not_mem_before colon s, fun hhead => hopen ?_⟩
      obtain ⟨rest, hrest⟩ := List.takeWhile_prefix (l := s) (· ≠ colon)
      rw [← hrest, List.head?_append_of_ne_nil _ fun hnil => ?_]
      · exact hhead
      · rw [before, hnil] at hhead
        cases hhead
    refine ⟨hhost, ?_⟩
    by_cases hcolon : colon ∈ s
    · refine ⟨colon :: after colon s, before_after hcolon, fun ch => List.mem_cons_of_mem colon, ?_⟩
      cases after colon s with
      | nil => exact .inr ⟨rfl, .inl rfl⟩
      | cons ch rest => exact .inl rfl
    · rw [before_of_not_mem hcolon, after_of_not_mem hcolon]
      exact ⟨[], (List.append_nil s).symm, fun ch hch => hch, .inl rfl⟩

theorem hostAndPort_append (h : IsHost host) :
    hostAndPort (host ++ Authority.back ⟨[], host, port⟩) = some (host, port) := by
  unfold hostAndPort Authority.back
  obtain ⟨hcolon, hopen⟩ | ⟨hopen, inner, rfl, hfree⟩ := h
  · by_cases hport : port = []
    · rw [if_pos hport, List.append_nil, if_neg hopen, before_of_not_mem hcolon,
        after_of_not_mem hcolon, hport]
    · rw [if_neg hport, before_append hcolon, after_append hcolon, if_neg]
      cases host with
      | nil => exact fun hhead => absurd (Option.some.inj hhead) (by decide)
      | cons ch host => exact hopen
  · have hne : inner ++ [closeBracket] ≠ [] := List.append_ne_nil_of_right_ne_nil _ nofun
    rw [List.head?_append_of_ne_nil _ hne, if_pos hopen, if_pos (by simp), List.append_assoc,
      List.singleton_append, before_append hfree, after_append hfree]
    by_cases hport : port = []
    · rw [if_pos hport, hport]
      rfl
    · rw [if_neg hport]
      rfl

variable {ch : UInt8}

theorem digit_ne (h : ch = 46 ∨ 48 ≤ ch ∧ ch ≤ 57) :
    ch ≠ colon ∧ ch ≠ commercialAt ∧ ch ≠ openBracket := by
  obtain rfl | ⟨-, h⟩ := h
  · decide
  · refine ⟨?_, ?_, ?_⟩
    all_goals
      rintro rfl
      revert h
      decide

theorem host_of_text_eq (hnumeric : NumericTexts ctx) {start : Bytes}
    (hparsed : hostAndPort s = some (host, port)) (hname : normalHost ctx host = some name)
    (hstart : start = [] ∨ start = [commercialAt])
    (htext : name ++ Authority.back ⟨[], host, port⟩ = start ++ s) :
    start = [] ∧ name = host ∧ HostNormal ctx host := by
  obtain ⟨hhost, rest, rfl, -, hrest⟩ := hostAndPort_cut hparsed
  obtain ⟨more, hcut, hmore⟩ : ∃ more, name = start ++ host ++ more ∧
      (more = [] ∨ more = [colon] ∨ openBracket ∈ host) := by
    obtain rfl | ⟨rfl, hmarks⟩ := hrest
    · refine ⟨[], ?_, .inl rfl⟩
      rw [List.append_nil]
      exact List.append_cancel_right (htext.trans (List.append_assoc ..).symm)
    · refine ⟨rest, ?_, .inr hmarks⟩
      rw [List.append_assoc, ← htext]
      exact (List.append_nil name).symm
  have hin : ∀ ch ∈ host, ch ∈ name := fun ch hch => by simp [hcut, hch]
  obtain ⟨rfl, rfl⟩ | ⟨addr, haddr, hstr⟩ | ⟨-, ⟨rfl, hnormal, -⟩ | ⟨⟨ch, hch, hlarge⟩, rfl⟩⟩ :=
    normalHost_cases hname
  · have hnil := List.append_eq_nil_iff.mp (List.append_eq_nil_iff.mp hcut.symm).1
    exact ⟨hnil.1, rfl, fun h => absurd rfl h⟩
  · obtain ⟨-, hshort, hdigits⟩ := hnumeric host addr name hhost haddr hstr
    obtain rfl : start = [] := by
      refine hstart.resolve_right ?_
      rintro rfl
      exact (digit_ne (hdigits commercialAt (hcut ▸ List.mem_cons_self))).2.1 rfl
    obtain rfl : more = [] := by
      obtain hnil | rfl | hopen := hmore
      · exact hnil
      · exact absurd rfl (digit_ne (hdigits colon (by simp [hcut]))).1
      · exact absurd rfl (digit_ne (hdigits openBracket (hin _ hopen))).2.2
    rw [List.nil_append, List.append_nil] at hcut
    subst hcut
    refine ⟨rfl, rfl, fun _ => ⟨hshort, ?_⟩⟩
    rw [haddr]
    exact hstr
  · have hlength := congrArg List.length hcut
    simp only [List.length_append] at hlength
    exact ⟨List.eq_nil_of_length_eq_zero (by omega), rfl, hnormal⟩
  · have hle := isAscii_encodedHost host ch (hin ch hch)
    rw [UInt8.le_iff_toNat_le] at hle
    rw [UInt8.lt_iff_toNat_lt] at hlarge
    omega

theorem normalAuthority_eq_some_iff {t : Bytes} : normalAuthority ctx s = some t ↔
    ∃ auth name, parseAuthority s = some auth ∧ normalHost ctx auth.host = some name ∧
      Authority.text { auth with host := name } = t := by
  unfold normalAuthority
  simp only [Option.bind_eq_bind, Option.bind_eq_some_iff, Option.some.injEq]
  constructor
  · rintro ⟨auth, hparsed, name, hname, htext⟩
    exact ⟨auth, name, hparsed, hname, htext⟩
  · rintro ⟨auth, name, hparsed, hname, htext⟩
    exact ⟨auth, hparsed, name, hname, htext⟩

variable {a : Bytes}

theorem normalAuthority_of_kept (h : AuthorityKept ctx [] a) :
    normalAuthority ctx a = some a := by
  rw [normalAuthority_eq_some_iff]
  unfold AuthorityKept at h
  unfold parseAuthority
  by_cases hat : commercialAt ∈ a
  · rw [if_pos ⟨rfl, hat⟩] at h
    obtain ⟨huser, host, port, hparsed, hnormal, hs⟩ := h
    rw [if_pos hat, hparsed]
    refine ⟨_, host, rfl, normalHost_of_hostNormal hnormal, ?_⟩
    unfold Authority.text Authority.front
    rw [if_neg huser]
    conv_rhs => rw [before_after hat, hs]
    simp only [List.append_assoc, List.singleton_append]
    rfl
  · rw [if_neg fun h => hat h.2] at h
    obtain ⟨host, port, hparsed, hnormal, hs⟩ := h
    rw [if_neg hat, hparsed]
    exact ⟨_, host, rfl, normalHost_of_hostNormal hnormal, hs.symm⟩

theorem kept_of_normalAuthority (hnumeric : NumericTexts ctx)
    (h : normalAuthority ctx a = some a) : AuthorityKept ctx [] a := by
  obtain ⟨auth, name, hparsed, hname, htext⟩ := normalAuthority_eq_some_iff.mp h
  unfold parseAuthority at hparsed
  unfold AuthorityKept
  split at hparsed
  · rename_i hat
    obtain ⟨⟨host, port⟩, hhost, rfl⟩ := Option.map_eq_some_iff.mp hparsed
    rw [if_pos ⟨rfl, hat⟩]
    unfold Authority.text Authority.front at htext
    conv_rhs at htext => rw [before_after hat]
    dsimp only at hname htext
    split at htext
    · rename_i hnone
      rw [hnone] at htext
      exact absurd (host_of_text_eq hnumeric hhost hname (.inr rfl) htext).1
        (List.cons_ne_nil _ _)
    · rename_i huser
      simp only [List.append_assoc, List.singleton_append] at htext
      have hrest := (List.cons.inj (List.append_cancel_left htext)).2
      obtain ⟨-, rfl, hnormal⟩ := host_of_text_eq hnumeric hhost hname (.inl rfl) hrest
      exact ⟨huser, _, _, hhost, hnormal, hrest.symm⟩
  · rename_i hat
    obtain ⟨⟨host, port⟩, hhost, rfl⟩ := Option.map_eq_some_iff.mp hparsed
    rw [if_neg fun h => hat h.2]
    obtain ⟨-, rfl, hnormal⟩ := host_of_text_eq hnumeric hhost hname (.inl rfl) htext
    exact ⟨_, _, hhost, hnormal, htext.symm⟩

/-! Stable components stay. -/

theorem normalAuthority_nil : normalAuthority ctx [] = some [] := rfl

theorem keepEmpty_eq_self_iff {remove : Bool} {text : Option Bytes} :
    keepEmpty remove text = text ↔ (remove = true → text ≠ some []) := by
  unfold keepEmpty
  cases text with
  | none => simp
  | some text =>
    cases remove with
    | false => simp [Option.filter]
    | true =>
      by_cases htext : text = []
      · simp [Option.filter, htext]
      · simp [Option.filter, htext]

theorem map_tolower_of_supported {x : Bytes} (h : urlSupportedScheme x = true) :
    x.map tolower = x := by
  unfold urlSupportedScheme at h
  rw [Bool.or_eq_true, decide_eq_true_eq, decide_eq_true_eq] at h
  obtain rfl | rfl := h
  · rfl
  · rfl

variable {path : Bytes}

theorem reducePath_of_stable (hencoded : EncodedPath path)
    (hfree : DotFree slash dot path) : reducePath path = path := by
  unfold reducePath encodePath
  rw [PercentEncoding.encode_of_encoded hencoded]
  exact removeDotSegments_of_dotFree slash_ne_dot hfree

theorem normalPath_of_stable (hencoded : EncodedPath path)
    (hfree : DotFree slash dot path) (hasAuthority : Bool) (hne : hasAuthority = true → path ≠ []) :
    normalPath hasAuthority path = path := by
  unfold normalPath
  rw [reducePath_of_stable hencoded hfree, encodePath, PercentEncoding.encode_of_encoded hencoded,
    if_neg fun h => hne h.1 h.2, if_neg, List.append_nil]
  rintro ⟨hauth, hlength⟩
  rw [Nat.sub_self] at hlength
  exact hne hauth (List.length_eq_zero_iff.mp hlength.symm)

variable {pieces : Uri.Pieces}

theorem Stable.normalPieces_eq (h : Stable ctx pieces) :
    normalPieces ctx pieces = some pieces := by
  unfold normalPieces
  have hscheme : normalScheme pieces.scheme = some pieces.scheme := by
    cases hx : pieces.scheme with
    | none => rfl
    | some x =>
      have hsupported := h.scheme x hx
      have hlower := map_tolower_of_supported hsupported
      rw [normalScheme, hlower, if_pos hsupported]
  have hquery : normalQuery ctx pieces.query = pieces.query := by
    unfold normalQuery
    rw [keepEmpty_eq_self_iff.mpr h.noQuery]
    cases hq : pieces.query with
    | none => rfl
    | some query =>
      rw [Option.map_some, encodeQuery, PercentEncoding.encode_of_encoded (h.query query hq)]
  have hfragment : normalFragment ctx pieces.fragment = pieces.fragment :=
    keepEmpty_eq_self_iff.mpr h.noFragment
  rw [hscheme, hquery, hfragment]
  cases ha : pieces.authority with
  | none =>
    rw [authorityBytes_of_none ha, normalAuthority_nil]
    have hpath := normalPath_of_stable h.encoded h.dotFree false
      fun hfalse => absurd hfalse Bool.false_ne_true
    cases pieces
    simp_all
  | some a =>
    obtain ⟨hne, hnormal, hpath⟩ := h.authority a ha
    rw [authorityBytes_of_some ha, normalAuthority_of_kept hnormal]
    have hpath := normalPath_of_stable h.encoded h.dotFree true fun _ => hpath
    cases pieces
    simp_all

/-! An output cannot start with a longer authority. -/

variable {auth : Authority}

theorem parseAuthority_cut (h : parseAuthority s = some auth) :
    commercialAt ∉ auth.userinfo ∧ IsHost auth.host ∧ ∃ start rest,
      s = start ++ (auth.host ++ rest) ∧ (start = auth.front ∨ auth.front = []) ∧
      (∀ ch ∈ auth.userinfo, ch ∈ start) ∧ ∀ ch ∈ auth.port, ch ∈ rest := by
  unfold parseAuthority at h
  split at h
  · rename_i hat
    obtain ⟨⟨host, port⟩, hparsed, rfl⟩ := Option.map_eq_some_iff.mp h
    obtain ⟨hhost, rest, hrest, hport, -⟩ := hostAndPort_cut hparsed
    refine ⟨not_mem_before _ _, hhost, before commercialAt s ++ [commercialAt], rest, ?_, ?_, ?_,
      hport⟩
    · rw [← hrest, List.append_assoc, List.singleton_append]
      exact before_after hat
    · unfold Authority.front
      dsimp only
      split
      · exact .inr rfl
      · exact .inl rfl
    · exact fun ch => List.mem_append_left _
  · obtain ⟨⟨host, port⟩, hparsed, rfl⟩ := Option.map_eq_some_iff.mp h
    obtain ⟨hhost, rest, hrest, hport, -⟩ := hostAndPort_cut hparsed
    exact ⟨List.not_mem_nil, hhost, [], rest, hrest, .inr rfl, fun ch hch => hch, hport⟩

def isAuthorityByte (ch : UInt8) : Bool := Uri.isAuthorityChar ch && ch ≠ newline

theorem isAuthorityByte_of_digit (h : ch = 46 ∨ 48 ≤ ch ∧ ch ≤ 57) :
    isAuthorityByte ch = true := by
  simp only [isAuthorityByte, Uri.isAuthorityChar, Bool.and_eq_true, decide_eq_true_eq]
  obtain rfl | ⟨h, h'⟩ := h
  · decide
  · refine ⟨⟨⟨?_, ?_⟩, ?_⟩, ?_⟩
    all_goals
      rintro rfl
      revert h h'
      decide

theorem takeWhile_append_of_not {p : UInt8 → Bool} (h : ¬ ∀ ch ∈ s, p ch = true)
    (t : Bytes) : (s ++ t).takeWhile p = s.takeWhile p := by
  rw [List.takeWhile_append, if_neg]
  intro hlength
  exact h (List.takeWhile_eq_self_iff.mp ((List.takeWhile_prefix p).eq_of_length hlength))

theorem mem_back (h : ch ∈ auth.back) :
    ch = colon ∨ ch ∈ auth.port := by
  unfold Authority.back at h
  split at h
  · cases h
  · exact List.mem_cons.mp h

theorem mem_front (h : ch ∈ auth.front) :
    ch = commercialAt ∨ ch ∈ auth.userinfo := by
  unfold Authority.front at h
  split at h
  · cases h
  · obtain h | h := List.mem_append.mp h
    · exact .inr h
    · exact .inl (List.mem_singleton.mp h)

/-- An authority that a text goes on with after its normalization was not longer before: a
byte that ends it could only come from an encoded host, which is ASCII, while the host that
was encoded is not. -/
theorem normalAuthority_of_text_eq (hnumeric : NumericTexts ctx) {a' rest rest' : Bytes}
    (ha : ∀ ch ∈ a, isAuthorityByte ch = true)
    (hrest : rest.takeWhile isAuthorityByte = []) (hrun : normalAuthority ctx a = some a')
    (htext : a' ++ rest' = a ++ rest) : ∀ ch ∈ a', isAuthorityByte ch = true := by
  by_contra hbad
  have hfront : a'.takeWhile isAuthorityByte = a := by
    rw [← takeWhile_append_of_not hbad rest', htext, Uri.takeWhile_append_stop ha hrest]
  obtain ⟨auth, hparsed, hrun⟩ := Option.bind_eq_some_iff.mp hrun
  obtain ⟨name, hname, hrun⟩ := Option.bind_eq_some_iff.mp hrun
  cases hrun
  obtain ⟨-, hhost, start, back, hcut, hstart, huser, hport⟩ := parseAuthority_cut hparsed
  have hin : ∀ {ch}, ch ∈ start ∨ ch ∈ auth.host ∨ ch ∈ back → isAuthorityByte ch = true := by
    intro ch hch
    refine ha ch ?_
    rw [hcut]
    exact List.mem_append.mpr (hch.imp id List.mem_append.mpr)
  have hmarks : ∀ ch ∈ auth.front, isAuthorityByte ch = true := by
    intro ch hch
    obtain rfl | hch := mem_front hch
    · decide
    · exact hin (.inl (huser ch hch))
  -- so the byte is in the name
  have hnameBad : ¬ ∀ ch ∈ name, isAuthorityByte ch = true := by
    intro hall
    apply hbad
    intro ch hch
    unfold Authority.text at hch
    rw [List.mem_append, List.mem_append] at hch
    obtain (hch | hch) | hch := hch
    · exact hmarks ch hch
    · exact hall ch hch
    · obtain rfl | hch := mem_back hch
      · decide
      · exact hin (.inr (.inr (hport ch hch)))
  have hsame : a = auth.front ++ name.takeWhile isAuthorityByte := by
    rw [← hfront, Authority.text, List.append_assoc]
    change (auth.front ++ (name ++ auth.back)).takeWhile isAuthorityByte = _
    rw [List.takeWhile_append_of_pos hmarks, takeWhile_append_of_not hnameBad]
  obtain ⟨-, rfl⟩ | ⟨addr, haddr, hstr⟩ | ⟨-, ⟨rfl, -⟩ | ⟨⟨ch, hch, hlarge⟩, rfl⟩⟩ :=
    normalHost_cases hname
  · exact hnameBad nofun
  · exact hnameBad fun ch hch =>
      isAuthorityByte_of_digit ((hnumeric _ addr name hhost haddr hstr).2.2 ch hch)
  · exact hnameBad fun ch hch => hin (.inr (.inl hch))
  · have hmem : ch ∈ (encodedHost auth.host).takeWhile isAuthorityByte := by
      obtain rfl | hnone := hstart
      · have hsame := List.append_cancel_left (hcut.symm.trans hsame)
        rw [← hsame]
        exact List.mem_append_left _ hch
      · rw [hnone, List.nil_append] at hsame
        rw [← hsame, hcut]
        exact List.mem_append_right _ (List.mem_append_left _ hch)
    have hle := isAscii_encodedHost _ ch ((List.takeWhile_prefix _).subset hmem)
    rw [UInt8.le_iff_toNat_le] at hle
    rw [UInt8.lt_iff_toNat_lt] at hlarge
    omega

/-! Components that do not change the text are stable. -/

theorem fragmentText_inj {f g : Option Bytes} (h : Uri.fragmentText f = Uri.fragmentText g) :
    f = g := by
  rw [← Uri.fragmentOf_fragmentText f, h, Uri.fragmentOf_fragmentText]

theorem tail_inj {pieces' : Uri.Pieces} (hquery : ∀ query ∈ pieces.query, Uri.hash ∉ query)
    (hquery' : ∀ query ∈ pieces'.query, Uri.hash ∉ query) (h : pieces.tail = pieces'.tail) :
    pieces.query = pieces'.query ∧ pieces.fragment = pieces'.fragment := by
  have hsame : pieces.query = pieces'.query := by
    rw [← Uri.queryOf_tail hquery, h, Uri.queryOf_tail hquery']
  refine ⟨hsame, fragmentText_inj ?_⟩
  unfold Uri.Pieces.tail at h
  rw [hsame] at h
  exact List.append_cancel_left h

theorem rest_inj {pieces' : Uri.Pieces}
    (hpath : ∀ ch ∈ pieces.path, Uri.isPathChar ch = true)
    (hpath' : ∀ ch ∈ pieces'.path, Uri.isPathChar ch = true)
    (h : pieces.path ++ pieces.tail = pieces'.path ++ pieces'.tail) :
    pieces.path = pieces'.path ∧ pieces.tail = pieces'.tail := by
  have hsame : pieces.path = pieces'.path := by
    rw [← Uri.takeWhile_append_stop hpath (Uri.tailStart_tail pieces).takeWhile, h,
      Uri.takeWhile_append_stop hpath' (Uri.tailStart_tail pieces').takeWhile]
  exact ⟨hsame, List.append_cancel_left (hsame ▸ h)⟩

variable {scheme : Option Bytes}

theorem normalScheme_some {x : Bytes} {scheme' : Option Bytes}
    (h : normalScheme (some x) = some scheme') :
    scheme' = some (x.map tolower) ∧ urlSupportedScheme (x.map tolower) = true := by
  unfold normalScheme at h
  dsimp only at h
  split at h
  · exact ⟨(Option.some.inj h).symm, by assumption⟩
  · cases h

theorem scheme_of_text_eq {scheme' : Option Bytes} {rest rest' : Bytes}
    (hrun : normalScheme scheme = some scheme')
    (htext : Uri.schemeText scheme' ++ rest' = Uri.schemeText scheme ++ rest) :
    (∀ x ∈ scheme, urlSupportedScheme x = true) ∧ rest' = rest := by
  cases scheme with
  | none =>
    cases hrun
    exact ⟨nofun, htext⟩
  | some x =>
    obtain ⟨rfl, hsupported⟩ := normalScheme_some hrun
    obtain ⟨hscheme, hrest⟩ := List.append_inj htext (by simp [Uri.schemeText])
    refine ⟨?_, hrest⟩
    rintro y ⟨⟩
    have hlower := (List.append_inj hscheme (List.length_map tolower)).1
    rwa [hlower] at hsupported

theorem query_of_eq {query : Option Bytes} (h : normalQuery ctx query = query) :
    (∀ text ∈ query, PercentEncoding.Encoded isQuerychar text) ∧
      (ctx.opts.removeEmptyQuery = true → query ≠ some []) := by
  unfold normalQuery at h
  constructor
  · intro text htext
    rw [Option.mem_def.mp htext] at h
    obtain ⟨raw, -, rfl⟩ := Option.map_eq_some_iff.mp h
    exact PercentEncoding.encoded_encode isQuerychar_of_isHexDigit raw
  · rintro hremove rfl
    rw [keepEmpty, hremove] at h
    cases h

theorem normalPath_false_ne (path : Bytes) : normalPath false path ≠ slash :: slash :: path := by
  intro heq
  have hle := count_removeDotSegments_le slash_ne_dot (encodePath path)
  have hcount : (encodePath path).count slash = path.count slash :=
    PercentEncoding.count_encode rfl (by decide) rfl path
  rw [normalPath_false, reducePath] at heq
  rw [heq, hcount, List.count_cons_self, List.count_cons_self] at hle
  omega

theorem takeWhile_isAuthorityByte {rest : Bytes} (h : rest.takeWhile Uri.isAuthorityChar = [])
    {lines : Bytes} (hlines : lines.takeWhile (· ≠ newline) = []) :
    (rest ++ lines).takeWhile isAuthorityByte = [] := by
  cases rest with
  | cons ch rest =>
    refine List.takeWhile_cons_of_neg fun hch => ?_
    rw [List.takeWhile_cons_of_pos (Bool.and_eq_true_iff.mp hch).1] at h
    cases h
  | nil =>
    cases lines with
    | nil => rfl
    | cons ch lines =>
      refine List.takeWhile_cons_of_neg fun hch => ?_
      have hne := of_decide_eq_true (Bool.and_eq_true_iff.mp hch).2
      simp [hne] at hlines

theorem isAuthorityByte_of_mem (hproper : pieces.Proper) (hclean : newline ∉ pieces.text)
    (ha : pieces.authority = some a) : ∀ ch ∈ a, isAuthorityByte ch = true := by
  intro ch hch
  refine Bool.and_eq_true_iff.mpr ⟨(hproper.authority a ha).1 ch hch, decide_eq_true ?_⟩
  rintro rfl
  exact hclean (by simp [Uri.Pieces.text, Uri.Pieces.relative, ha, Uri.authorityText, hch])

theorem stable_of_text_eq (hnumeric : NumericTexts ctx) {normal : Uri.Pieces}
    (hproper : pieces.Proper) (hclean : newline ∉ pieces.text)
    (hrun : normalPieces ctx pieces = some normal)
    (htext : normal.text = pieces.text) : Stable ctx pieces := by
  unfold normalPieces at hrun
  obtain ⟨scheme, hscheme, hrun⟩ := Option.bind_eq_some_iff.mp hrun
  obtain ⟨authority, hauth, hrun⟩ := Option.bind_eq_some_iff.mp hrun
  have hpath := (encodedPath_normalPath (authorityBytes pieces ≠ []) pieces.path).isPathChar
  have hquery := hash_not_mem_normalQuery ctx pieces.query
  have hencoded := encodedPath_normalPath (authorityBytes pieces ≠ []) pieces.path
  have hfree := dotFree_normalPath (authorityBytes pieces ≠ []) pieces.path
  cases hrun
  obtain ⟨hsupported, hrelative⟩ := scheme_of_text_eq hscheme htext
  have hbehind : normalPath (authorityBytes pieces ≠ []) pieces.path ++
      Uri.Pieces.tail ⟨none, none, [], normalQuery ctx pieces.query,
        normalFragment ctx pieces.fragment⟩ = pieces.path ++ pieces.tail ∧
      ∀ a ∈ pieces.authority, a ≠ [] ∧ AuthorityKept ctx [] a := by
    unfold Uri.Pieces.relative at hrelative
    change _ ++ (_ ++ Uri.Pieces.tail ⟨none, none, [], normalQuery ctx pieces.query,
        normalFragment ctx pieces.fragment⟩) = _ at hrelative
    cases ha : pieces.authority with
    | none =>
      rw [if_pos (authorityBytes_of_none ha), ha] at hrelative
      exact ⟨hrelative, nofun⟩
    | some a =>
      have hbytes := authorityBytes_of_some ha
      obtain ⟨hchars, hroot⟩ := hproper.authority a ha
      have hstop := Uri.takeWhile_path hroot
      rw [ha, hbytes] at hrelative
      rw [hbytes] at hauth hpath ⊢
      by_cases hempty : a = []
      · -- an empty authority is left out, and its slashes cannot come from the path
        subst hempty
        exfalso
        rw [if_pos rfl] at hrelative
        refine normalPath_false_ne pieces.path (@rest_inj ⟨none, none, normalPath false pieces.path,
          normalQuery ctx pieces.query, normalFragment ctx pieces.fragment⟩
          ⟨none, none, slash :: slash :: pieces.path, pieces.query, pieces.fragment⟩ hpath ?_
          hrelative).1
        exact List.forall_mem_cons.mpr ⟨by decide, List.forall_mem_cons.mpr
          ⟨by decide, hproper.path⟩⟩
      · rw [if_neg hempty] at hrelative
        have hcancel : authority ++ (normalPath (decide (a ≠ [])) pieces.path ++
            Uri.Pieces.tail ⟨none, none, [], normalQuery ctx pieces.query,
              normalFragment ctx pieces.fragment⟩) = a ++ (pieces.path ++ pieces.tail) :=
          (List.cons.inj (List.cons.inj hrelative).2).2
        have hbytes' := isAuthorityByte_of_mem hproper hclean ha
        have hstop' := @takeWhile_isAuthorityByte _ hstop [] rfl
        rw [List.append_nil] at hstop'
        have hkept : ∀ ch ∈ authority, Uri.isAuthorityChar ch = true := fun ch hch =>
          (Bool.and_eq_true_iff.mp
            (normalAuthority_of_text_eq hnumeric hbytes' hstop' hauth hcancel ch hch)).1
        have hstop' := @Uri.takeWhile_path ⟨none, none, normalPath true pieces.path,
          normalQuery ctx pieces.query, normalFragment ctx pieces.fragment⟩
          (.inr (head?_normalPath hroot))
        have hsame : authority = a := by
          rw [← Uri.takeWhile_append_stop hchars hstop, ← hcancel, decide_eq_true hempty]
          exact (Uri.takeWhile_append_stop hkept hstop').symm
        subst hsame
        refine ⟨List.append_cancel_left hcancel, fun b hb => ?_⟩
        cases hb
        exact ⟨hempty, kept_of_normalAuthority hnumeric hauth⟩
  obtain ⟨hsamePath, hsameTail⟩ := @rest_inj ⟨none, none,
    normalPath (authorityBytes pieces ≠ []) pieces.path, normalQuery ctx pieces.query,
    normalFragment ctx pieces.fragment⟩ pieces hpath hproper.path hbehind.1
  obtain ⟨hsameQuery, hsameFragment⟩ := tail_inj hquery hproper.query hsameTail
  dsimp only at hsamePath hsameQuery hsameFragment
  obtain ⟨hencodedQuery, hnoQuery⟩ := query_of_eq hsameQuery
  refine ⟨hsupported, ?_, hsamePath ▸ hencoded, hsamePath ▸ hfree, hencodedQuery, hnoQuery,
    keepEmpty_eq_self_iff.mp hsameFragment⟩
  intro a ha
  obtain ⟨hne, hnormal⟩ := hbehind.2 a ha
  refine ⟨hne, hnormal, ?_⟩
  intro hnil
  have hhead := head?_normalPath (hproper.authority a ha).2
  rw [authorityBytes_of_some ha, decide_eq_true hne] at hsamePath
  rw [hsamePath, hnil] at hhead
  cases hhead

theorem supported_of_normalScheme {scheme' : Option Bytes}
    (h : normalScheme scheme = some scheme') : ∀ x ∈ scheme', urlSupportedScheme x = true := by
  cases scheme with
  | none =>
    cases h
    exact nofun
  | some x =>
    obtain ⟨rfl, hsupported⟩ := normalScheme_some h
    rintro y ⟨⟩
    exact hsupported

theorem encoded_normalQuery (query : Option Bytes) :
    ∀ text ∈ normalQuery ctx query, PercentEncoding.Encoded isQuerychar text := by
  intro text hmem
  obtain ⟨raw, -, rfl⟩ := Option.map_eq_some_iff.mp hmem
  exact PercentEncoding.encoded_encode isQuerychar_of_isHexDigit raw

theorem newline_not_mem_pieces (s : Bytes) : newline ∉ (piecesOf s).text := by
  rw [piecesOf, Uri.text_split]
  exact newline_not_mem_firstLine s

variable {text : Bytes}

theorem newline_not_mem_encoded {allowed : UInt8 → Bool} (h : allowed newline = false)
    (hencoded : PercentEncoding.Encoded allowed text) : newline ∉ text := by
  intro hmem
  have hbyte := hencoded.mem hmem
  revert hbyte
  rw [h]
  decide

theorem newline_mem_normal_iff {normal : Uri.Pieces}
    (hrun : normalPieces ctx (piecesOf s) = some normal) :
    newline ∈ normal.text ↔ ∃ a ∈ normal.authority, newline ∈ a := by
  have hclean := newline_not_mem_pieces s
  simp only [Uri.Pieces.text, Uri.Pieces.relative, Uri.Pieces.tail, List.mem_append,
    not_or] at hclean
  obtain ⟨scheme, hscheme, hrun⟩ := Option.bind_eq_some_iff.mp hrun
  obtain ⟨authority, -, hrun⟩ := Option.bind_eq_some_iff.mp hrun
  cases hrun
  have hschemeClean : newline ∉ Uri.schemeText scheme := by
    have hsupported := supported_of_normalScheme hscheme
    cases scheme with
    | none => exact List.not_mem_nil
    | some x =>
      have hx := hsupported x rfl
      unfold urlSupportedScheme at hx
      rw [Bool.or_eq_true, decide_eq_true_eq, decide_eq_true_eq] at hx
      obtain rfl | rfl := hx
      · decide
      · decide
  have hpathClean := newline_not_mem_encoded rfl
    (encodedPath_normalPath (authorityBytes (piecesOf s) ≠ []) (piecesOf s).path)
  have hqueryClean : newline ∉ Uri.queryText (normalQuery ctx (piecesOf s).query) := by
    cases hquery : normalQuery ctx (piecesOf s).query with
    | none => exact List.not_mem_nil
    | some text =>
      refine fun hmem => newline_not_mem_encoded rfl (encoded_normalQuery _ text hquery) ?_
      exact (List.mem_cons.mp hmem).resolve_left (by decide)
  have hfragmentClean : newline ∉ Uri.fragmentText (normalFragment ctx (piecesOf s).fragment) := by
    cases hfragment : normalFragment ctx (piecesOf s).fragment with
    | none => exact List.not_mem_nil
    | some text =>
      rw [(Option.filter_eq_some_iff.mp hfragment).1] at hclean
      exact hclean.2.2.2.2
  simp only [Uri.Pieces.text, Uri.Pieces.relative, Uri.Pieces.tail, List.mem_append, hschemeClean,
    hpathClean, hqueryClean, hfragmentClean, false_or, or_false]
  split
  · simp [Uri.authorityText]
  · simp [Uri.authorityText, newline, Uri.slash]

theorem newline_not_mem_of_normal (hnumeric : NumericTexts ctx) {t : Bytes}
    (h : urlNormalize ctx t = .ok t) : newline ∉ t := by
  obtain ⟨normal, hrun, htext⟩ := urlNormalize_eq_ok_iff.mp h
  obtain ⟨lines, hlines, -, hend⟩ := text_piecesOf t
  have hclean := newline_not_mem_pieces t
  have hproper := proper_piecesOf t
  have hmem := newline_mem_normal_iff hrun
  rw [htext] at hmem
  rw [hmem]
  generalize piecesOf t = pieces at hrun hlines hclean hproper
  rintro ⟨written, hwritten, hline⟩
  rw [hlines] at htext
  obtain ⟨scheme, hscheme, hrun⟩ := Option.bind_eq_some_iff.mp hrun
  obtain ⟨authority, hauth, hrun⟩ := Option.bind_eq_some_iff.mp hrun
  cases hrun
  split at hwritten
  · cases hwritten
  rename_i hne
  cases hwritten
  cases ha : pieces.authority with
  | none => exact hne (authorityBytes_of_none ha)
  | some a =>
    obtain ⟨hchars, hroot⟩ := hproper.authority a ha
    rw [authorityBytes_of_some ha] at hauth hne
    unfold Uri.Pieces.text at htext
    rw [List.append_assoc] at htext
    have hrelative := (scheme_of_text_eq hscheme htext).2
    unfold Uri.Pieces.relative at hrelative
    rw [ha, authorityBytes_of_some ha, if_neg hne] at hrelative
    simp only [Uri.authorityText, List.cons_append, List.append_assoc] at hrelative
    have hcancel := (List.cons.inj (List.cons.inj hrelative).2).2
    rw [← List.append_assoc pieces.path] at hcancel
    have hbytes := isAuthorityByte_of_mem hproper hclean ha
    have hkept := normalAuthority_of_text_eq hnumeric hbytes
      (takeWhile_isAuthorityByte (Uri.takeWhile_path hroot) hend) hauth hcancel newline hline
    revert hkept
    decide

theorem urlNormalize_eq_self_iff (hnumeric : NumericTexts ctx) {t : Bytes} :
    urlNormalize ctx t = .ok t ↔ newline ∉ t ∧ Stable ctx (Uri.split t) := by
  constructor
  · intro h
    have hline := newline_not_mem_of_normal hnumeric h
    obtain ⟨normal, hrun, htext⟩ := urlNormalize_eq_ok_iff.mp h
    rw [piecesOf_of_not_mem hline] at hrun
    have hsame := Uri.text_split t
    exact ⟨hline, stable_of_text_eq hnumeric (Uri.proper_split t) (hsame.symm ▸ hline) hrun
      (htext.trans hsame.symm)⟩
  · rintro ⟨hline, h⟩
    refine urlNormalize_eq_ok_iff.mpr ⟨_, ?_, Uri.text_split t⟩
    rw [piecesOf_of_not_mem hline]
    exact h.normalPieces_eq

/-- If the path is read with an authority, this stays and a path follows. -/
def PathSettled (ctx : UrlCtx) (path : Bytes) : Prop :=
  ∀ a, Uri.authorityOf path = some a →
    a ≠ [] ∧ AuthorityKept ctx [] a ∧ path ≠ slash :: slash :: a

/-- If the path is read with a scheme, this is a supported one in lower case and no dot
segment stands right behind it. -/
def RelativeSettled (ctx : UrlCtx) (path : Bytes) : Prop :=
  match Uri.schemeOf path with
  | none => PathSettled ctx path
  | some x =>
    let path := path.drop (x.length + 1)
    urlSupportedScheme x = true ∧ ¬ IsDots dot (path.takeWhile (· ≠ slash)) ∧ PathSettled ctx path

/-- What is written behind a user information stays, in front of `rest`. It may contain the bytes
that end an authority; what follows them is read as a path. -/
def TextSettled (ctx : UrlCtx) (userinfo text rest : Bytes) : Prop :=
  let front := text.takeWhile Uri.isAuthorityChar
  let more := text.dropWhile Uri.isAuthorityChar
  newline ∉ text ∧ (userinfo = [] → front ≠ []) ∧ AuthorityKept ctx userinfo front ∧
    (more = [] ∨ (Uri.behind (more ++ rest)).path ≠ [] ∧ Stable ctx (Uri.behind (more ++ rest)))

/-- The authority of the input, in front of `rest`. Only in a host that is encoded anything can be
read in another way, but for an `@` in the host or the port with no user information in front. -/
def AuthoritySettled (ctx : UrlCtx) (auth : Authority) (rest : Bytes) : Prop :=
  let isAddress := (Ip.ipAddr ctx.getaddrinfo auth.host).isSome
  if isAddress = false ∧ ∃ ch ∈ auth.host, 0x7f < ch then
    TextSettled ctx auth.userinfo (encodedHost auth.host ++ auth.back) rest
  else
    let text := (if isAddress then [] else auth.host) ++ auth.back
    auth ≠ ⟨[], [], []⟩ ∧ (auth.userinfo = [] → commercialAt ∈ text →
      before commercialAt text ≠ [] ∧ HostKept ctx (after commercialAt text))

def normalTail (ctx : UrlCtx) (pieces : Uri.Pieces) : Bytes :=
  Uri.queryText (normalQuery ctx pieces.query) ++
    Uri.fragmentText (normalFragment ctx pieces.fragment)

def Settled (ctx : UrlCtx) (s : Bytes) : Prop :=
  let pieces := piecesOf s
  if authorityBytes pieces = [] then
    if pieces.scheme = none then RelativeSettled ctx (reducePath pieces.path)
    else PathSettled ctx (reducePath pieces.path)
  else
    ∃ auth, parseAuthority (authorityBytes pieces) = some auth ∧
      AuthoritySettled ctx auth (normalPath true pieces.path ++ normalTail ctx pieces)

theorem isScheme_of_supported {x : Bytes} (h : urlSupportedScheme x = true) : Uri.IsScheme x := by
  unfold urlSupportedScheme at h
  rw [Bool.or_eq_true, decide_eq_true_eq, decide_eq_true_eq] at h
  obtain rfl | rfl := h
  · exact ⟨⟨_, _, rfl, rfl⟩, by unfold http; decide⟩
  · exact ⟨⟨_, _, rfl, rfl⟩, by unfold https; decide⟩

theorem keepEmpty_keepEmpty (remove : Bool) (text : Option Bytes) :
    remove = true → keepEmpty remove text ≠ some [] := by
  rintro rfl h
  obtain ⟨-, hkept⟩ := Option.filter_eq_some_iff.mp h
  simp at hkept

theorem normalQuery_ne (query : Option Bytes) :
    ctx.opts.removeEmptyQuery = true → normalQuery ctx query ≠ some [] := by
  intro hremove h
  obtain ⟨raw, hraw, hencoded⟩ := Option.map_eq_some_iff.mp h
  have hlength := congrArg List.length hencoded
  rw [encodeQuery, PercentEncoding.length_encode, List.length_nil] at hlength
  have hnil : raw = [] := List.eq_nil_of_length_eq_zero (by omega)
  exact keepEmpty_keepEmpty _ _ hremove (hnil ▸ hraw)

theorem stable_iff_pathSettled
    (hscheme : ∀ x ∈ scheme, urlSupportedScheme x = true) (hencoded : EncodedPath path)
    (hfree : DotFree slash dot path) :
    Stable ctx ⟨scheme, Uri.authorityOf path,
      path.drop (Uri.authorityText (Uri.authorityOf path)).length, normalQuery ctx pieces.query,
      normalFragment ctx pieces.fragment⟩ ↔ PathSettled ctx path := by
  have hsplit : ∀ a, Uri.authorityOf path = some a →
      slash :: slash :: a ++ path.drop (Uri.authorityText (some a)).length = path := by
    intro a ha
    have hfront := List.prefix_iff_eq_append.mp (Uri.front_authorityText path)
    rwa [ha] at hfront
  have hrest : ∀ a, Uri.authorityOf path = some a →
      (path.drop (Uri.authorityText (some a)).length ≠ [] ↔ path ≠ slash :: slash :: a) := by
    intro a ha
    refine not_congr ⟨fun hnil => ?_, fun heq => ?_⟩
    · have hpath := hsplit a ha
      rw [hnil, List.append_nil] at hpath
      exact hpath.symm
    · rw [heq]
      exact List.drop_length
  constructor
  · intro h a ha
    obtain ⟨hne, hnormal, hpath⟩ := h.authority a ha
    rw [ha] at hpath
    exact ⟨hne, hnormal, (hrest a ha).mp hpath⟩
  · intro h
    refine ⟨hscheme, ?_, ?_, ?_, encoded_normalQuery _, normalQuery_ne _, keepEmpty_keepEmpty _ _⟩
    · intro a ha
      replace ha : Uri.authorityOf path = some a := ha
      obtain ⟨hne, hnormal, hpath⟩ := h a ha
      refine ⟨hne, hnormal, ?_⟩
      rw [ha]
      exact (hrest a ha).mpr hpath
    · exact PercentEncoding.Encoded.back ((List.take_append_drop _ path).symm ▸ hencoded)
    · dsimp only
      cases ha : Uri.authorityOf path with
      | none => exact hfree
      | some a =>
        apply DotFree.back ((hsplit a ha).symm ▸ hfree)
        have hroot := Uri.path_of_takeWhile (Uri.drop_authorityText ha)
        have hchars := hencoded.isPathChar
        rwa [List.takeWhile_eq_self_iff.mpr fun ch hch => hchars ch (List.mem_of_mem_drop hch)]
          at hroot

theorem stable_iff_relativeSettled (hencoded : EncodedPath path) (hfree : DotFree slash dot path) :
    Stable ctx (Uri.split (Uri.Pieces.text ⟨none, none, path, normalQuery ctx pieces.query,
      normalFragment ctx pieces.fragment⟩)) ↔ RelativeSettled ctx path := by
  have hquery := hash_not_mem_normalQuery ctx pieces.query
  unfold RelativeSettled
  cases hx : Uri.schemeOf path with
  | none =>
    have hsplit := @Uri.split_of_path none path _ (normalFragment ctx pieces.fragment)
      nofun (fun _ => hx) hencoded.isPathChar hquery
    change Stable ctx (Uri.split (Uri.schemeText none ++ (path ++
      (Uri.queryText (normalQuery ctx pieces.query) ++
        Uri.fragmentText (normalFragment ctx pieces.fragment))))) ↔ _
    rw [hsplit]
    exact stable_iff_pathSettled nofun hencoded hfree
  | some x =>
    obtain ⟨hgrammar, rest, rfl⟩ := Uri.schemeOf_eq_some_iff.mp hx
    have hdrop : (x ++ [Uri.colon] ++ rest).drop (x.length + 1) = rest := by
      have hlength : x.length + 1 = (x ++ [Uri.colon]).length := by
        rw [List.length_append, List.length_singleton]
      rw [hlength, List.drop_left]
    dsimp only
    rw [hdrop]
    have hrestEncoded : EncodedPath rest := PercentEncoding.Encoded.back hencoded
    have hsplit := @Uri.split_of_path (some x) rest _ (normalFragment ctx pieces.fragment)
      (fun y hy => Option.some.inj hy ▸ hgrammar) nofun hrestEncoded.isPathChar
      hquery
    have htext : Uri.Pieces.text ⟨none, none, x ++ [Uri.colon] ++ rest,
        normalQuery ctx pieces.query, normalFragment ctx pieces.fragment⟩ =
        Uri.schemeText (some x) ++ (rest ++ (Uri.queryText (normalQuery ctx pieces.query) ++
          Uri.fragmentText (normalFragment ctx pieces.fragment))) := by
      rw [← List.append_assoc]
      rfl
    rw [htext, hsplit]
    constructor
    · intro h
      have hsupported : ∀ y ∈ some x, urlSupportedScheme y = true := h.scheme
      have hrestFree : DotFree slash dot rest := by
        cases ha : Uri.authorityOf rest with
        | none =>
          have hdotFree := h.dotFree
          rw [ha] at hdotFree
          exact hdotFree
        | some a =>
          have hfront := Uri.front_authorityText rest
          rw [ha] at hfront
          obtain ⟨more, rfl⟩ := hfront
          exact hfree.back (ends_cons slash _)
      exact ⟨hsupported x rfl, hrestFree.first,
        (stable_iff_pathSettled hsupported hrestEncoded hrestFree).mp h⟩
    · rintro ⟨hsupported, hplain, hsettled⟩
      refine (stable_iff_pathSettled ?_ hrestEncoded (hfree.back_of_first hplain)).mpr hsettled
      intro y hy
      cases hy
      exact hsupported

theorem stable_iff_of_scheme {x : Bytes}
    (hsupported : urlSupportedScheme x = true) (hencoded : EncodedPath path)
    (hfree : DotFree slash dot path) :
    Stable ctx (Uri.split (Uri.Pieces.text ⟨some x, none, path, normalQuery ctx pieces.query,
      normalFragment ctx pieces.fragment⟩)) ↔ PathSettled ctx path := by
  have hscheme : ∀ y ∈ some x, urlSupportedScheme y = true := by
    intro y hy
    cases hy
    exact hsupported
  have hsplit := @Uri.split_of_path (some x) path _ (normalFragment ctx pieces.fragment)
    (fun y hy => isScheme_of_supported (hscheme y hy)) nofun hencoded.isPathChar
    (hash_not_mem_normalQuery ctx pieces.query)
  change Stable ctx (Uri.split (Uri.schemeText (some x) ++ (path ++
    (Uri.queryText (normalQuery ctx pieces.query) ++
      Uri.fragmentText (normalFragment ctx pieces.fragment))))) ↔ _
  rw [hsplit]
  exact stable_iff_pathSettled hscheme hencoded hfree

theorem stable_with_iff {rest : Uri.Pieces} (hscheme : rest.scheme = none)
    (hauth : rest.authority = none)
    (hsupported : ∀ x ∈ scheme, urlSupportedScheme x = true) :
    Stable ctx { rest with scheme, authority := some a } ↔
      a ≠ [] ∧ AuthorityKept ctx [] a ∧ rest.path ≠ [] ∧ Stable ctx rest := by
  constructor
  · intro h
    obtain ⟨hne, hnormal, hpath⟩ := h.authority a rfl
    refine ⟨hne, hnormal, hpath, ?_, ?_, h.encoded, h.dotFree, h.query, h.noQuery, h.noFragment⟩
    · rw [hscheme]
      exact nofun
    · rw [hauth]
      exact nofun
  · rintro ⟨hne, hnormal, hpath, h⟩
    refine ⟨hsupported, ?_, h.encoded, h.dotFree, h.query, h.noQuery, h.noFragment⟩
    intro b hb
    cases hb
    exact ⟨hne, hnormal, hpath⟩

theorem stable_iff_textSettled (hline : newline ∉ a)
    (hscheme : ∀ x ∈ scheme, urlSupportedScheme x = true)
    (hroot : pieces.path = [] ∨ pieces.path.head? = some slash) :
    Stable ctx (Uri.split (Uri.Pieces.text ⟨scheme, some a, normalPath true pieces.path,
      normalQuery ctx pieces.query, normalFragment ctx pieces.fragment⟩)) ↔
      TextSettled ctx [] a (normalPath true pieces.path ++ normalTail ctx pieces) := by
  unfold TextSettled
  rw [and_iff_right hline, forall_prop_of_true rfl]
  have ha := @List.takeWhile_append_dropWhile _ Uri.isAuthorityChar a
  have hchars : ∀ ch ∈ a.takeWhile Uri.isAuthorityChar, Uri.isAuthorityChar ch = true :=
    fun ch hch => List.mem_takeWhile_imp hch
  have hstop := Uri.takeWhile_dropWhile Uri.isAuthorityChar a
  generalize a.takeWhile Uri.isAuthorityChar = front at ha hchars ⊢
  generalize a.dropWhile Uri.isAuthorityChar = more at ha hstop ⊢
  subst ha
  have hhead := head?_normalPath hroot
  have hrest : (more ++ (normalPath true pieces.path ++ normalTail ctx pieces)).takeWhile
      Uri.isAuthorityChar = [] := by
    cases more with
    | nil => exact @Uri.takeWhile_path ⟨none, none, _, normalQuery ctx pieces.query,
        normalFragment ctx pieces.fragment⟩ (.inr hhead)
    | cons ch more =>
      refine List.takeWhile_cons_of_neg fun hch => ?_
      rw [List.takeWhile_cons_of_pos hch] at hstop
      cases hstop
  have hsplit := Uri.split_of_authority (fun x hx => isScheme_of_supported (hscheme x hx)) hchars
    hrest
  have htext : Uri.Pieces.text ⟨scheme, some (front ++ more), normalPath true pieces.path,
      normalQuery ctx pieces.query, normalFragment ctx pieces.fragment⟩ =
      Uri.schemeText scheme ++ (Uri.authorityText (some front) ++
        (more ++ (normalPath true pieces.path ++ normalTail ctx pieces))) := by
    simp only [Uri.Pieces.text, Uri.Pieces.relative, Uri.Pieces.tail, Uri.authorityText, normalTail,
      List.cons_append, List.append_assoc]
  rw [htext, hsplit, stable_with_iff rfl rfl hscheme]
  refine and_congr_right fun _ => and_congr_right fun _ => ⟨.inr, fun h => h.elim ?_ id⟩
  -- without such a rest the path is the normalized one
  rintro rfl
  have hbehind := @Uri.behind_of_path _ _ (normalFragment ctx pieces.fragment)
    (encodedPath_normalPath true pieces.path).isPathChar
    (hash_not_mem_normalQuery ctx pieces.query)
  rw [List.nil_append, normalTail, hbehind]
  refine ⟨?_, ?_, ?_, encodedPath_normalPath true pieces.path, dotFree_normalPath true pieces.path,
    encoded_normalQuery _, normalQuery_ne _, keepEmpty_keepEmpty _ _⟩
  · intro hnil
    dsimp only at hnil
    rw [hnil] at hhead
    cases hhead
  · exact fun x hx => absurd hx (Option.not_mem_none x)
  · exact fun b hb => absurd hb (Option.not_mem_none b)

theorem authorityKept_front {userinfo : Bytes} (h : commercialAt ∉ userinfo) :
    AuthorityKept ctx [] (Authority.front ⟨userinfo, [], []⟩ ++ s) ↔
      AuthorityKept ctx userinfo s := by
  unfold Authority.front
  by_cases huser : userinfo = []
  · rw [if_pos huser, List.nil_append, huser]
  · unfold AuthorityKept
    have hmem : commercialAt ∈ userinfo ++ [commercialAt] ++ s := by simp
    rw [if_neg huser, if_pos ⟨rfl, hmem⟩, if_neg fun h => huser h.1, List.append_assoc,
      List.singleton_append, before_append h, after_append h]
    exact and_iff_right huser

theorem hostKept_append (h : IsHost name) (hnormal : HostNormal ctx name) :
    HostKept ctx (name ++ Authority.back ⟨[], name, port⟩) :=
  ⟨name, port, hostAndPort_append h, hnormal, rfl⟩

theorem isHost_of_digits (h : ∀ ch ∈ text, ch = 46 ∨ 48 ≤ ch ∧ ch ≤ 57) :
    IsHost text := by
  refine .inl ⟨fun hmem => (digit_ne (h colon hmem)).1 rfl, fun hhead => ?_⟩
  exact (digit_ne (h openBracket (List.mem_of_mem_head? hhead))).2.2 rfl

theorem before_digits {back : Bytes} (hne : text ≠ []) (hback : commercialAt ∈ back)
    (h : commercialAt ∉ text) :
    before commercialAt (text ++ back) ≠ [] ∧
      after commercialAt (text ++ back) = after commercialAt back := by
  have hsplit := before_after hback
  have hfree := not_mem_before commercialAt back
  generalize before commercialAt back = front at hsplit hfree
  generalize after commercialAt back = rest at hsplit ⊢
  have hboth : commercialAt ∉ text ++ front := by simp [h, hfree]
  rw [hsplit, ← List.append_assoc, before_append hboth, after_append hboth]
  exact ⟨fun hnil => hne (List.append_eq_nil_iff.mp hnil).1, rfl⟩

theorem textSettled_iff (hnumeric : NumericTexts ctx) (hconsistent : Consistent ctx)
    {s rest : Bytes} (hchars : ∀ ch ∈ s, isAuthorityByte ch = true)
    (hparsed : parseAuthority s = some auth) (hname : normalHost ctx auth.host = some name) :
    TextSettled ctx [] (Authority.text { auth with host := name }) rest ↔
      AuthoritySettled ctx auth rest := by
  obtain ⟨huser, hhost, start, behind, rfl, -, huserIn, hportIn⟩ := parseAuthority_cut hparsed
  obtain ⟨userinfo, host, port⟩ := auth
  simp only [List.mem_append, or_imp, forall_and] at hchars
  obtain ⟨hstartChars, hhostChars, hbehindChars⟩ := hchars
  have hfront : ∀ ch ∈ Authority.front ⟨userinfo, [], []⟩, isAuthorityByte ch = true := by
    intro ch hch
    obtain rfl | hch := mem_front hch
    · decide
    · exact hstartChars ch (huserIn ch hch)
  have hback : ∀ ch ∈ Authority.back ⟨[], [], port⟩, isAuthorityByte ch = true := by
    intro ch hch
    obtain rfl | hch := mem_back hch
    · decide
    · exact hbehindChars ch (hportIn ch hch)
  have hchar : ∀ {s : Bytes}, (∀ ch ∈ s, isAuthorityByte ch = true) →
      ∀ ch ∈ s, Uri.isAuthorityChar ch = true := fun h ch hch =>
    (Bool.and_eq_true_iff.mp (h ch hch)).1
  have hline : ∀ {s : Bytes}, (∀ ch ∈ s, isAuthorityByte ch = true) → newline ∉ s := by
    intro s h hmem
    exact absurd (h newline hmem) (by decide)
  -- the front is read as it was
  have hcut : TextSettled ctx [] (Authority.text ⟨userinfo, name, port⟩) rest ↔
      TextSettled ctx userinfo (name ++ Authority.back ⟨[], [], port⟩) rest := by
    have htext : Authority.text ⟨userinfo, name, port⟩ =
        Authority.front ⟨userinfo, [], []⟩ ++ (name ++ Authority.back ⟨[], [], port⟩) :=
      List.append_assoc ..
    have hne : Authority.front ⟨userinfo, [], []⟩ = [] ↔ userinfo = [] := by
      unfold Authority.front
      split <;> simp_all
    unfold TextSettled
    dsimp only
    rw [htext, List.takeWhile_append_of_pos (hchar hfront),
      List.dropWhile_append_of_pos (hchar hfront), authorityKept_front huser, List.mem_append, not_or,
      and_iff_right (hline hfront), forall_prop_of_true rfl, Ne, List.append_eq_nil_iff, hne, not_and]
  rw [hcut]
  unfold AuthoritySettled
  have hbackEq : ∀ host : Bytes, Authority.back ⟨userinfo, host, port⟩ =
      Authority.back ⟨[], [], port⟩ := fun _ => rfl
  rw [hbackEq]
  -- a host that is not encoded
  have hplain : IsHost name → HostNormal ctx name → (∀ ch ∈ name, isAuthorityByte ch = true) →
      ∀ text, (commercialAt ∈ name ++ Authority.back ⟨[], [], port⟩ ↔ commercialAt ∈ text) →
      (commercialAt ∈ text →
        (before commercialAt (name ++ Authority.back ⟨[], [], port⟩) ≠ [] ↔
          before commercialAt text ≠ []) ∧
        after commercialAt (name ++ Authority.back ⟨[], [], port⟩) = after commercialAt text) →
      (name = [] ↔ host = []) →
      (TextSettled ctx userinfo (name ++ Authority.back ⟨[], [], port⟩) rest ↔
        Authority.mk userinfo host port ≠ ⟨[], [], []⟩ ∧ (userinfo = [] → commercialAt ∈ text →
          before commercialAt text ≠ [] ∧ HostKept ctx (after commercialAt text))) := by
    intro hisHost hnormal hnameChars text hmem hsame hempty
    have hall : ∀ ch ∈ name ++ Authority.back ⟨[], [], port⟩, isAuthorityByte ch = true :=
      List.forall_mem_append.mpr ⟨hnameChars, hback⟩
    have hkept : HostKept ctx (name ++ Authority.back ⟨[], [], port⟩) :=
      hostKept_append hisHost hnormal
    have hnil : name ++ Authority.back ⟨[], [], port⟩ = [] ↔ host = [] ∧ port = [] := by
      rw [List.append_eq_nil_iff, hempty]
      refine and_congr_right fun _ => ?_
      unfold Authority.back
      split <;> simp_all
    unfold TextSettled
    rw [List.takeWhile_eq_self_iff.mpr (hchar hall), List.dropWhile_eq_nil_iff.mpr (hchar hall)]
    have hwhole : Authority.mk userinfo host port ≠ ⟨[], [], []⟩ ↔
        (userinfo = [] → name ++ Authority.back ⟨[], [], port⟩ ≠ []) := by
      rw [Ne, Authority.mk.injEq, not_and, Ne, hnil]
    rw [hwhole, and_iff_right (hline hall), and_iff_left (Or.inl rfl)]
    refine and_congr_right fun _ => ?_
    unfold AuthorityKept
    by_cases hat : userinfo = [] ∧ commercialAt ∈ text
    · obtain ⟨hbefore, hafter⟩ := hsame hat.2
      rw [if_pos ⟨hat.1, hmem.mpr hat.2⟩, hbefore, hafter]
      exact ⟨fun h _ _ => h, fun h => h hat.1 hat.2⟩
    · rw [if_neg fun h => hat ⟨h.1, hmem.mp h.2⟩]
      exact iff_of_true hkept fun h h' => absurd ⟨h, h'⟩ hat
  obtain ⟨rfl, rfl⟩ | ⟨addr, haddr, hstr⟩ | ⟨hnone, ⟨rfl, hnormal, hascii⟩ | ⟨hlarge, rfl⟩⟩ :=
    normalHost_cases hname
  · rw [if_neg fun h => absurd h.2 (by simp), ite_self]
    exact hplain (.inl ⟨List.not_mem_nil, nofun⟩) (fun h => absurd rfl h)
      nofun _ Iff.rfl (fun _ => ⟨Iff.rfl, rfl⟩) Iff.rfl
  · obtain ⟨hne, hshort, hdigits⟩ := hnumeric host addr name hhost haddr hstr
    have hfree : commercialAt ∉ name := fun hmem => (digit_ne (hdigits _ hmem)).2.1 rfl
    rw [haddr, Option.isSome_some, if_neg fun h => Bool.noConfusion h.1, if_pos rfl, List.nil_append]
    refine hplain (isHost_of_digits hdigits) (fun _ => ⟨hshort, ?_⟩)
      (fun ch hch => isAuthorityByte_of_digit (hdigits ch hch)) _ ?_ (fun hmem => ?_) ?_
    · rw [hconsistent addr name hstr]
      exact hstr
    · rw [List.mem_append, or_iff_right hfree]
    · obtain ⟨hbefore, hafter⟩ := before_digits hne hmem hfree
      refine ⟨iff_of_true hbefore ?_, hafter⟩
      unfold Authority.back at hmem ⊢
      split at hmem
      · cases hmem
      · rename_i hport
        rw [if_neg hport]
        exact List.cons_ne_nil _ _
    · refine iff_of_false hne ?_
      rintro rfl
      exact hne (Option.some.inj hname).symm
  · rw [hnone, Option.isSome_none, if_neg fun h => ?_, if_neg Bool.false_ne_true]
    · exact hplain hhost hnormal hhostChars _ Iff.rfl (fun _ => ⟨Iff.rfl, rfl⟩) Iff.rfl
    · obtain ⟨ch, hch, hlarge⟩ := h.2
      have hle := hascii ch hch
      rw [UInt8.le_iff_toNat_le] at hle
      rw [UInt8.lt_iff_toNat_lt] at hlarge
      omega
  · rw [hnone, if_pos ⟨Option.isSome_none, hlarge⟩]

/-- An output stays if and only if the input meets the condition. -/
theorem normalized_again_iff {s t : Bytes} (hnumeric : NumericTexts ctx)
    (hconsistent : Consistent ctx) (hrun : urlNormalize ctx s = .ok t) :
    urlNormalize ctx t = .ok t ↔ Settled ctx s := by
  rw [urlNormalize_eq_self_iff hnumeric]
  obtain ⟨normal, hnormal, rfl⟩ := urlNormalize_eq_ok_iff.mp hrun
  have hproper := proper_piecesOf s
  have hclean := newline_not_mem_pieces s
  have hline := newline_mem_normal_iff hnormal
  rw [hline]
  unfold Settled
  generalize piecesOf s = pieces at hnormal hproper hclean ⊢
  unfold normalPieces at hnormal
  obtain ⟨scheme, hscheme, hnormal⟩ := Option.bind_eq_some_iff.mp hnormal
  obtain ⟨authority, hauth, hnormal⟩ := Option.bind_eq_some_iff.mp hnormal
  cases hnormal
  have hsupported := supported_of_normalScheme hscheme
  by_cases hempty : authorityBytes pieces = []
  · have hpath : normalPath (decide (authorityBytes pieces ≠ [])) pieces.path =
        reducePath pieces.path := by
      rw [decide_eq_false (not_not.mpr hempty), normalPath_false]
    rw [if_pos hempty, if_pos hempty, hpath, and_iff_right (by simp)]
    have hencoded := encodedPath_reducePath pieces.path
    have hfree := dotFree_reducePath pieces.path
    cases hx : pieces.scheme with
    | none =>
      rw [hx] at hscheme
      obtain rfl := Option.some.inj hscheme
      rw [if_pos rfl]
      exact stable_iff_relativeSettled hencoded hfree
    | some x =>
      rw [hx] at hscheme
      rw [if_neg (Option.some_ne_none x)]
      obtain ⟨rfl, hlower⟩ := normalScheme_some hscheme
      exact stable_iff_of_scheme hlower hencoded hfree
  · rw [if_neg hempty, if_neg hempty, decide_eq_true hempty]
    cases ha : pieces.authority with
    | none => exact absurd (authorityBytes_of_none ha) hempty
    | some a =>
      obtain ⟨hchars, hroot⟩ := hproper.authority a ha
      rw [authorityBytes_of_some ha] at hauth ⊢
      have hbytes := isAuthorityByte_of_mem hproper hclean ha
      obtain ⟨auth, name, hparsed, hname, rfl⟩ := normalAuthority_eq_some_iff.mp hauth
      have hsettled := @textSettled_iff _ _ _ hnumeric hconsistent _
        (normalPath true pieces.path ++ normalTail ctx pieces) hbytes hparsed hname
      have hone : (∃ auth', parseAuthority a = some auth' ∧ AuthoritySettled ctx auth'
          (normalPath true pieces.path ++ normalTail ctx pieces)) ↔ AuthoritySettled ctx auth
          (normalPath true pieces.path ++ normalTail ctx pieces) := by
        simp [hparsed]
      rw [hone, ← hsettled]
      by_cases hline : newline ∈ Authority.text { auth with host := name }
      · exact iff_of_false (fun h => h.1 ⟨_, rfl, hline⟩) fun h => h.1 hline
      · rw [stable_iff_textSettled hline hsupported hroot]
        refine and_iff_right ?_
        rintro ⟨written, hwritten, hmem⟩
        cases hwritten
        exact hline hmem

example : urlNormalize nameless (ascii "/.//host") = .ok (ascii "//host") := by decide +kernel

theorem normalized_again_iff_marks :
    urlNormalize nameless (ascii "//b@h:80/") = .ok (ascii "//b@h:80/") ↔
      Settled nameless (ascii "//@b@h:80") :=
  normalized_again_iff nofun
    nofun (by decide +kernel)

/-- The dot segment goes and what is behind it is an authority without a path. -/
theorem normalized_again_differs : ¬ ∀ ctx : UrlCtx, Consistent ctx → ∀ s t : Bytes,
    urlNormalize ctx s = .ok t → urlNormalize ctx t = .ok t := by
  intro h
  have hagain := h nameless nofun
    (ascii "/.//host") (ascii "//host") (by decide +kernel)
  revert hagain
  decide +kernel

end Yans.Net.Url
