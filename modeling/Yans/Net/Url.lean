import Yans.Library.Uri
import Yans.Net.Ip
import Yans.Net.Punycode
import Yans.Net.UrlDots

/-! `lib/net/url.c`: how URLs are parsed, normalized and resolved. `regexec` splits the
first line of a text as RFC 3986, appendix B, does, with the scheme's grammar of the
expression in the code; `getaddrinfo` and `getnameinfo` are parameters. Texts are without
their final zero and allocation succeeds. -/
namespace Yans.Net.Url

open Library Library.Memory

/-- `EURL_PARSE`, `EURL_SCHEME` and `EURL_HOST` -/
inductive UrlErr where
  | parse
  | scheme
  | host
deriving DecidableEq

structure Part where
  off : ℕ
  len : ℕ
deriving DecidableEq

def Part.of (part : Part) (s : Bytes) : Bytes := slice s part.off part.len

structure UrlParts where
  hasUserinfo : Bool
  hasPort : Bool
  hasQuery : Bool
  hasFragment : Bool
  scheme : Part
  auth : Part
  userinfo : Part
  host : Part
  port : Part
  path : Part
  query : Part
  fragment : Part
deriving DecidableEq

/-- `memset(out, 0, sizeof(*out))` -/
def UrlParts.zero : UrlParts :=
  ⟨false, false, false, false, ⟨0, 0⟩, ⟨0, 0⟩, ⟨0, 0⟩, ⟨0, 0⟩, ⟨0, 0⟩, ⟨0, 0⟩, ⟨0, 0⟩, ⟨0, 0⟩⟩

structure UrlOpts where
  removeEmptyQuery : Bool
  removeEmptyFragment : Bool
deriving DecidableEq

/-- `ipAddrStr` is the text of an address, if it has one. -/
structure UrlCtx where
  opts : UrlOpts
  getaddrinfo : Bytes → Option (List (Option Ip.IpAddr))
  ipAddrStr : Ip.IpAddr → Option Bytes

def colon : UInt8 := 58
def question : UInt8 := 63
def hash : UInt8 := 35
def commercialAt : UInt8 := 64
def openBracket : UInt8 := 91
def closeBracket : UInt8 := 93
def percent : UInt8 := 37
def newline : UInt8 := 10

def firstLine (s : Bytes) : Bytes := s.takeWhile (· ≠ newline)

/-- The components that are read: under `REG_NEWLINE` nothing in the expression matches a
newline, so that the match ends in front of the first one. -/
def piecesOf (s : Bytes) : Uri.Pieces := Uri.split (firstLine s)

/-- The groups of the expression that have matched. -/
structure Groups where
  scheme : Option Part
  auth : Option Part
  path : Part
  query : Option Part
  fragment : Option Part
deriving DecidableEq

def regexec (s : Bytes) : Groups :=
  let pieces := piecesOf s
  let auth := (Uri.schemeText pieces.scheme).length
  let path := auth + (Uri.authorityText pieces.authority).length
  let query := path + pieces.path.length
  let fragment := query + (Uri.queryText pieces.query).length
  { scheme := pieces.scheme.map fun text => ⟨0, text.length⟩
    auth := pieces.authority.map fun text => ⟨auth + 2, text.length⟩
    path := ⟨path, pieces.path.length⟩
    query := pieces.query.map fun text => ⟨query + 1, text.length⟩
    fragment := pieces.fragment.map fun text => ⟨fragment + 1, text.length⟩ }

/-- How far behind `pos` the first `ch` is. -/
def memchr (s : Bytes) (pos : ℕ) (ch : UInt8) (len : ℕ) : Option ℕ :=
  (slice s pos len).findIdx? (· = ch)

/-- What `url_parse_auth` does behind the user information. -/
def urlParseHost (s : Bytes) (out : UrlParts) (pos len : ℕ) : Option UrlParts :=
  if len = 0 then some out
  else if s[pos]? = some openBracket then
    match memchr s pos closeBracket len with
    | some n =>
      let out := { out with host := ⟨pos, n + 1⟩ }
      let pos := pos + (n + 1)
      let len := len - (n + 1)
      if len > 0 ∧ s[pos]? = some colon then
        some { out with hasPort := true, port := ⟨pos + 1, len - 1⟩ }
      else some out
    | none => none
  else
    match memchr s pos colon len with
    | some n =>
      let out := { out with hasPort := true, host := ⟨pos, n⟩ }
      let pos := pos + (n + 1)
      let len := len - (n + 1)
      if len > 0 then some { out with port := ⟨pos, len⟩ } else some out
    | none => some { out with host := ⟨pos, len⟩ }

def urlParseAuth (s : Bytes) (out : UrlParts) : Option UrlParts :=
  if out.auth.len = 0 then some out
  else
    let pos := out.auth.off
    let len := out.auth.len
    match memchr s pos commercialAt len with
    | some n =>
      urlParseHost s { out with hasUserinfo := true, userinfo := ⟨pos, n⟩ } (pos + (n + 1))
        (len - (n + 1))
    | none => urlParseHost s out pos len

def urlParse (s : Bytes) : Option UrlParts :=
  if s = [] then some UrlParts.zero
  else
    let m := regexec s
    let out := UrlParts.zero
    let out := { out with scheme := m.scheme.getD out.scheme }
    let out := { out with auth := m.auth.getD out.auth }
    let out := { out with path := m.path }
    match urlParseAuth s out with
    | none => none
    | some out =>
      let out := { out with hasQuery := m.query.isSome, query := m.query.getD out.query }
      some { out with hasFragment := m.fragment.isSome, fragment := m.fragment.getD out.fragment }

def isAlnum (ch : UInt8) : Bool :=
  65 ≤ ch && ch ≤ 90 || 97 ≤ ch && ch ≤ 122 || 48 ≤ ch && ch ≤ 57

/-- `-._~!$&'()*+,;=:@` -/
def pcharMarks : Bytes :=
  [45, 46, 95, 126, 33, 36, 38, 39, 40, 41, 42, 43, 44, 59, 61, 58, 64]

/-- `ISPCHAR`; `strchr` also finds the zero at the end. -/
def isPchar (ch : UInt8) : Bool := isAlnum ch || ch ∈ pcharMarks || ch = 0

def isQuerychar (ch : UInt8) : Bool := isAlnum ch || ch ∈ pcharMarks ++ [slash, question] || ch = 0

def isxdigit (ch : UInt8) : Bool :=
  48 ≤ ch && ch ≤ 57 || 65 ≤ ch && ch ≤ 70 || 97 ≤ ch && ch ≤ 102

def tolower (ch : UInt8) : UInt8 := if 65 ≤ ch ∧ ch ≤ 90 then ch + 32 else ch

/-- `hextbl` -/
def hexDigit (n : UInt8) : UInt8 := if n < 10 then 48 + n else 87 + n

def http : Bytes := [104, 116, 116, 112]

def https : Bytes := [104, 116, 116, 112, 115]

def urlSupportedScheme (s : Bytes) : Bool := s = http || s = https

def urlMaxhostlen : ℕ := 256

def normalizeHost (ctx : UrlCtx) (host : Bytes) : Except UrlErr Bytes :=
  if host.length ≥ urlMaxhostlen then .error .host
  else
    match Ip.ipAddr ctx.getaddrinfo host with
    | some addr =>
      match ctx.ipAddrStr addr with
      | none => .error .host
      | some text => .ok text
    | none =>
      match host.find? fun ch => ch < 0x1f || ch > 0x7f with
      | none => .ok host
      | some ch =>
        if ch < 0x1f then .error .host
        else
          match Punycode.punycodeEncode host with
          | none => .error .host
          | some oname => .ok ((oname.takeWhile (· ≠ 0)).take (urlMaxhostlen - 1))

def normalizeScheme (s : Bytes) (parts : UrlParts) : Except UrlErr Bytes :=
  if parts.scheme.len > 0 then
    let text := (s.take parts.scheme.len).drop parts.scheme.off
    if text.any fun ch => ch < 0x20 || ch > 0x7f then .error .scheme
    else if urlSupportedScheme (text.map tolower) then .ok (text.map tolower ++ [colon])
    else .error .scheme
  else .ok []

/-- The authority and the slashes in front of it. -/
def normalizeAuth (ctx : UrlCtx) (s : Bytes) (parts : UrlParts) : Except UrlErr Bytes := do
  let out := if parts.auth.len > 0 then [slash, slash] else []
  let out := out ++ if parts.userinfo.len > 0 then parts.userinfo.of s ++ [commercialAt] else []
  let host ←
    if parts.host.len > 255 then .error .host
    else if parts.host.len > 0 then normalizeHost ctx (parts.host.of s)
    else .ok []
  .ok (out ++ host ++ if parts.port.len > 0 then colon :: parts.port.of s else [])

/-- The bytes written for `s[i]`. -/
def encodeByte (allowed : UInt8 → Bool) (s : Bytes) (eoff i : ℕ) : Bytes :=
  let ch := s.getD i 0
  if allowed ch then [ch]
  else if ch = percent ∧ i + 2 < eoff ∧ isxdigit (s.getD (i + 1) 0) ∧ isxdigit (s.getD (i + 2) 0)
    then [ch]
  else [percent, hexDigit (ch >>> 4), hexDigit (ch &&& 0x0f)]

/-- `for(i=part.off; i<eoff; i++)` -/
def encodePart (allowed : UInt8 → Bool) (s : Bytes) (part : Part) : Bytes :=
  (List.range' part.off part.len).flatMap (encodeByte allowed s (part.off + part.len))

/-- The access to the encoded path is never outside of it. -/
def normalizePath (s : Bytes) (parts : UrlParts) : Bytes :=
  if parts.auth.len > 0 ∧ parts.path.len = 0 then [slash]
  else if parts.path.len > 0 then
    let out := encodePart (fun ch => isPchar ch || ch = slash) s parts.path
    let (data, npathlen) := (urlRemoveDotSegments out).getD (out, 0)
    let nreduced := out.length - npathlen
    data.take npathlen ++ if parts.auth.len > 0 ∧ nreduced = parts.path.len then [slash] else []
  else []

def normalizeQuery (ctx : UrlCtx) (s : Bytes) (parts : UrlParts) : Bytes :=
  if parts.query.len > 0 then question :: encodePart isQuerychar s parts.query
  else if parts.hasQuery ∧ ¬ ctx.opts.removeEmptyQuery then [question]
  else []

def normalizeFragment (ctx : UrlCtx) (s : Bytes) (parts : UrlParts) : Bytes :=
  if parts.fragment.len > 0 then hash :: parts.fragment.of s
  else if parts.hasFragment ∧ ¬ ctx.opts.removeEmptyFragment then [hash]
  else []

def urlNormalize (ctx : UrlCtx) (s : Bytes) : Except UrlErr Bytes :=
  match urlParse s with
  | none => .error .parse
  | some parts => do
    let scheme ← normalizeScheme s parts
    let auth ← normalizeAuth ctx s parts
    .ok (scheme ++ auth ++ normalizePath s parts ++ normalizeQuery ctx s parts ++
      normalizeFragment ctx s parts)

/-- `for(i=pathlen-1, pos=-1; i >= 0; i--)` -/
def lastSlash (base : Bytes) (path : ℕ) : ℕ → Option ℕ
  | 0 => none
  | i + 1 => if base[path + i]? = some slash then some i else lastSlash base path i

/-- The query of the reference, if it is not empty. -/
def resolveQuery (ref : Bytes) (refparts : UrlParts) : Bytes :=
  if refparts.query.len > 0 then question :: refparts.query.of ref else []

def resolvePath (base : Bytes) (baseparts : UrlParts) (ref : Bytes) (refparts : UrlParts) : Bytes :=
  if refparts.path.len = 0 then
    (if baseparts.path.len > 0 then baseparts.path.of base else []) ++
      if refparts.query.len > 0 then question :: refparts.query.of ref
      else if baseparts.query.len > 0 then question :: baseparts.query.of base
      else []
  else if ref[refparts.path.off]? = some slash then
    refparts.path.of ref ++ resolveQuery ref refparts
  else
    (if baseparts.path.len = 0 then slash :: refparts.path.of ref
      else
        (match lastSlash base baseparts.path.off baseparts.path.len with
          | some pos => slice base baseparts.path.off (pos + 1)
          | none => []) ++ refparts.path.of ref) ++
      resolveQuery ref refparts

/-- When `url_parse` fails `ret` is what `url_normalize` left in it, and nothing is written. -/
def urlResolve (ctx : UrlCtx) (base inref : Bytes) : Except UrlErr Bytes :=
  match urlNormalize ctx inref with
  | .error ret => .error ret
  | .ok ref =>
    match urlParse base with
    | none => .ok []
    | some baseparts =>
      match urlParse ref with
      | none => .ok []
      | some refparts =>
        if refparts.scheme.len > 0 then .ok ref
        else
          let out := if baseparts.scheme.len > 0 then baseparts.scheme.of base ++ [colon] else []
          if refparts.auth.len > 0 then
            .ok (out ++ [slash, slash] ++ ref.drop refparts.auth.off)
          else
            let out := out ++
              if baseparts.auth.len > 0 then [slash, slash] ++ baseparts.auth.of base else []
            let out := out ++ resolvePath base baseparts ref refparts
            .ok (out ++
              if refparts.fragment.len > 0 then hash :: refparts.fragment.of ref else [])

end Yans.Net.Url
