import Yans.Net.FcgiParams
import Yans.Util.Os

/-! `apps/fc2/fc2.c`: the environment of a CGI program, and the path under which
it is opened. -/
namespace Yans.Apps.Fc2

open Library.Memory Library.Strings Library.Paths Net.Fcgi Util.Os

def cgipathMax : ℕ := 256

def requestUri : Bytes := ascii "REQUEST_URI"

inductive CgiErr where
  | cannotOpen
  | invalidpath
deriving DecidableEq

structure CgiEnv where
  fullCgiPath : Bytes
  cgifd : ℕ
  envp : List Bytes
deriving DecidableEq

/-- `open` of a path for reading, and `os_fdisfile`. -/
structure Files where
  openFile : Bytes → Option ℕ
  fdisfile : ℕ → Bool

/-- The parameters of a request; `fcgi_cli_readparams` takes no more of them. -/
def Params := { bytes : Bytes // bytes.length ≤ maxParamsz }

/-- `"%.*s"` with a `size_t` for the precision: a negative one counts as none. -/
def printed (mem : Bytes) (precision ptr : Size) : Bytes :=
  let limit := (precision.setWidth 32).toInt
  if limit < 0 then cstring (mem.drop ptr.toNat)
  else cstring ((mem.drop ptr.toNat).take limit.toNat)

/-- What `snprintf` leaves in an array of `size` bytes, up to its end. -/
def snprintf (size : ℕ) (text : Bytes) : Bytes := text.take (size - 1)

/-- `FC2_<KEY>=<VAL>` -/
def envEntry (mem : Bytes) (pair : FcgiPair) : Bytes :=
  snprintf (pair.keylen + pair.valuelen + 6).toNat
    (ascii "FC2_" ++ printed mem pair.keylen pair.key ++ ascii "=" ++
      printed mem pair.valuelen pair.value)

def IsRequestUri (mem : Bytes) (pair : FcgiPair) : Prop :=
  pair.keylen.toNat = requestUri.length ∧
    slice mem pair.key.toNat requestUri.length = requestUri

instance (mem : Bytes) (pair : FcgiPair) : Decidable (IsRequestUri mem pair) :=
  inferInstanceAs (Decidable (_ ∧ _))

def pathOf (mem : Bytes) (pair : FcgiPair) : Bytes :=
  ((List.range pair.valuelen.toNat).map fun len => byteAt mem (pair.value.toNat + len)).takeWhile
    (· ≠ 63)

theorem Params.length_lt (params : Params) : params.val.length < 2 ^ 64 :=
  params.property.trans_lt (by decide)

theorem getLength_le {data : Bytes} {length : Size} {l : ℕ} (h : getLength data = some (length, l)) :
    0 < l ∧ l ≤ data.length := by
  unfold getLength at h
  cases data with
  | nil => cases h
  | cons ch rest =>
    dsimp only at h
    split at h
    · split at h
      · cases h
        simp only [List.length_cons]
        omega
      · cases h
    · cases h
      simp only [List.length_cons]
      omega

variable {off : Size} {pair : FcgiPair}

theorem nextParam_advances {params : Params} {next : Size}
    (h : fcgiCliNextParam params.val off = .again pair next) :
    params.val.length - next.toNat < params.val.length - off.toNat := by
  have hlen := params.length_lt
  unfold fcgiCliNextParam at h
  split at h
  · cases h
  · rename_i hoff
    dsimp only at h
    split at h
    · cases h
    · rename_i keylen l0 hkey
      split at h
      · cases h
      · rename_i valuelen l1 hvalue
        split at h
        · cases h
        · rename_i hleft
          cases h
          have hl0 := getLength_le hkey
          have hl1 := getLength_le hvalue
          rw [List.length_drop] at hl0 hl1 hleft
          rw [List.length_drop] at hl1
          have hsum : (off + (BitVec.ofNat 64 (l0 + l1) + keylen + valuelen)).toNat =
              off.toNat + (l0 + l1) + (keylen + valuelen).toNat := by
            rw [BitVec.add_assoc (BitVec.ofNat 64 (l0 + l1)), BitVec.toNat_add, BitVec.toNat_add,
              toNat_ofNat_size (by omega), Nat.add_mod_mod, ← Nat.add_assoc]
            exact Nat.mod_eq_of_lt (by omega)
          rw [hsum]
          omega

/-- The loop over the parameters, with `cgi_path` and the entries so far. What
follows the parameters in memory is `beyond`. -/
def setupLoop (params : Params) (beyond : Bytes) (off : Size) (cgiPath : Bytes)
    (envp : List Bytes) : Except CgiErr (Bytes × List Bytes) :=
  match _hnext : fcgiCliNextParam params.val off with
  | .ok => .ok (cgiPath, envp)
  | .again pair next =>
    let mem := params.val ++ beyond
    if IsRequestUri mem pair then
      if (pathOf mem pair).length > cgipathMax - 1 then .error .invalidpath
      else
        let cgiPath := cleanpath (pathOf mem pair)
        setupLoop params beyond next cgiPath (envp ++ [envEntry mem pair])
    else setupLoop params beyond next cgiPath (envp ++ [envEntry mem pair])
termination_by params.val.length - off.toNat
decreasing_by
  · exact nextParam_advances _hnext
  · exact nextParam_advances _hnext

/-- The result of `setup_cgi_env`, and the path it opened. -/
structure Setup where
  result : Except CgiErr CgiEnv
  opened : Option Bytes

def setupCgiEnv (files : Files) (cgidir : Bytes) (params : Params) (beyond : Bytes) : Setup :=
  match setupLoop params beyond 0 [] [] with
  | .error err => ⟨.error err, none⟩
  | .ok (cgiPath, envp) =>
    if byteAt cgiPath 0 ≠ slash then ⟨.error .invalidpath, none⟩
    else
      let fullCgiPath := snprintf cgipathMax (cgidir ++ cgiPath)
      match files.openFile fullCgiPath with
      | none => ⟨.error .cannotOpen, some fullCgiPath⟩
      | some cgifd =>
        if files.fdisfile cgifd then ⟨.ok ⟨fullCgiPath, cgifd, envp⟩, some fullCgiPath⟩
        else ⟨.error .cannotOpen, some fullCgiPath⟩

/-- The pairs that `fcgi_cli_next_param` finds from an offset on. -/
def pairsFrom (params : Params) (off : Size) : List FcgiPair :=
  match _hnext : fcgiCliNextParam params.val off with
  | .ok => []
  | .again pair next => pair :: pairsFrom params next
termination_by params.val.length - off.toNat
decreasing_by exact nextParam_advances _hnext

theorem pairsFrom_again {params : Params} {next : Size}
    (h : fcgiCliNextParam params.val off = .again pair next) :
    pairsFrom params off = pair :: pairsFrom params next := by
  rw [pairsFrom]
  split
  · rename_i hok
    exact absurd (h.symm.trans hok) NextParam.noConfusion
  · rename_i pair' next' hagain
    cases h.symm.trans hagain
    rfl

theorem pairsFrom_end {params : Params}
    (h : fcgiCliNextParam params.val off = .ok) : pairsFrom params off = [] := by
  rw [pairsFrom]
  split
  · rfl
  · rename_i hagain
    exact absurd (h.symm.trans hagain) NextParam.noConfusion

def urisOf (mem : Bytes) (pairs : List FcgiPair) : List Bytes :=
  (pairs.filter fun pair => decide (IsRequestUri mem pair)).map (pathOf mem)

theorem urisOf_cons_pos {mem : Bytes} (pairs : List FcgiPair)
    (h : IsRequestUri mem pair) : urisOf mem (pair :: pairs) = pathOf mem pair :: urisOf mem pairs := by
  unfold urisOf
  rw [List.filter_cons_of_pos (by rw [decide_eq_true_eq]; exact h), List.map_cons]

theorem urisOf_cons_neg {mem : Bytes} (pairs : List FcgiPair)
    (h : ¬ IsRequestUri mem pair) : urisOf mem (pair :: pairs) = urisOf mem pairs := by
  unfold urisOf
  rw [List.filter_cons_of_neg (by rw [decide_eq_true_eq]; exact h)]

/-- The paths that a client asks for, one for each parameter that names one. -/
def requestUris (params : Params) (beyond : Bytes) : List Bytes :=
  urisOf (params.val ++ beyond) (pairsFrom params 0)

theorem setupLoop_eq (params : Params) (beyond : Bytes) (off : Size) (cgiPath : Bytes)
    (envp : List Bytes) :
    setupLoop params beyond off cgiPath envp =
      if ∀ uri ∈ urisOf (params.val ++ beyond) (pairsFrom params off), uri.length ≤ cgipathMax - 1 then
        .ok (((urisOf (params.val ++ beyond) (pairsFrom params off)).getLast?.map cleanpath).getD cgiPath,
          envp ++ (pairsFrom params off).map (envEntry (params.val ++ beyond)))
      else .error .invalidpath := by
  fun_induction setupLoop params beyond off cgiPath envp with
  | case1 off cgiPath envp hnext =>
    rw [pairsFrom_end hnext, if_pos nofun, List.map_nil, List.append_nil]
    rfl
  | case2 off cgiPath envp pair next hnext mem huri hlong =>
    rw [pairsFrom_again hnext, urisOf_cons_pos _ huri, if_neg]
    exact fun hall => Nat.not_le_of_lt hlong (hall _ List.mem_cons_self)
  | case3 off cgiPath envp pair next hnext mem huri hfits cgiPath' ih =>
    have hfirst : (pathOf mem pair).length ≤ cgipathMax - 1 := Nat.le_of_not_lt hfits
    have hlast : ∀ uris : List Bytes, ((pathOf mem pair :: uris).getLast?.map cleanpath).getD cgiPath =
        (uris.getLast?.map cleanpath).getD cgiPath' := by
      intro uris
      rw [List.getLast?_cons]
      cases uris.getLast? with
      | none => rfl
      | some uri => rfl
    rw [ih, pairsFrom_again hnext, urisOf_cons_pos _ huri, List.map_cons, List.append_assoc, hlast]
    simp only [List.forall_mem_cons, hfirst, true_and]
    rfl
  | case4 off cgiPath envp pair next hnext mem huri ih =>
    rw [ih, pairsFrom_again hnext, urisOf_cons_neg _ huri, List.map_cons, List.append_assoc]
    rfl

def OpensCleaned (cgidir uri path : Bytes) : Prop :=
  path = cgidir ++ clean slash dot uri ∧
    ∀ name ∈ components slash (clean slash dot uri), name ≠ [dot, dot]

structure Requested (params : Params) (beyond uri : Bytes) : Prop where
  last : (requestUris params beyond).getLast? = some uri
  short : ∀ other ∈ requestUris params beyond, other.length ≤ cgipathMax - 1
  isRooted : isRooted slash uri = true

/-- The directory and the path are not cut. A path with a NUL byte is cut there
before it is cleaned. -/
def Fits (cgidir uri : Bytes) : Prop :=
  clean slash dot (cstring uri) = clean slash dot uri ∧
      cgidir.length + (clean slash dot uri).length ≤ cgipathMax - 1 ∨
    clean slash dot uri <+: clean slash dot (cstring uri) ∧
      cgidir.length + (clean slash dot uri).length = cgipathMax - 1

theorem take_append_eq_iff {α : Type*} (n : ℕ) (front cut whole : List α) :
    (front ++ cut).take n = front ++ whole ↔
      cut = whole ∧ front.length + whole.length ≤ n ∨
        whole <+: cut ∧ front.length + whole.length = n := by
  constructor
  · intro h
    have hfront : whole <+: cut := by
      rw [← List.prefix_append_right_inj front, ← h]
      exact List.take_prefix _ _
    have hlen := congrArg List.length h
    rw [List.length_take, List.length_append, List.length_append] at hlen
    by_cases hfits : front.length + cut.length ≤ n
    · refine .inl ⟨(hfront.eq_of_length (by omega)).symm, by omega⟩
    · exact .inr ⟨hfront, by omega⟩
  · rintro (⟨rfl, hle⟩ | ⟨⟨rest, rfl⟩, heq⟩)
    · rw [List.take_of_length_le (by rwa [List.length_append])]
    · rw [← List.append_assoc, ← heq, ← List.length_append, List.take_left]

variable (files : Files) (cgidir : Bytes) (params : Params) (beyond : Bytes)

theorem isRooted_cstring (uri : Bytes) : isRooted slash (cstring uri) = isRooted slash uri := by
  cases uri with
  | nil => rfl
  | cons ch uri =>
    rw [cstring_cons]
    by_cases hzero : ch = 0
    · subst hzero
      rfl
    · rw [if_neg hzero]
      rfl

theorem byteAt_zero_iff (path : Bytes) : byteAt path 0 = slash ↔ isRooted slash path = true := by
  unfold isRooted
  rw [decide_eq_true_eq]
  cases path with
  | nil => exact iff_of_false (by decide) nofun
  | cons ch path =>
    rw [List.head?_cons, Option.some.injEq]
    exact Iff.rfl

theorem setupCgiEnv_opened :
    (setupCgiEnv files cgidir params beyond).opened =
      if ∀ uri ∈ requestUris params beyond, uri.length ≤ cgipathMax - 1 then
        ((requestUris params beyond).getLast?.filter (isRooted slash)).map
          fun uri => (cgidir ++ clean slash dot (cstring uri)).take (cgipathMax - 1)
      else none := by
  unfold setupCgiEnv requestUris
  rw [setupLoop_eq]
  by_cases hshort : ∀ uri ∈ urisOf (params.val ++ beyond) (pairsFrom params 0),
      uri.length ≤ cgipathMax - 1
  · rw [if_pos hshort, if_pos hshort]
    dsimp only
    cases (urisOf (params.val ++ beyond) (pairsFrom params 0)).getLast? with
    | none => rfl
    | some uri =>
      have hslash : byteAt (clean slash dot (cstring uri)) 0 = slash ↔ isRooted slash uri = true := by
        rw [byteAt_zero_iff, isRooted_clean _ slash_ne_dot, isRooted_cstring]
      rw [Option.map_some, Option.getD_some, Option.filter_some, cleanpath_eq]
      cases hrooted : isRooted slash uri with
      | false =>
        rw [if_pos fun h => Bool.noConfusion (hrooted.symm.trans (hslash.mp h))]
        rfl
      | true =>
        rw [if_neg (not_not.mpr (hslash.mpr hrooted)), if_pos rfl]
        split
        · rfl
        · split
          · rfl
          · rfl
  · rw [if_neg hshort, if_neg hshort]

theorem opened_eq_some_iff (path : Bytes) :
    (setupCgiEnv files cgidir params beyond).opened = some path ↔
      ∃ uri, Requested params beyond uri ∧
        (cgidir ++ clean slash dot (cstring uri)).take (cgipathMax - 1) = path := by
  rw [setupCgiEnv_opened]
  constructor
  · intro h
    split at h
    · rename_i hshort
      obtain ⟨uri, huri, hpath⟩ := Option.map_eq_some_iff.mp h
      obtain ⟨hlast, hrooted⟩ := Option.filter_eq_some_iff.mp huri
      exact ⟨uri, ⟨hlast, hshort, hrooted⟩, hpath⟩
    · cases h
  · rintro ⟨uri, hrequested, rfl⟩
    rw [if_pos hrequested.short, hrequested.last, Option.filter_some, hrequested.isRooted]
    rfl

/-- A file is opened under the cleaned path of the request exactly when nothing of
it had to be cut. -/
theorem opens_cleaned_iff :
    (∀ path ∈ (setupCgiEnv files cgidir params beyond).opened,
        ∃ uri ∈ (requestUris params beyond).getLast?, OpensCleaned cgidir uri path) ↔
      ∀ uri, Requested params beyond uri → Fits cgidir uri := by
  have hfits : ∀ {uri : Bytes}, Requested params beyond uri →
      (OpensCleaned cgidir uri ((cgidir ++ clean slash dot (cstring uri)).take (cgipathMax - 1)) ↔
        Fits cgidir uri) := by
    intro uri hrequested
    unfold OpensCleaned Fits
    rw [take_append_eq_iff, and_iff_left]
    exact fun name hname => (components_clean slash_ne_dot hrequested.isRooted name hname).2
  constructor
  · intro h uri hrequested
    obtain ⟨other, hother, hopens⟩ := h _
      ((opened_eq_some_iff files cgidir params beyond _).mpr ⟨uri, hrequested, rfl⟩)
    rw [hrequested.last, Option.mem_some_iff] at hother
    subst hother
    exact (hfits hrequested).mp hopens
  · intro h path hpath
    obtain ⟨uri, hrequested, rfl⟩ := (opened_eq_some_iff files cgidir params beyond path).mp hpath
    exact ⟨uri, hrequested.last, (hfits hrequested).mpr (h uri hrequested)⟩

def longCgidir : Bytes := slash :: List.replicate 249 100

def indexParams : Params := ⟨encodePairs [(requestUri, ascii "/index")], by decide⟩

theorem requested_index : Requested indexParams [] (ascii "/index") := by
  have hpairs : pairsFrom indexParams 0 = [⟨2, 11, 13, 6⟩] := by
    have hfirst : fcgiCliNextParam indexParams.val 0 = .again ⟨2, 11, 13, 6⟩ 19 := by decide
    have hend : fcgiCliNextParam indexParams.val 19 = .ok := by decide
    rw [pairsFrom_again hfirst, pairsFrom_end hend]
  have huris : requestUris indexParams [] = [ascii "/index"] := by
    unfold requestUris
    rw [hpairs]
    decide
  refine ⟨?_, ?_, by decide⟩
  · rw [huris]
    rfl
  · rw [huris]
    decide

/-- With a directory of 250 bytes, `/index` loses its last letter. -/
theorem opens_cut_path :
    ¬ ∀ (files : Files) (cgidir : Bytes) (params : Params) (beyond : Bytes),
      ∀ path ∈ (setupCgiEnv files cgidir params beyond).opened,
        ∃ uri ∈ (requestUris params beyond).getLast?, OpensCleaned cgidir uri path := by
  intro h
  obtain ⟨uri, huri, hpath, -⟩ := h ⟨fun _ => some 3, fun _ => true⟩ longCgidir indexParams [] _
    ((opened_eq_some_iff _ _ _ _ _).mpr ⟨_, requested_index, rfl⟩)
  rw [requested_index.last, Option.mem_some_iff] at huri
  subst huri
  revert hpath
  set_option maxRecDepth 4000 in decide

end Yans.Apps.Fc2
