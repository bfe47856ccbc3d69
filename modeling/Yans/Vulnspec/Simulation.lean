import Mathlib.Data.List.Find
import Yans.Vulnspec.ParserState
import Yans.Vulnspec.Sketch

/-! The parser does what the sketch does, whatever earlier calls left in its
string table, its version type and its buffer and whatever lies behind its
strings, as long as the text looks up none of the strings that were left, no
two with zeros in them that agree up to the first, and reads no version outside
of `nalpha` with another version type in force. -/
namespace Yans.Vulnspec

open Library.Memory Library.Computations Library.Computations.Computation Util Util.Objtbl
  Util.TableSize

/-- What earlier calls left, and what the memory holds behind the strings. -/
structure Leftover where
  behind : Bytes → Bytes
  strings : List StrtabEntry
  vtype : VersionType
  memory : Bytes

/-- The version type of the parser; outside of `nalpha` it is the one that was
left. -/
def Leftover.vtypeOf (left : Leftover) : VersionType → VersionType
  | .vvague => left.vtype
  | vtype => vtype

structure Untouched (left : Leftover) (s : Sketch) : Prop where
  looked : ∀ text ∈ s.looked, ∀ entry ∈ left.strings,
    entry.str ≠ text.takeWhile (· ≠ 0) ++ [0]
  separate : left.behind = bare ∨ s.looked.Pairwise Separate
  room : s.looked ≠ [] → left.strings.length + 2 ^ 29 ≤ maxKeys
  vague : s.vague = true → left.vtype = .vvague

structure Conforms (left : Leftover) (s : Sketch) (p : Parser) : Prop where
  delivers : Delivers p.r s.words
  vtype : p.vtype = left.vtypeOf s.vtype
  strtab : ∃ kept : List StrtabEntry, kept.Sublist left.strings ∧
    Represents (copyHashing left.behind) p.strtab (s.strings ++ kept)
  origin : ∀ entry ∈ s.strings, ∃ text ∈ s.looked, MadeFor entry text
  len : p.progn.len = s.len
  aligned : s.len % 8 = 0
  count : 8 * s.strings.length ≤ s.len
  bytes : ∀ i, byteAt p.progn.data i = (s.written i).getD (byteAt left.memory i)

abbrev Follows (left : Leftover) {α : Type} (m : SketchM α) (m' : ParserM α) : Prop :=
  Simulates (Conforms left) (Untouched left) m m'

section Rules

variable {left : Leftover} {α β : Type}

theorem parserM_bind (m : ParserM α) (f : α → ParserM β) :
    m >>= f = Library.Computations.Computation.bind m f := by
  funext p
  change ParserM.bind m f p = Library.Computations.Computation.bind m f p
  unfold ParserM.bind Library.Computations.Computation.bind
  cases m p with
  | none => rfl
  | some reply =>
    obtain ⟨outcome, p'⟩ := reply
    cases outcome <;> rfl

theorem Follows.bind {m : SketchM α} {m' : ParserM α} {f : α → SketchM β} {f' : α → ParserM β}
    (h : Follows left m m') (h' : ∀ a, Follows left (f a) (f' a)) :
    Follows left (m >>= f) (m' >>= f') := by
  rw [parserM_bind]
  exact Simulates.bind h h'

theorem Follows.pure (a : α) : Follows left (Pure.pure a) (Pure.pure a) := Simulates.pure a

theorem Follows.bail (err : Code) :
    Follows left (Computation.bail err : SketchM α) (ParserM.bail err) :=
  Simulates.bail err

end Rules

section Reading

variable {left : Leftover} {α β : Type}

theorem Conforms.read {s : Sketch} {p : Parser} (h : Conforms left s p) {words : List Word}
    {r : Reader} (hdelivers : Delivers r words) :
    Conforms left { s with words := words } { p with r := r } :=
  { h with delivers := hdelivers }

theorem follows_readToken : Follows left SketchM.readToken ParserM.readToken := by
  intro s result s' h huntouched
  unfold SketchM.readToken at h
  split at h
  · rename_i hwords
    cases h
    refine ⟨huntouched, fun p hp => ?_⟩
    obtain ⟨r, hread, hrest⟩ := (hwords ▸ hp.delivers).read_nil
    refine ⟨{ p with r := r }, ?_, { hp with delivers := hwords ▸ hrest }⟩
    unfold ParserM.readToken
    rw [hread]
  · rename_i word words hwords
    cases h
    refine ⟨{ huntouched with }, fun p hp => ?_⟩
    obtain ⟨r, hread, -, hrest⟩ := (hwords ▸ hp.delivers).read_cons
    refine ⟨{ p with r := r }, ?_, hp.read hrest⟩
    unfold ParserM.readToken
    rw [hread]

theorem expect_of_read {t token : Token} {p : Parser} {r : Reader}
    (h : vulnspecReadToken p.r = (token, r)) : ParserM.expect t p =
      some (if token = t then .ok () else .error .eunexpectedToken, { p with r := r }) := by
  have hread : ParserM.readToken p = some (.ok token, { p with r := r }) := by
    unfold ParserM.readToken
    rw [h]
  refine (congrFun (parserM_bind _ _) p).trans ((bind_of_ok hread).trans ?_)
  unfold ParserM.failIf
  by_cases htoken : token = t
  · rw [if_neg (not_not.mpr htoken), if_pos htoken]
    rfl
  · rw [if_pos htoken, if_neg htoken]
    rfl

structure Views (t : Token) (test : Word → Option α) (view : Reader → α) : Prop where
  not_eof : t ≠ .teof
  accepts : ∀ r word, wordOf r t = some word → test word = some (view r)
  rejects : ∀ word, word.token ≠ t → test word = none

def expectView (t : Token) (view : Reader → α) : ParserM α := fun p =>
  match ParserM.expect t p with
  | none => none
  | some (.error err, p) => some (.error err, p)
  | some (.ok (), p) => some (.ok (view p.r), p)

theorem follows_take {t : Token} {test : Word → Option α} {view : Reader → α}
    (hviews : Views t test view) : Follows left (SketchM.take test) (expectView t view) := by
  intro s result s' h huntouched
  unfold SketchM.take at h
  split at h
  · rename_i hwords
    cases h
    refine ⟨huntouched, fun p hp => ?_⟩
    obtain ⟨r, hread, hrest⟩ := (hwords ▸ hp.delivers).read_nil
    refine ⟨{ p with r := r }, ?_, { hp with delivers := hwords ▸ hrest }⟩
    unfold expectView
    rw [expect_of_read hread, if_neg hviews.not_eof.symm]
  · rename_i word words hwords
    have hstep : ∀ p, Conforms left s p → ∃ r, expectView t view p =
        some (if word.token = t then .ok (view r) else .error .eunexpectedToken,
          { p with r := r }) ∧ wordOf r word.token = some word ∧
        Conforms left { s with words := words } { p with r := r } := by
      intro p hp
      obtain ⟨r, hread, hpayload, hrest⟩ := (hwords ▸ hp.delivers).read_cons
      refine ⟨r, ?_, hpayload, hp.read hrest⟩
      unfold expectView
      rw [expect_of_read hread]
      by_cases htoken : word.token = t <;> simp [htoken]
    split at h
    · rename_i hreject
      cases h
      refine ⟨{ huntouched with }, fun p hp => ?_⟩
      obtain ⟨r, hrun, hpayload, hconforms⟩ := hstep p hp
      refine ⟨_, ?_, hconforms⟩
      rw [hrun, if_neg]
      intro htoken
      rw [hviews.accepts r word (htoken ▸ hpayload)] at hreject
      contradiction
    · rename_i a haccept
      cases h
      refine ⟨{ huntouched with }, fun p hp => ?_⟩
      obtain ⟨r, hrun, hpayload, hconforms⟩ := hstep p hp
      have htoken : word.token = t := by
        by_contra hother
        rw [hviews.rejects word hother] at haccept
        contradiction
      refine ⟨_, ?_, hconforms⟩
      rw [hviews.accepts r word (htoken ▸ hpayload)] at haccept
      rw [hrun, if_pos htoken, Option.some.inj haccept]

theorem expectView_unit (t : Token) : expectView t (fun _ => ()) = ParserM.expect t := by
  funext p
  unfold expectView
  cases hrun : ParserM.expect t p with
  | none => rfl
  | some reply =>
    obtain ⟨outcome, p'⟩ := reply
    cases outcome <;> rfl

theorem expectView_bind (t : Token) (view : Reader → α) (f : α → ParserM β) :
    (do ParserM.expect t; let p ← ParserM.get; f (view p.r)) = expectView t view >>= f := by
  funext p
  refine (congrFun (parserM_bind _ _) p).trans (.trans ?_ (congrFun (parserM_bind _ _) p).symm)
  unfold Library.Computations.Computation.bind expectView
  cases hrun : ParserM.expect t p with
  | none => rfl
  | some reply =>
    obtain ⟨outcome, p'⟩ := reply
    cases outcome <;> rfl

theorem readSymbol_eq :
    ParserM.readSymbol = expectView .tsymbol fun r => ParserM.symbol2node r.symbol := by
  funext p
  unfold ParserM.readSymbol expectView
  rw [parserM_bind]
  obtain ⟨⟨token, r⟩, hread⟩ : ∃ read, vulnspecReadToken p.r = read := ⟨_, rfl⟩
  have htoken : ParserM.readToken p = some (.ok token, { p with r := r }) := by
    unfold ParserM.readToken
    rw [hread]
  refine (bind_of_ok htoken).trans ?_
  rw [expect_of_read hread]
  unfold ParserM.failIf
  by_cases hsymbol : token = .tsymbol
  · rw [if_neg (not_not.mpr hsymbol), if_pos hsymbol]
    rfl
  · rw [if_pos hsymbol, if_neg hsymbol]
    rfl

theorem follows_expect {t : Token} (ht : t ≠ .teof) :
    Follows left (SketchM.expect t) (ParserM.expect t) := by
  rw [← expectView_unit]
  apply follows_take
  refine ⟨ht, ?_, ?_⟩
  · intro r word hword
    exact if_pos (token_of_wordOf hword)
  · intro word hother
    exact if_neg hother

theorem follows_readText : Follows left SketchM.readText
    (expectView .tstring vulnspecReaderString) := by
  apply follows_take
  refine ⟨Token.noConfusion, ?_, ?_⟩
  · intro r word hword
    cases hword
    rfl
  · intro word hother
    cases word <;> first | rfl | exact absurd rfl hother

theorem follows_readNum : Follows left SketchM.readNum (expectView .tdouble Reader.num) := by
  apply follows_take
  refine ⟨Token.noConfusion, ?_, ?_⟩
  · intro r word hword
    cases hword
    rfl
  · intro word hother
    cases word <;> first | rfl | exact absurd rfl hother

theorem symbol2node_takeWhile (symbol : Bytes) :
    ParserM.symbol2node (symbol.takeWhile (· ≠ 0)) = ParserM.symbol2node symbol := by
  unfold ParserM.symbol2node
  rw [List.takeWhile_idem]

theorem follows_readSymbol : Follows left SketchM.readSymbol ParserM.readSymbol := by
  rw [readSymbol_eq]
  apply follows_take
  refine ⟨Token.noConfusion, ?_, ?_⟩
  · intro r word hword
    cases hword
    exact congrArg some (symbol2node_takeWhile r.symbol)
  · intro word hother
    cases word <;> first | rfl | exact absurd rfl hother

end Reading

section Vtype

variable {left : Leftover} {α β : Type}

def withVtype (f : VersionType → ParserM α) : ParserM α := ParserM.get >>= fun p => f p.vtype

theorem follows_vtype {f : VersionType → SketchM α} {f' : VersionType → ParserM α}
    (h : ∀ vtype, Follows left (f vtype) (f' (left.vtypeOf vtype))) :
    Follows left (SketchM.vtype >>= f) (withVtype f') := by
  intro s result s' hrun huntouched
  obtain ⟨hstart, hsim⟩ := h s.vtype s result s' hrun huntouched
  refine ⟨hstart, fun p hp => ?_⟩
  have hp' := hsim p hp
  rw [← hp.vtype] at hp'
  exact hp'

theorem follows_setVtype (vtype : VersionType) :
    Follows left (SketchM.setVtype vtype) (ParserM.setVtype (left.vtypeOf vtype)) := by
  intro s result s' h huntouched
  cases h
  refine ⟨{ huntouched with }, fun p hp => ?_⟩
  exact ⟨_, rfl, { hp with vtype := rfl }⟩

theorem follows_versionRead {m : SketchM α} {m' : ParserM α} (h : Follows left m m') :
    Follows left (SketchM.versionRead >>= fun _ => m) m' := by
  intro s result s' hrun huntouched
  obtain ⟨hstart, hsim⟩ := h { s with vague := true } result s' hrun huntouched
  refine ⟨{ hstart with vague := fun _ => hstart.vague rfl }, fun p hp => ?_⟩
  exact hsim p { hp with }

theorem follows_versionRead_left (hleft : left.vtype ≠ .vvague) {m : SketchM α}
    {m' : ParserM α} (h : Follows left m m') (other : ParserM α) :
    Follows left (SketchM.versionRead >>= fun _ => m) other := by
  intro s result s' hrun huntouched
  obtain ⟨hstart, -⟩ := h { s with vague := true } result s' hrun huntouched
  exact absurd (hstart.vague rfl) hleft

end Vtype

section Memory

variable {left : Leftover}

theorem prognAlloc_eq (p : Parser) {n : ℕ} (hn : n ≠ 0) : ∃ progn,
    ParserM.prognAlloc n p =
      some (if p.progn.len > uint32Max then .error .emalloc else .ok p.progn.len,
        { p with progn := progn }) ∧
      progn.len = Buf.alignOffset (p.progn.len + n) ∧
      ∀ i, byteAt progn.data i = byteAt p.progn.data i := by
  obtain ⟨allocated, halloc, hallocated, hbytes⟩ := @Buf.alloc_eq p.progn n hn
  refine ⟨allocated.align, ?_, ?_, ?_⟩
  · unfold ParserM.prognAlloc vulnspecPrognAlloc
    rw [halloc]
    by_cases hfull : p.progn.len > uint32Max <;> simp [hfull]
  · rw [← hallocated]
    rfl
  · intro i
    rw [Buf.byteAt_align, hbytes]

theorem Conforms.grow {s : Sketch} {p : Parser} (h : Conforms left s p) {n : ℕ} {progn : Buf}
    (hlen : progn.len = Buf.alignOffset (p.progn.len + n))
    (hbytes : ∀ i, byteAt progn.data i = byteAt p.progn.data i) :
    Conforms left { s with len := Buf.alignOffset (s.len + n) } { p with progn := progn } := by
  have hgrows := (Buf.le_alignOffset (s.len + n)).1
  have hcount := h.count
  refine { h with len := ?_, aligned := Buf.alignOffset_mod _, count := ?_, bytes := ?_ }
  · rw [← h.len]
    exact hlen
  · dsimp only
    omega
  · intro i
    exact (hbytes i).trans (h.bytes i)

theorem follows_alloc {n : ℕ} (hn : n ≠ 0) :
    Follows left (SketchM.alloc n) (ParserM.prognAlloc n) := by
  intro s result s' h huntouched
  have hstep : ∀ p, Conforms left s p → ∃ p', ParserM.prognAlloc n p =
      some (if s.len > uint32Max then .error .emalloc else .ok s.len, p') ∧
      Conforms left { s with len := Buf.alignOffset (s.len + n) } p' := by
    intro p hp
    obtain ⟨progn, halloc, hlen, hbytes⟩ := prognAlloc_eq p hn
    rw [hp.len] at halloc
    exact ⟨_, halloc, hp.grow hlen hbytes⟩
  unfold SketchM.alloc at h
  split at h
  · rename_i hfull
    cases h
    refine ⟨{ huntouched with }, fun p hp => ?_⟩
    obtain ⟨p', hrun, hp'⟩ := hstep p hp
    rw [if_pos hfull] at hrun
    exact ⟨p', hrun, hp'⟩
  · rename_i hroom
    cases h
    refine ⟨{ huntouched with }, fun p hp => ?_⟩
    obtain ⟨p', hrun, hp'⟩ := hstep p hp
    rw [if_neg hroom] at hrun
    exact ⟨p', hrun, hp'⟩

theorem written_cons (s : Sketch) (off : ℕ) (bytes : Bytes) (i : ℕ) :
    ({ s with writes := (off, bytes) :: s.writes } : Sketch).written i =
      if off ≤ i ∧ i < off + bytes.length then some (byteAt bytes (i - off)) else s.written i := by
  unfold Sketch.written
  rw [List.find?_cons]
  by_cases hin : off ≤ i ∧ i < off + bytes.length <;> simp [hin]

theorem Conforms.store {s : Sketch} {p : Parser} (h : Conforms left s p) {off : ℕ}
    {bytes : Bytes} (hrange : off + bytes.length ≤ s.len) :
    Conforms left { s with writes := (off, bytes) :: s.writes }
      { p with progn := p.progn.store off bytes } := by
  refine { h with len := h.len, bytes := ?_ }
  intro i
  rw [written_cons, Buf.byteAt_store (by rw [h.len]; exact hrange), h.bytes]
  split <;> rfl

theorem follows_storeBytes (off : ℕ) (bytes : Bytes) :
    Follows left (SketchM.storeBytes off bytes) (ParserM.storeBytes off bytes) := by
  intro s result s' h huntouched
  unfold SketchM.storeBytes at h
  split at h
  · rename_i hrange
    cases h
    refine ⟨{ huntouched with }, fun p hp => ?_⟩
    exact ⟨_, rfl, hp.store hrange⟩
  · contradiction

theorem follows_storeWords (off : ℕ) (words : List ℕ) :
    Follows left (SketchM.storeWords off words) (ParserM.storeWords off words) :=
  follows_storeBytes off _

end Memory

section Strings

variable {left : Leftover} {α : Type}

/-- What `loads` does with a string that the table does not have. -/
def newString (text : Bytes) : ParserM Cvalue := do
  let val ← ParserM.prognAlloc (keyOf text).len
  ParserM.storeBytes val (keyOf text).str
  let ent := strtabNew (keyOf text).str (keyOf text).len val
  let ret ← ParserM.strtabInsert ent
  ParserM.failIf (ret ≠ .ok) .estrtab
  return ParserM.cvalueOf ent

variable {p : Parser} {text : Bytes}

theorem newString_of_full {p' : Parser}
    (halloc : ParserM.prognAlloc (keyOf text).len p = some (.error .emalloc, p')) :
    newString text p = some (.error .emalloc, p') := by
  exact (congrFun (parserM_bind _ _) p).trans (bind_of_error halloc)

theorem newString_of_room {p' : Parser} {val : ℕ}
    {strtab : ObjtblCtx StrtabEntry}
    (halloc : ParserM.prognAlloc (keyOf text).len p = some (.ok val, p'))
    (hinsert : objtblInsert p'.strtab
      (some (strtabNew (keyOf text).str (keyOf text).len val)) = some (.ok, strtab)) :
    newString text p = some (.ok (ParserM.cvalueOf
        (strtabNew (keyOf text).str (keyOf text).len val)),
      { p' with progn := p'.progn.store val (keyOf text).str, strtab := strtab }) := by
  have hrun : Runs (newString text) p _ _ :=
    Runs.bind halloc ((runs_storeBytes _ _).bind
      ((@runs_strtabInsert { p' with progn := p'.progn.store val (keyOf text).str } _ _ _ hinsert).bind
        ((runs_failIf (not_not.mpr rfl) _ _).bind (runs_pure _ _))))
  exact hrun

variable {ent : StrtabEntry}

theorem liveInsert_append {behind : Bytes → Bytes} (hent : IsCopy ent)
    {strings : List StrtabEntry} (hcopies : ∀ entry ∈ strings, IsCopy entry)
    (kept : List StrtabEntry) :
    (copyHashing behind).liveInsert ent (strings ++ kept) =
      (copyHashing bare).liveInsert ent strings ++
        kept.filter fun other => !(copyHashing behind).same ent other := by
  have hsame : strings.filter (fun other => !(copyHashing behind).same ent other) =
      strings.filter fun other => !(copyHashing bare).same ent other := by
    apply List.filter_congr
    intro entry hentry
    rw [same_copy hent (hcopies entry hentry), same_copy hent (hcopies entry hentry)]
  rw [Hashing.liveInsert, Hashing.liveInsert, List.filter_append, hsame, List.cons_append]

variable {s : Sketch}

theorem Conforms.insert (h : Conforms left s p)
    (hroom : left.strings.length + 2 ^ 29 ≤ maxKeys) (hfew : s.strings.length < 2 ^ 29) (hent : IsCopy ent) :
    ∃ strtab, objtblInsert p.strtab (some ent) = some (.ok, strtab) ∧
      ∃ kept : List StrtabEntry, kept.Sublist left.strings ∧
        Represents (copyHashing left.behind) strtab
          ((copyHashing bare).liveInsert ent s.strings ++ kept) := by
  obtain ⟨kept, hkept, hrep⟩ := h.strtab
  have hlength := hkept.length_le
  obtain ⟨hfull, -⟩ | ⟨-, strtab, hinsert, hafter⟩ := hrep.objtblInsert_spec hent
  · rw [List.length_append] at hfull
    omega
  · rw [liveInsert_append hent fun entry hentry =>
      hrep.live_valid entry (List.mem_append_left _ hentry)] at hafter
    exact ⟨strtab, hinsert, _, List.filter_sublist.trans hkept, hafter⟩

theorem length_liveInsert_le (ent : StrtabEntry) (strings : List StrtabEntry) :
    ((copyHashing bare).liveInsert ent strings).length ≤ strings.length + 1 := by
  unfold Hashing.liveInsert
  rw [List.length_cons]
  exact Nat.succ_le_succ (List.length_filter_le _ _)

theorem alignOffset_add_le {len n : ℕ} (haligned : len % 8 = 0) (hn : n ≠ 0) :
    len + 8 ≤ Buf.alignOffset (len + n) := by
  unfold Buf.alignOffset Buf.alignment
  omega

theorem length_keyOf (text : Bytes) : (keyOf text).str.length = (keyOf text).len := rfl

theorem keyOf_len_ne_zero (text : Bytes) : (keyOf text).len ≠ 0 := by
  simp [keyOf]

theorem addString_eq (text : Bytes) (s : Sketch) : SketchM.addString text s = some
    (if s.len > uint32Max then
      (.error .emalloc, { s with len := Buf.alignOffset (s.len + (keyOf text).len) })
    else
      (.ok (ParserM.cvalueOf (strtabNew (keyOf text).str (keyOf text).len s.len)),
        { s with
          len := Buf.alignOffset (s.len + (keyOf text).len)
          writes := (s.len, (keyOf text).str) :: s.writes
          strings := (copyHashing bare).liveInsert
            (strtabNew (keyOf text).str (keyOf text).len s.len) s.strings })) := by
  have hfits := (Buf.le_alignOffset (s.len + (keyOf text).len)).1
  by_cases hfull : s.len > uint32Max
  · have halloc : SketchM.alloc (keyOf text).len s = some (.error .emalloc, _) := if_pos hfull
    rw [if_pos hfull]
    exact bind_of_error halloc
  · have halloc : SketchM.alloc (keyOf text).len s = some (.ok s.len, _) := if_neg hfull
    have hstore : SketchM.storeBytes s.len (keyOf text).str
        { s with len := Buf.alignOffset (s.len + (keyOf text).len) } = some (.ok (), _) :=
      if_pos (by rw [length_keyOf]; exact hfits)
    rw [if_neg hfull]
    exact (bind_of_ok halloc).trans (bind_of_ok hstore)

theorem follows_addString {result : Except Code Cvalue} {s' : Sketch} (hlooked : text ∈ s.looked)
    (h : SketchM.addString text s = some (result, s')) (huntouched : Untouched left s') :
    Untouched left s ∧ ∀ p, Conforms left s p →
      ∃ p', newString text p = some (result, p') ∧ Conforms left s' p' := by
  have hn := keyOf_len_ne_zero text
  rw [addString_eq] at h
  split at h
  · rename_i hfull
    cases h
    refine ⟨{ huntouched with }, fun p hp => ?_⟩
    obtain ⟨progn, halloc, hlen, hbytes⟩ := prognAlloc_eq p hn
    rw [if_pos (by rw [hp.len]; exact hfull)] at halloc
    exact ⟨_, newString_of_full halloc, hp.grow hlen hbytes⟩
  · rename_i hroom
    cases h
    refine ⟨{ huntouched with }, fun p hp => ?_⟩
    obtain ⟨progn, halloc, hlen, hbytes⟩ := prognAlloc_eq p hn
    rw [if_neg (by rw [hp.len]; exact hroom), hp.len] at halloc
    have hcount := hp.count
    have hmax : uint32Max < 2 ^ 32 := by decide
    obtain ⟨strtab, hinsert, hstrtab⟩ := hp.insert
      (huntouched.room (List.ne_nil_of_mem hlooked)) (by omega) (isCopy_strtabNew text s.len)
    have hfits := (Buf.le_alignOffset (s.len + (keyOf text).len)).1
    have hrange : s.len + (keyOf text).str.length ≤
        Buf.alignOffset (s.len + (keyOf text).len) := by
      rw [length_keyOf]
      exact hfits
    have hstored := (hp.grow hlen hbytes).store hrange
    refine ⟨_, newString_of_room halloc hinsert,
      { hstored with strtab := hstrtab, origin := ?_, count := ?_ }⟩
    · intro entry hentry
      obtain rfl | hold := List.mem_cons.mp hentry
      · exact ⟨text, hlooked, madeFor_strtabNew text s.len⟩
      · exact hp.origin entry (List.mem_filter.mp hold).1
    have hgrows := alignOffset_add_le hp.aligned hn
    have hlength := length_liveInsert_le
      (strtabNew (keyOf text).str (keyOf text).len s.len) s.strings
    dsimp only
    omega

theorem intern_of_some
    (h : s.strings.find? ((copyHashing bare).same (keyOf text)) = some ent) : SketchM.intern text s =
      some (.ok (ParserM.cvalueOf ent), { s with looked := text :: s.looked }) := by
  have hfound : SketchM.find text s =
      some (.ok (some ent), { s with looked := text :: s.looked }) := by
    rw [← h]
    rfl
  unfold SketchM.intern
  exact bind_of_ok hfound

theorem intern_of_none
    (h : s.strings.find? ((copyHashing bare).same (keyOf text)) = none) : SketchM.intern text s =
      SketchM.addString text { s with looked := text :: s.looked } := by
  have hmissing : SketchM.find text s = some (.ok none, { s with looked := text :: s.looked }) := by
    rw [← h]
    rfl
  unfold SketchM.intern
  exact bind_of_ok hmissing

/-- What `loads` does with a string. -/
def internString (text : Bytes) : ParserM Cvalue := do
  match ← ParserM.strtabGet (keyOf text) with
  | (.ok, some ent) => return ParserM.cvalueOf ent
  | (.enotfound, _) => newString text
  | _ => ParserM.bail .estrtab

theorem Untouched.of_looked (h : Untouched left { s with looked := text :: s.looked }) :
    Untouched left s where
  looked other hother := h.looked other (List.mem_cons_of_mem _ hother)
  separate := h.separate.imp_right List.Pairwise.of_cons
  room _ := h.room (List.cons_ne_nil _ _)
  vague := h.vague

theorem Conforms.look (h : Conforms left s p) (text : Bytes) :
    Conforms left { s with looked := text :: s.looked } p where
  __ := h
  origin entry hentry := by
    obtain ⟨origin, horigin, hmade⟩ := h.origin entry hentry
    exact ⟨origin, List.mem_cons_of_mem _ horigin, hmade⟩

theorem Conforms.strtabGet (h : Conforms left s p)
    (huntouched : Untouched left { s with looked := text :: s.looked }) :
    ParserM.strtabGet (keyOf text) p =
      some (.ok (match s.strings.find? ((copyHashing bare).same (keyOf text)) with
        | some ent => (.ok, some ent)
        | none => (.enotfound, none)), p) := by
  obtain ⟨kept, hkept, hrep⟩ := h.strtab
  have hstrings : s.strings.find? ((copyHashing left.behind).same (keyOf text)) =
      s.strings.find? ((copyHashing bare).same (keyOf text)) := by
    apply List.find?_congr
    intro entry hentry
    obtain ⟨origin, horigin, hmade⟩ := h.origin entry hentry
    exact same_keyOf hmade
      (huntouched.separate.imp_right fun hpairs => List.rel_of_pairwise_cons hpairs horigin)
  have hkept : kept.find? ((copyHashing left.behind).same (keyOf text)) = none := by
    apply List.find?_eq_none.mpr
    intro entry hentry hsame
    exact huntouched.looked text List.mem_cons_self entry (hkept.mem hentry)
      (str_of_match (hrep.live_valid entry (List.mem_append_right _ hentry)) (beq_iff_eq.mp hsame))
  unfold ParserM.strtabGet
  rw [objtblGet_copies hrep, List.find?_append, hstrings, hkept, Option.or_none]
  cases s.strings.find? ((copyHashing bare).same (keyOf text)) <;> rfl

theorem follows_intern (text : Bytes) :
    Follows left (SketchM.intern text) (internString text) := by
  intro s result s' h huntouched
  cases hfind : s.strings.find? ((copyHashing bare).same (keyOf text)) with
  | some ent =>
    rw [intern_of_some hfind] at h
    cases h
    refine ⟨huntouched.of_looked, fun p hp => ⟨p, ?_, hp.look text⟩⟩
    have hreply := hp.strtabGet huntouched
    rw [hfind] at hreply
    exact (congrFun (parserM_bind _ _) p).trans (bind_of_ok hreply)
  | none =>
    rw [intern_of_none hfind] at h
    obtain ⟨hmiddle, hsim⟩ := follows_addString List.mem_cons_self h huntouched
    refine ⟨hmiddle.of_looked, fun p hp => ?_⟩
    obtain ⟨p', hp', hend⟩ := hsim p (hp.look text)
    refine ⟨p', ?_, hend⟩
    have hreply := hp.strtabGet hmiddle
    rw [hfind] at hreply
    exact (congrFun (parserM_bind _ _) p).trans ((bind_of_ok hreply).trans hp')

theorem loads_eq : ParserM.loads = expectView .tstring vulnspecReaderString >>= internString :=
  expectView_bind .tstring vulnspecReaderString internString

theorem follows_loads : Follows left SketchM.loads ParserM.loads := by
  rw [loads_eq]
  exact follows_readText.bind follows_intern

end Strings

section Expressions

variable {left : Leftover}

theorem comparFields_eq (t : NodeType) (compar : ℕ) (cvendprod : Cvalue) :
    ParserM.comparFields t compar cvendprod = withVtype fun vtype =>
      if vtype = .vvague then
        expectView .tstring vulnspecReaderString >>= fun text =>
          ParserM.storeWords compar ([t.toCode, cvendprod.length, cvendprod.offset, 0] ++
            ParserM.vagueverWords (Vaguever.vagueverInit (text.takeWhile (· ≠ 0))))
      else
        ParserM.loads >>= fun cversion =>
          ParserM.storeWords compar [t.toCode, cvendprod.length, cvendprod.offset, 1,
            cversion.length, cversion.offset] := by
  unfold ParserM.comparFields withVtype
  congr 1
  funext p
  dsimp only
  by_cases hvague : p.vtype = .vvague
  · rw [if_pos hvague, if_pos hvague]
    exact expectView_bind .tstring vulnspecReaderString fun text =>
      ParserM.storeWords compar ([t.toCode, cvendprod.length, cvendprod.offset, 0] ++
        ParserM.vagueverWords (Vaguever.vagueverInit (text.takeWhile (· ≠ 0))))
  · rw [if_neg hvague, if_neg hvague]

theorem loads_bind (f : Cvalue → ParserM Unit) : ParserM.loads >>= f =
    expectView .tstring vulnspecReaderString >>= fun text => internString text >>= f := by
  rw [loads_eq, parserM_bind, parserM_bind, parserM_bind]
  refine (bind_assoc _ _ _).trans ?_
  congr 1
  funext text
  exact (parserM_bind _ _).symm

theorem follows_comparFields (t : NodeType) (compar : ℕ) (cvendprod : Cvalue) :
    Follows left (SketchM.comparFields t compar cvendprod)
      (ParserM.comparFields t compar cvendprod) := by
  rw [comparFields_eq]
  apply follows_vtype
  intro vtype
  by_cases hvague : vtype = .vvague
  · subst hvague
    rw [if_pos rfl]
    by_cases hleft : left.vtype = .vvague
    · rw [if_pos (show left.vtypeOf .vvague = .vvague from hleft)]
      exact follows_readText.bind fun text => follows_versionRead (follows_storeWords _ _)
    · -- both read a string, and then the version has met what was left
      rw [if_neg (show ¬ left.vtypeOf .vvague = .vvague from hleft), loads_bind]
      exact follows_readText.bind fun text =>
        follows_versionRead_left hleft (follows_storeWords _ _) _
  · have hvtype : left.vtypeOf vtype = vtype := by
      cases vtype with
      | vvague => exact absurd rfl hvague
      | vnalpha | other => rfl
    rw [if_neg hvague, hvtype, if_neg hvague]
    exact follows_loads.bind fun cversion => follows_storeWords _ _

theorem follows_compar (t : NodeType) :
    Follows left (SketchM.compar t) (ParserM.compar t) := by
  refine (follows_alloc (by decide)).bind fun compar => follows_loads.bind fun cvendprod => ?_
  refine (follows_comparFields t compar cvendprod).bind fun _ => ?_
  exact (follows_expect Token.noConfusion).bind fun _ => Follows.pure compar

theorem follows_linkNext (prev curr : ℕ) :
    Follows left (SketchM.linkNext prev curr) (ParserM.linkNext prev curr) := by
  unfold SketchM.linkNext ParserM.linkNext
  split
  · exact follows_storeWords _ _
  · exact Follows.pure ()

theorem follows_vulnexpr_boolean (fuel : ℕ) :
    Follows left (SketchM.vulnexpr fuel) (ParserM.vulnexpr fuel) ∧
      ∀ nodet bnode prev, Follows left (SketchM.boolean nodet fuel bnode prev)
        (ParserM.boolean nodet fuel bnode prev) := by
  induction fuel with
  | zero =>
    rw [SketchM.vulnexpr]
    refine ⟨.none _, fun nodet bnode prev => ?_⟩
    rw [SketchM.boolean]
    exact .none _
  | succ fuel ih =>
    obtain ⟨ihvulnexpr, ihboolean⟩ := ih
    constructor
    · rw [SketchM.vulnexpr, ParserM.vulnexpr]
      refine follows_readSymbol.bind fun nodet => ?_
      split
      · exact follows_compar nodet
      · split
        · exact ihboolean nodet 0 0
        · split
          · change Follows left _ (withVtype fun tmp => do
              ParserM.setVtype .vnalpha
              ParserM.expect .tlparen
              let val ← ParserM.vulnexpr fuel
              ParserM.expect .trparen
              ParserM.setVtype tmp
              return val)
            refine follows_vtype fun vtype => ?_
            refine (follows_setVtype .vnalpha).bind fun _ => ?_
            refine (follows_expect Token.noConfusion).bind fun _ => ?_
            refine ihvulnexpr.bind fun val => ?_
            refine (follows_expect Token.noConfusion).bind fun _ => ?_
            exact (follows_setVtype vtype).bind fun _ => Follows.pure val
          · exact Follows.bail _
    · intro nodet bnode prev
      rw [SketchM.boolean, ParserM.boolean]
      refine follows_readToken.bind fun tok => ?_
      split
      · refine (follows_alloc (by decide)).bind fun curr => ihvulnexpr.bind fun val => ?_
        refine (follows_storeWords _ _).bind fun _ => (follows_storeWords _ _).bind fun _ => ?_
        exact (follows_linkNext prev curr).bind fun _ => ihboolean _ _ _
      · split
        · exact Follows.bail _
        · split
          · exact Follows.bail _
          · exact Follows.pure bnode

end Expressions

section Programs

variable {left : Leftover} {α : Type}

theorem cve_eq (fixedPoint : Num → UInt32) (fuel : ℕ) : ParserM.cve fixedPoint fuel = do
    let cve ← ParserM.prognAlloc cveSize
    let id ← ParserM.loads
    ParserM.storeWords (cve + 16) [id.length, id.offset]
    let cvss2 ← expectView .tdouble Reader.num
    ParserM.storeWords (cve + 8) [(fixedPoint cvss2).toNat]
    let cvss3 ← expectView .tdouble Reader.num
    ParserM.storeWords (cve + 12) [(fixedPoint cvss3).toNat]
    ParserM.storeWords cve [NodeType.cve.toCode]
    let description ← ParserM.loads
    ParserM.storeWords (cve + 24) [description.length, description.offset]
    ParserM.expect .tlparen
    let vexpr ← ParserM.vulnexpr fuel
    ParserM.storeWords (cve + 32) [vexpr]
    return cve := by
  unfold ParserM.cve
  simp only [← expectView_bind]

theorem follows_cve (fixedPoint : Num → UInt32) (fuel : ℕ) :
    Follows left (SketchM.cve fixedPoint fuel) (ParserM.cve fixedPoint fuel) := by
  rw [cve_eq]
  refine (follows_alloc (by decide)).bind fun cve => follows_loads.bind fun id => ?_
  refine (follows_storeWords _ _).bind fun _ => follows_readNum.bind fun cvss2 => ?_
  refine (follows_storeWords _ _).bind fun _ => follows_readNum.bind fun cvss3 => ?_
  refine (follows_storeWords _ _).bind fun _ => (follows_storeWords _ _).bind fun _ => ?_
  refine follows_loads.bind fun description => (follows_storeWords _ _).bind fun _ => ?_
  refine (follows_expect Token.noConfusion).bind fun _ => ?_
  refine (follows_vulnexpr_boolean fuel).1.bind fun vexpr => ?_
  exact (follows_storeWords _ _).bind fun _ => Follows.pure cve

theorem follows_failIf {condition : Prop} [Decidable condition] {err : Code} {m : SketchM α}
    {m' : ParserM α} (h : Follows left m m') :
    Follows left (if condition then Computation.bail err else m)
      (ParserM.failIf condition err >>= fun _ => m') := by
  unfold ParserM.failIf
  split
  · exact Follows.bail err
  · exact h

theorem follows_parseLoop (fixedPoint : Num → UInt32) (fuel : ℕ) : ∀ prev,
    Follows left (SketchM.parseLoop fixedPoint fuel prev)
      (ParserM.parseLoop fixedPoint fuel prev) := by
  induction fuel with
  | zero => exact fun prev => .none _
  | succ fuel ih =>
    intro prev
    rw [SketchM.parseLoop, ParserM.parseLoop]
    refine follows_readToken.bind fun tok => ?_
    split
    · exact Follows.pure ()
    · refine follows_failIf (follows_readSymbol.bind fun nodet => follows_failIf ?_)
      refine (follows_cve fixedPoint fuel).bind fun curr => ?_
      refine (follows_expect Token.noConfusion).bind fun _ => ?_
      exact (follows_linkNext prev curr).bind fun _ => ih curr

variable {p : Parser} {input : Bytes} {words : List Word}

theorem conforms_start
    {kept : List StrtabEntry} (hdelivers : Delivers (vulnspecReaderInit input) words)
    (hvtype : p.vtype = left.vtype) (hrep : Represents (copyHashing left.behind) p.strtab kept)
    (hkept : kept.Sublist left.strings)
    (hmemory : ∀ i, byteAt p.progn.data i = byteAt left.memory i) :
    Conforms left (emptySketch words)
      { p with r := vulnspecReaderInit input, progn := p.progn.clear.adata header } where
  delivers := hdelivers
  vtype := hvtype
  strtab := ⟨kept, hkept, hrep⟩
  origin := nofun
  len := Buf.len_adata _ _
  aligned := show headerSize % 8 = 0 by decide
  count := Nat.zero_le _
  bytes := by
    intro i
    have hbyte : byteAt p.progn.clear.data i = byteAt left.memory i := hmemory i
    have hwritten := written_cons { emptySketch words with writes := [] } 0 header i
    change (emptySketch words).written i = _ at hwritten
    rw [Buf.byteAt_adata, hbyte, hwritten]
    change (if 0 ≤ i ∧ i < 0 + header.length then _ else _) = _
    split <;> rfl

variable {fixedPoint : Num → UInt32} {fuel : ℕ} {result : Except Code Unit}

theorem vulnspecParse_follows {kept : List StrtabEntry}
    (hdelivers : Delivers (vulnspecReaderInit input) words) (hvtype : p.vtype = left.vtype)
    (hrep : Represents (copyHashing left.behind) p.strtab kept) (hkept : kept.Sublist left.strings)
    (hmemory : ∀ i, byteAt p.progn.data i = byteAt left.memory i) {s : Sketch}
    (hsketch : sketchParse fixedPoint words fuel = some (result, s)) (huntouched : Untouched left s) :
    ∃ p', vulnspecParse fixedPoint p input fuel = some (result, p') ∧ Conforms left s p' :=
  (follows_parseLoop fixedPoint fuel 0 _ result s hsketch huntouched).2 _
    (conforms_start hdelivers hvtype hrep hkept hmemory)

/-- `vulnspec_init` where the memory behind a copy holds `behind` of it. -/
def vulnspecParserIn (behind : Bytes → Bytes) : Option Parser := do
  let strtab ← objtblInit ⟨0, strtabHash, strtabCmpIn behind⟩ strtabEntries
  return ⟨.vvague, strtab, Buf.init defaultPrognSize, vulnspecReaderInit []⟩

theorem vulnspecParserIn_bare : vulnspecParserIn bare = vulnspecParserInit := by
  unfold vulnspecParserIn vulnspecParserInit strtabOpts
  rw [strtabCmpIn_bare]

theorem vulnspecParserIn_fresh (behind : Bytes → Bytes) : ∃ p, vulnspecParserIn behind = some p ∧
    p.vtype = .vvague ∧ Represents (copyHashing behind) p.strtab [] ∧
      ∀ i, byteAt p.progn.data i = 0 := by
  obtain ⟨hlarge, -⟩ | ⟨-, strtab, hinit, hrep⟩ :=
    @objtblInit_spec _ (copyHashing behind) _ strtabEntries 0
  · exact absurd hlarge (by decide)
  · have hinit : objtblInit ⟨0, strtabHash, strtabCmpIn behind⟩ strtabEntries = some strtab := hinit
    refine ⟨⟨.vvague, strtab, Buf.init defaultPrognSize, vulnspecReaderInit []⟩, ?_, rfl, hrep,
      Buf.byteAt_init _⟩
    unfold vulnspecParserIn
    rw [hinit]
    rfl

theorem vulnspecParserInit_fresh : ∃ p, vulnspecParserInit = some p := by
  obtain ⟨p, hinit, -⟩ := vulnspecParserIn_fresh bare
  exact ⟨p, vulnspecParserIn_bare ▸ hinit⟩

def nothingLeft (behind : Bytes → Bytes) : Leftover := ⟨behind, [], .vvague, []⟩

theorem vulnspecParseIn_fresh {behind : Bytes → Bytes}
    (hinit : vulnspecParserIn behind = some p)
    (hdelivers : Delivers (vulnspecReaderInit input) words) {s : Sketch}
    (hsketch : sketchParse fixedPoint words fuel = some (result, s))
    (hseparate : behind = bare ∨ s.looked.Pairwise Separate) :
    ∃ p', vulnspecParse fixedPoint p input fuel = some (result, p') ∧
      Conforms (nothingLeft behind) s p' := by
  obtain ⟨fresh, hfresh, hvtype, hrep, hzeros⟩ := vulnspecParserIn_fresh behind
  rw [hinit] at hfresh
  cases hfresh
  have huntouched : Untouched (nothingLeft behind) s :=
    ⟨nofun, hseparate, fun _ => show 0 + 2 ^ 29 ≤ maxKeys by decide, fun _ => rfl⟩
  apply vulnspecParse_follows hdelivers hvtype hrep (List.Sublist.refl _) _ hsketch huntouched
  intro i
  rw [hzeros]
  rfl

theorem vulnspecParse_fresh (hinit : vulnspecParserInit = some p)
    (hdelivers : Delivers (vulnspecReaderInit input) words) {s : Sketch}
    (hsketch : sketchParse fixedPoint words fuel = some (result, s)) :
    ∃ p', vulnspecParse fixedPoint p input fuel = some (result, p') ∧
      Conforms (nothingLeft bare) s p' :=
  vulnspecParseIn_fresh (vulnspecParserIn_bare.trans hinit) hdelivers hsketch (.inl rfl)

end Programs

end Yans.Vulnspec
