import Yans.Library.Memory
import Yans.Library.Strings
import Yans.Library.Tokens

/-! `lib/util/str.c`: the walk over the fields of a string. A callback gets the
memory from the first byte of its field on, and the length of the field. -/
namespace Yans.Util.Str

open Library.Memory

variable {m : Type → Type} [Monad m]

/-- The loop of `str_map_field`. `field` is the field that is being read, if
any. -/
def mapFieldLoop (seps : Bytes) (func : Bytes → ℕ → m ℤ) : Bytes → Option (Bytes × ℕ) → m ℤ
  | [], none => pure 0
  | [], some (s, len) => func s len
  | ch :: rest, field =>
    if ch ∈ seps then
      match field with
      | none => mapFieldLoop seps func rest none
      | some (s, len) => do
        let ret ← func s len
        if ret ≤ 0 then pure ret else mapFieldLoop seps func rest none
    else
      match field with
      | none => mapFieldLoop seps func rest (some (ch :: rest, 1))
      | some (s, len) => mapFieldLoop seps func rest (some (s, len + 1))

def strMapField (s seps : Bytes) (func : Bytes → ℕ → m ℤ) : m ℤ := mapFieldLoop seps func s none

variable {seps : Bytes}

variable {σ : Type}

theorem mapFieldLoop_keeps {Holds : σ → Prop}
    {func : Bytes → ℕ → StateT σ Option ℤ}
    (hfunc : ∀ s len before ret after, Holds before →
      (func s len).run before = some (ret, after) → Holds after)
    (rest : Bytes) : ∀ (field : Option (Bytes × ℕ)) (before : σ) (ret : ℤ) (after : σ),
      Holds before → (mapFieldLoop seps func rest field).run before = some (ret, after) →
        Holds after := by
  induction rest with
  | nil =>
    intro field before ret after hbefore h
    cases field with
    | none =>
      cases h
      exact hbefore
    | some field => exact hfunc _ _ _ _ _ hbefore h
  | cons ch rest ih =>
    intro field before ret after hbefore h
    unfold mapFieldLoop at h
    split at h
    · cases field with
      | none => exact ih _ _ _ _ hbefore h
      | some field =>
        obtain ⟨⟨called, mid⟩, hcall, hrest⟩ := Option.bind_eq_some_iff.mp h
        have hmid := hfunc _ _ _ _ _ hbefore hcall
        dsimp only at hrest
        split at hrest
        · cases hrest
          exact hmid
        · exact ih _ _ _ _ hmid hrest
    · cases field with
      | none => exact ih _ _ _ _ hbefore h
      | some field => exact ih _ _ _ _ hbefore h

/-- The fields that the walk comes to, each as the memory from its first byte
on. -/
def fieldsFrom (seps : Bytes) : Bytes → Option Bytes → List Bytes
  | [], none => []
  | [], some s => [s]
  | ch :: rest, field =>
    if ch ∈ seps then field.toList ++ fieldsFrom seps rest none
    else fieldsFrom seps rest (some (field.getD (ch :: rest)))

def fields (s seps : Bytes) : List Bytes := fieldsFrom seps s none

/-- A callback that does not stop the walk is called once for each field. The
induction is on what is left of the string. -/
theorem mapFieldLoop_run [LawfulMonad m]
    {func : Bytes → ℕ → StateT σ m ℤ} {step : σ → Bytes → m σ}
    (hfunc : ∀ s len st, (func s len).run st = (fun after => (1, after)) <$> step st s)
    (rest : Bytes) : ∀ (field : Option (Bytes × ℕ)) (st : σ),
      Prod.snd <$> (mapFieldLoop seps func rest field).run st =
        (fieldsFrom seps rest (field.map Prod.fst)).foldlM step st := by
  induction rest with
  | nil =>
    intro field st
    cases field with
    | none => simp [mapFieldLoop, fieldsFrom]
    | some field =>
      simp only [mapFieldLoop, fieldsFrom, Option.map_some, List.foldlM_cons, List.foldlM_nil]
      rw [hfunc]
      simp
  | cons ch rest ih =>
    intro field st
    unfold mapFieldLoop fieldsFrom
    split
    · cases field with
      | none => exact ih none st
      | some field =>
        simp only [Option.map_some, Option.toList_some, List.singleton_append, List.foldlM_cons,
          StateT.run_bind, hfunc, bind_map_left, map_bind]
        apply bind_congr
        exact ih none
    · cases field with
      | none => exact ih _ st
      | some field => exact ih _ st

theorem strMapField_run [LawfulMonad m]
    {func : Bytes → ℕ → StateT σ m ℤ} {step : σ → Bytes → m σ}
    (hfunc : ∀ s len st, (func s len).run st = (fun after => (1, after)) <$> step st s)
    (s : Bytes) (st : σ) :
    Prod.snd <$> (strMapField s seps func).run st = (fields s seps).foldlM step st :=
  mapFieldLoop_run hfunc s none st

end Yans.Util.Str

/-! The two walks of `lib/util/str.c` over the fields of a string, and the
fields that they come to. A string is the list of its bytes; reading behind it
gives the zero that ends it. -/
namespace Yans.Util.StrFields

open Library.Memory Library.Strings Library.Tokens Str

variable {m : Type → Type} [Monad m]

/-- `strchr`, for a string that ends at its first zero. The zero is found too. -/
def strchr (s : Bytes) (ch : UInt8) : Bool := ch = 0 ∨ ch ∈ cstring s

/-- The loop of `str_map_fieldz`, which ends at the first zero. -/
def mapFieldzLoop (seps : Bytes) (func : Bytes → ℕ → m ℤ) : Bytes → Option (Bytes × ℕ) → m ℤ
  | [], none => pure 0
  | [], some (s, len) => func s len
  | ch :: rest, field =>
    if ch = 0 then
      match field with
      | none => pure 0
      | some (s, len) => func s len
    else if strchr seps ch then
      match field with
      | none => mapFieldzLoop seps func rest none
      | some (s, len) => do
        let ret ← func s len
        if ret ≤ 0 then pure ret else mapFieldzLoop seps func rest none
    else
      match field with
      | none => mapFieldzLoop seps func rest (some (ch :: rest, 1))
      | some (s, len) => mapFieldzLoop seps func rest (some (s, len + 1))

def strMapFieldz (s seps : Bytes) (func : Bytes → ℕ → m ℤ) : m ℤ :=
  mapFieldzLoop seps func s none

theorem mapFieldzLoop_eq (hseps : 0 ∉ seps) (func : Bytes → ℕ → m ℤ)
    (rest : Bytes) : ∀ field : Option (Bytes × ℕ), 0 ∉ rest →
      mapFieldzLoop seps func rest field = mapFieldLoop seps func rest field := by
  have hcstring : cstring seps = seps := cstring_of_ne_zero fun byte hbyte h => hseps (h ▸ hbyte)
  induction rest with
  | nil =>
    intro field _
    cases field <;> rfl
  | cons ch rest ih =>
    intro field hrest
    rw [List.mem_cons, not_or] at hrest
    obtain ⟨hne, hrest⟩ := hrest
    have hstrchr : (strchr seps ch = true) = (ch ∈ seps) := by
      simp [strchr, hcstring, Ne.symm hne]
    unfold mapFieldzLoop mapFieldLoop
    rw [if_neg (Ne.symm hne)]
    simp only [hstrchr]
    cases field <;> simp only [ih _ hrest]

variable {s : Bytes}

theorem strMapFieldz_eq (hs : 0 ∉ s) (hseps : 0 ∉ seps)
    (func : Bytes → ℕ → m ℤ) : strMapFieldz s seps func = strMapField s seps func :=
  mapFieldzLoop_eq hseps func s none hs

/-- The callback on one token of `s` after the other. A call that returns no
positive value is the last one, and so is that for a token at the end. -/
def callEach (s : Bytes) (func : Bytes → ℕ → m ℤ) : List (ℕ × ℕ) → m ℤ
  | [] => pure 0
  | (start, len) :: rest => do
    let ret ← func (s.drop start) len
    if ret ≤ 0 ∨ start + len = s.length then pure ret else callEach s func rest

/-- The walk from index `i` on calls back for the tokens that are listed from
there on. The induction is on what is left of the string. -/
theorem mapFieldLoop_eq [LawfulMonad m] (func : Bytes → ℕ → m ℤ)
    (rest : Bytes) : ∀ (i : ℕ) (field : Option ℕ), s.drop i = rest → i ≤ s.length →
      (∀ start ∈ field, start < i) →
        mapFieldLoop seps func rest (field.map fun start => (s.drop start, i - start)) =
          callEach s func (tokensFrom (· ∈ seps) rest i field) := by
  induction rest with
  | nil =>
    intro i field hrest hi hfield
    have hlength : s.length ≤ i := List.drop_eq_nil_iff.mp hrest
    cases field with
    | none => rfl
    | some start =>
      have := hfield start rfl
      have hend : start + (i - start) = s.length := by omega
      simp [mapFieldLoop, tokensFrom, callEach, hend]
  | cons ch rest ih =>
    intro i field hrest hi hfield
    have hlt : i < s.length := by
      by_contra hge
      rw [List.drop_eq_nil_of_le (Nat.le_of_not_lt hge)] at hrest
      cases hrest
    have hdrop : s.drop (i + 1) = rest := by
      rw [← List.tail_drop, hrest, List.tail_cons]
    have hclosed := ih (i + 1) none hdrop hlt (by simp)
    unfold mapFieldLoop tokensFrom
    by_cases hsep : ch ∈ seps
    · simp only [hsep, if_true, decide_true]
      cases field with
      | none => exact hclosed
      | some start =>
        have := hfield start rfl
        have hmore : start + (i - start) ≠ s.length := by omega
        simp only [Option.map_some, Option.toList_some, List.singleton_append, callEach, hmore,
          or_false]
        apply bind_congr
        intro ret
        split
        · rfl
        · exact hclosed
    · simp only [hsep, if_false, decide_false, Bool.false_eq_true]
      cases field with
      | none =>
        have h := ih (i + 1) (some i) hdrop hlt (by simp)
        rw [Option.map_some, hrest, Nat.add_sub_cancel_left] at h
        exact h
      | some start =>
        have hstart := hfield start rfl
        have h := ih (i + 1) (some start) hdrop hlt (by simp; omega)
        rw [Option.map_some, Nat.succ_sub (Nat.le_of_lt hstart)] at h
        exact h

theorem strMapField_eq [LawfulMonad m] (s seps : Bytes) (func : Bytes → ℕ → m ℤ) :
    strMapField s seps func = callEach s func (tokens (· ∈ seps) s) :=
  mapFieldLoop_eq func s 0 none List.drop_zero (Nat.zero_le _) (by simp)

/-- A call of the callback: the memory and the length that it was given, and
what it returned. -/
structure Call where
  s : Bytes
  len : ℕ
  ret : ℤ
deriving DecidableEq

/-- A callback that works on some state, with a record of its calls. -/
def recorded {σ : Type} (func : Bytes → ℕ → StateM σ ℤ) (s : Bytes) (len : ℕ) :
    StateM (σ × List Call) ℤ := fun (st, calls) =>
  let (ret, st) := (func s len).run st
  (ret, st, calls ++ [⟨s, len, ret⟩])

theorem recorded_run {func : Bytes → ℕ → StateM σ ℤ} {len : ℕ} {ret : ℤ}
    {st after : σ} (h : (func s len).run st = (ret, after)) (calls : List Call) :
    (recorded func s len).run (st, calls) = (ret, after, calls ++ [⟨s, len, ret⟩]) := by
  simp only [recorded, StateT.run]
  rw [show func s len st = (ret, after) from h]

/-- The calls that a walk made, when its callback started in the state `st`. -/
def callsOf {σ : Type} (walk : (Bytes → ℕ → StateM (σ × List Call) ℤ) → StateM (σ × List Call) ℤ)
    (func : Bytes → ℕ → StateM σ ℤ) (st : σ) : List Call :=
  ((walk (recorded func)).run (st, [])).2.2

/-- The calls are those for the first tokens from left to right. They end with
the first that returned no positive value, or with the last token. -/
structure Visits (s : Bytes) (tokens : List (ℕ × ℕ)) (calls : List Call) : Prop where
  inOrder : calls.map (fun call => (call.s, call.len)) <+:
    tokens.map fun (start, len) => (s.drop start, len)
  goesOn : ∀ call ∈ calls.dropLast, 0 < call.ret
  stops : calls.length = tokens.length ∨ ∃ call ∈ calls.getLast?, call.ret ≤ 0

theorem Visits.nil (s : Bytes) : Visits s [] [] :=
  ⟨List.prefix_rfl, by simp, Or.inl rfl⟩

theorem Visits.stop {start len : ℕ} {rest : List (ℕ × ℕ)} {ret : ℤ}
    (h : ret ≤ 0 ∨ rest = []) :
    Visits s ((start, len) :: rest) [⟨s.drop start, len, ret⟩] := by
  refine ⟨?_, by simp, ?_⟩
  · simp
  · cases h with
    | inl h => exact Or.inr ⟨_, rfl, h⟩
    | inr h =>
      rw [h]
      exact Or.inl rfl

theorem Visits.cons {start len : ℕ} {rest : List (ℕ × ℕ)} {ret : ℤ}
    {calls : List Call} (hret : 0 < ret) (h : Visits s rest calls) :
    Visits s ((start, len) :: rest) (⟨s.drop start, len, ret⟩ :: calls) := by
  obtain ⟨hin, hgoes, hstops⟩ := h
  refine ⟨?_, ?_, ?_⟩
  · simpa using hin
  · intro call hcall
    cases calls with
    | nil => cases hcall
    | cons first calls =>
      rw [List.dropLast_cons_cons, List.mem_cons] at hcall
      cases hcall with
      | inl heq =>
        rw [heq]
        exact hret
      | inr hmem => exact hgoes call hmem
  · cases hstops with
    | inl hall => exact Or.inl (by simp [hall])
    | inr hlast =>
      right
      obtain ⟨call, hcall, hle⟩ := hlast
      refine ⟨call, ?_, hle⟩
      rw [List.getLast?_cons, Option.mem_def.mp hcall]
      rfl

theorem visits_callEach (func : Bytes → ℕ → StateM σ ℤ)
    (rest : List (ℕ × ℕ)) : ∀ (st : σ) (before : List Call),
      rest.Pairwise (fun a b => a.1 + a.2 < b.1) → (∀ a ∈ rest, a.1 < s.length) →
        ∃ calls, ((callEach s (recorded func) rest).run (st, before)).2.2 = before ++ calls ∧
          Visits s rest calls := by
  induction rest with
  | nil =>
    intro st before _ _
    exact ⟨[], (List.append_nil before).symm, Visits.nil s⟩
  | cons token rest ih =>
    obtain ⟨start, len⟩ := token
    intro st before hsorted hin
    obtain ⟨hfirst, hsorted⟩ := List.pairwise_cons.mp hsorted
    cases hcall : (func (s.drop start) len).run st with
    | mk ret after =>
      have hrun : ((callEach s (recorded func) ((start, len) :: rest)).run (st, before)) =
          (if ret ≤ 0 ∨ start + len = s.length then pure ret
            else callEach s (recorded func) rest).run
              (after, before ++ [⟨s.drop start, len, ret⟩]) := by
        rw [callEach, StateT.run_bind, recorded_run hcall]
        rfl
      rw [hrun]
      split
      · rename_i hstop
        refine ⟨[⟨s.drop start, len, ret⟩], rfl, Visits.stop ?_⟩
        cases hstop with
        | inl hle => exact Or.inl hle
        | inr hend =>
          right
          apply List.eq_nil_iff_forall_not_mem.mpr
          intro a ha
          have hafter := hfirst a ha
          have hinside := hin a (List.mem_cons_of_mem _ ha)
          simp only [hend] at hafter
          omega
      · rename_i hgo
        rw [not_or] at hgo
        obtain ⟨calls, hcalls, hvisits⟩ := ih after (before ++ [⟨s.drop start, len, ret⟩]) hsorted
          (fun a ha => hin a (List.mem_cons_of_mem _ ha))
        refine ⟨⟨s.drop start, len, ret⟩ :: calls, ?_, hvisits.cons (by omega)⟩
        rw [hcalls, List.append_assoc]
        rfl

theorem visits_strMapField (s seps : Bytes) (func : Bytes → ℕ → StateM σ ℤ) (st : σ) :
    Visits s (tokens (· ∈ seps) s) (callsOf (strMapField s seps) func st) := by
  have hin : ∀ a ∈ tokens (· ∈ seps) s, a.1 < s.length := by
    rintro ⟨start, len⟩ ha
    have htoken := mem_tokens.mp ha
    obtain ⟨c, hc, -⟩ := htoken.unbroken start le_rfl (Nat.lt_add_of_pos_right htoken.nonempty)
    exact (List.getElem?_eq_some_iff.mp hc).1
  obtain ⟨calls, hcalls, hvisits⟩ :=
    visits_callEach func (tokens (· ∈ seps) s) st [] tokens_sorted hin
  unfold callsOf
  rw [strMapField_eq, hcalls]
  exact hvisits

/-- `str_map_field` calls back for the maximal runs of bytes that are no
separators, from left to right, and after a value that is not positive for no
more of them. On strings without zeros `str_map_fieldz` does just the same. -/
theorem fields_mapped (s seps : Bytes) :
    (∀ start len, (start, len) ∈ tokens (· ∈ seps) s ↔ IsTokenAt (· ∈ seps) s start len) ∧
      (tokens (· ∈ seps) s).Pairwise (fun a b => a.1 + a.2 < b.1) ∧
      (∀ (σ : Type) (func : Bytes → ℕ → StateM σ ℤ) (st : σ),
        Visits s (tokens (· ∈ seps) s) (callsOf (strMapField s seps) func st)) ∧
      (0 ∉ s → 0 ∉ seps →
        (∀ (σ : Type) (func : Bytes → ℕ → StateM σ ℤ) (st : σ),
          Visits s (tokens (· ∈ seps) s) (callsOf (strMapFieldz s seps) func st)) ∧
        ∀ (m : Type → Type) [Monad m] (func : Bytes → ℕ → m ℤ),
          strMapFieldz s seps func = strMapField s seps func) := by
  refine ⟨fun _ _ => mem_tokens, tokens_sorted, fun σ func st => visits_strMapField s seps func st,
    fun hs hseps => ⟨fun σ func st => ?_, fun m _ func => strMapFieldz_eq hs hseps func⟩⟩
  have h := visits_strMapField s seps func st
  unfold callsOf at h ⊢
  rw [strMapFieldz_eq hs hseps]
  exact h

theorem fields_mapped_semicolons :
    (0 ∉ ascii ";a;;b" ∧ 0 ∉ ascii ";") ∧
      strMapFieldz (ascii ";a;;b") (ascii ";") (fun s len => some ((s.headD 0).toNat + len : ℤ)) =
        some 99 := by
  refine ⟨by decide, ?_⟩
  rw [((fields_mapped (ascii ";a;;b") (ascii ";")).2.2.2 (by decide) (by decide)).2]
  decide

end Yans.Util.StrFields
