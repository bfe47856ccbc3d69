import Yans.Library.Decimal
import Yans.Util.Buf

/-! `lib/util/netstring.c`: the byte-at-a-time parser, the encoder and the
iterators that parse in place. Pointers are offsets into one memory; `size_t`
is 64 bits wide. -/
namespace Yans.Util.Netstring

open Library.Memory Library.Decimal

/-- The result codes other than `NETSTRING_OK`. -/
inductive NetstringErr where
  | errfmt
  | errtoolarge
  | errincomplete
deriving DecidableEq

/-- The three states of `_netstring_parse`. -/
inductive ParseState where
  | sws
  | slen
  | sdata
deriving DecidableEq

def colon : UInt8 := 58
def comma : UInt8 := 44

/-- `NETSTRING_WS` -/
def IsWs (c : UInt8) : Prop := c = 13 ∨ c = 10 ∨ c = 9 ∨ c = 32

instance (c : UInt8) : Decidable (IsWs c) :=
  inferInstanceAs (Decidable (c = 13 ∨ c = 10 ∨ c = 9 ∨ c = 32))

/-- The loop of `_netstring_parse` at index `i`, with the bytes from there on
and the length read so far. The result is the pair `nsoff`, `nslen`. -/
def parseLoop (src : Bytes) : Bytes → ℕ → ParseState → ℕ → Except NetstringErr (ℕ × ℕ)
  | [], _, _, _ => .error .errincomplete
  | c :: rest, i, S, len =>
    if S = .sws ∧ IsWs c then parseLoop src rest (i + 1) .sws len
    else if S ≠ .sdata then
      -- a byte that is no whitespace falls through to the length digits
      if IsDigit c then
        let lenbuf := (len * 10 % 2 ^ 64 + digitValue c) % 2 ^ 64
        if lenbuf < len then .error .errtoolarge
        else parseLoop src rest (i + 1) .slen lenbuf
      else if i > 0 ∧ c = colon then parseLoop src rest (i + 1) .sdata len
      else .error .errfmt
    else if (i + len) % 2 ^ 64 ≥ src.length then .error .errincomplete
    else if src.getD ((i + len) % 2 ^ 64) 0 ≠ comma then .error .errfmt
    else .ok (i, len)

def parse (src : Bytes) : Except NetstringErr (ℕ × ℕ) := parseLoop src src 0 .sws 0

def netstringTryparse (src : Bytes) : Except NetstringErr ℕ := do
  let (nsoff, nslen) ← parse src
  pure ((nsoff + nslen + 1) % 2 ^ 64)

/-- A `char *` into the memory and its length. -/
structure Slice where
  off : ℕ
  len : ℕ
deriving DecidableEq

/-- Parse the `srclen` bytes at `src`; on success the comma becomes a NUL. -/
def netstringParse (mem : Bytes) (src srclen : ℕ) : Except NetstringErr Slice × Bytes :=
  match parse (slice mem src srclen) with
  | .error code => (.error code, mem)
  | .ok (nsoff, nslen) => (.ok ⟨src + nsoff, nslen⟩, write mem (src + nsoff + nslen) [0])

def netstringAppendBuf (buf : Buf) (str : Bytes) : Buf :=
  ((buf.adata (printOnto str.length [colon])).adata str).achar comma

def netstringAppendList (buf : Buf) : List Bytes → Buf
  | [] => buf
  | elem :: elems => netstringAppendList (netstringAppendBuf buf elem) elems

def netstringAppendPair (buf : Buf) (str0 str1 : Bytes) : Buf :=
  netstringAppendBuf (netstringAppendBuf buf str0) str1

/-- The `data`, `datalen` pair that the iterators advance, over its memory. -/
structure Cursor where
  mem : Bytes
  data : ℕ
  datalen : ℕ
deriving DecidableEq

def Cursor.remaining (cur : Cursor) : Bytes := slice cur.mem cur.data cur.datalen

def Cursor.read (cur : Cursor) (out : Slice) : Bytes := slice cur.mem out.off out.len

def netstringNext (cur : Cursor) : Except NetstringErr Slice × Cursor :=
  if cur.datalen = 0 then (.error .errincomplete, cur)
  else match netstringParse cur.mem cur.data cur.datalen with
    | (.error code, mem) => (.error code, { cur with mem := mem })
    | (.ok out, mem) =>
      let nextOff := out.off + out.len + 1 - cur.data
      if nextOff > cur.datalen then (.error .errincomplete, { cur with mem := mem })
      else (.ok out, ⟨mem, cur.data + nextOff, cur.datalen - nextOff⟩)

structure NetstringPair where
  key : Slice
  value : Slice
deriving DecidableEq

/-- Here `data` and `datalen` only move once both strings are read. -/
def netstringNextPair (cur : Cursor) : Except NetstringErr NetstringPair × Cursor :=
  if cur.datalen = 0 then (.error .errincomplete, cur)
  else match netstringParse cur.mem cur.data cur.datalen with
    | (.error code, mem) => (.error code, { cur with mem := mem })
    | (.ok key, mem) =>
      let nextOff := key.off + key.len + 1 - cur.data
      if nextOff ≥ cur.datalen then (.error .errincomplete, { cur with mem := mem })
      else match netstringParse mem (cur.data + nextOff) (cur.datalen - nextOff) with
        | (.error _, mem) => (.error .errincomplete, { cur with mem := mem })
        | (.ok value, mem) =>
          let nextOff := value.off + value.len + 1 - cur.data
          (.ok ⟨key, value⟩, ⟨mem, cur.data + nextOff, cur.datalen - nextOff⟩)

theorem netstringParse_le {mem mem' : Bytes} {src srclen : ℕ} {out : Slice}
    (h : netstringParse mem src srclen = (.ok out, mem')) : src ≤ out.off := by
  unfold netstringParse at h
  split at h
  · cases h
  · simp only [Prod.mk.injEq, Except.ok.injEq] at h
    rw [← h.1]
    exact Nat.le_add_right _ _

theorem netstringNext_datalen_lt {cur after : Cursor} {out : Slice}
    (h : netstringNext cur = (.ok out, after)) : after.datalen < cur.datalen := by
  unfold netstringNext at h
  split at h
  · cases h
  · split at h
    · cases h
    · rename_i hlen _ _ _ hparse
      have hle := netstringParse_le hparse
      dsimp only at h
      split at h
      · cases h
      · simp only [Prod.mk.injEq, Except.ok.injEq] at h
        rw [← h.2]
        dsimp only
        omega

theorem netstringNextPair_datalen_lt {cur after : Cursor} {pair : NetstringPair}
    (h : netstringNextPair cur = (.ok pair, after)) : after.datalen < cur.datalen := by
  unfold netstringNextPair at h
  split at h
  · cases h
  · split at h
    · cases h
    · dsimp only at h
      split at h
      · cases h
      · split at h
        · cases h
        · rename_i hlen _ _ _ _ _ _ _ _ hparse
          have hle := netstringParse_le hparse
          simp only [Prod.mk.injEq, Except.ok.injEq] at h
          rw [← h.2]
          dsimp only
          omega

/-! The format: a decimal length, a colon, the bytes, a comma. -/

def lengthPrefix (x : Bytes) : Bytes := numeral x.length ++ [colon]

def encode (x : Bytes) : Bytes := lengthPrefix x ++ x ++ [comma]

theorem length_encode (x : Bytes) :
    (encode x).length = (numeral x.length).length + 1 + x.length + 1 := by
  simp only [encode, lengthPrefix, List.length_append, List.length_singleton]

theorem length_encode_le (x : Bytes) : (encode x).length ≤ 2 * x.length + 3 := by
  have h := length_numeral_le x.length
  rw [length_encode]
  omega

theorem length_encode_lt {x y : Bytes} (h : x.length < y.length) :
    (encode x).length < (encode y).length := by
  have hdigits := length_numeral_mono h.le
  rw [length_encode, length_encode]
  omega

theorem encode_ne_nil (x : Bytes) : encode x ≠ [] := by
  simp [encode]

@[simp] theorem contents_netstringAppendBuf (buf : Buf) (str : Bytes) :
    (netstringAppendBuf buf str).contents = buf.contents ++ encode str := by
  simp [netstringAppendBuf, printOnto_append, encode, lengthPrefix]

@[simp] theorem contents_netstringAppendList (elems : List Bytes) :
    ∀ buf : Buf, (netstringAppendList buf elems).contents =
      buf.contents ++ (elems.map encode).flatten := by
  induction elems with
  | nil => simp [netstringAppendList]
  | cons elem elems ih =>
    intro buf
    rw [netstringAppendList, ih, contents_netstringAppendBuf, List.append_assoc]
    rfl

@[simp] theorem contents_netstringAppendPair (buf : Buf) (str0 str1 : Bytes) :
    (netstringAppendPair buf str0 str1).contents =
      buf.contents ++ (encode str0 ++ encode str1) := by
  simp [netstringAppendPair]

section Parser

variable {src : Bytes}

theorem not_isWs_of_isDigit {c : UInt8} (h : IsDigit c) : ¬ IsWs c := by
  rw [isDigit_iff] at h
  rintro (rfl | rfl | rfl | rfl) <;> simp at h

theorem not_isDigit_colon : ¬ IsDigit colon := by decide

theorem parseLoop_digit {c : UInt8} (hc : IsDigit c) {S : ParseState} (hS : S ≠ .sdata)
    {len : ℕ} (hlen : len * 10 + digitValue c < 2 ^ 64) (rest : Bytes) (i : ℕ) :
    parseLoop src (c :: rest) i S len =
      parseLoop src rest (i + 1) .slen (len * 10 + digitValue c) := by
  have hws : ¬ (S = .sws ∧ IsWs c) := fun h => not_isWs_of_isDigit hc h.2
  have hvalue : (len * 10 % 2 ^ 64 + digitValue c) % 2 ^ 64 = len * 10 + digitValue c := by
    rw [Nat.mod_eq_of_lt (show len * 10 < 2 ^ 64 by omega), Nat.mod_eq_of_lt hlen]
  have hgrows : ¬ len * 10 + digitValue c < len := by omega
  rw [parseLoop, if_neg hws, if_pos hS, if_pos hc]
  simp only [hvalue, if_neg hgrows]

/-- The induction is on the digits; the value read so far bounds every
intermediate length. -/
theorem parseLoop_digits (digits : Bytes) : ∀ {S : ParseState} {len i : ℕ} (rest : Bytes),
    (∀ c ∈ digits, IsDigit c) → value len digits < 2 ^ 64 → S ≠ .sdata → digits ≠ [] →
    parseLoop src (digits ++ rest) i S len =
      parseLoop src rest (i + digits.length) .slen (value len digits) := by
  induction digits with
  | nil =>
    intro S len i rest _ _ _ hne
    exact absurd rfl hne
  | cons c digits ih =>
    intro S len i rest hdigits hvalue hS _
    have hc := hdigits c List.mem_cons_self
    have hlen : len * 10 + digitValue c < 2 ^ 64 := (le_value digits _).trans_lt hvalue
    rw [List.cons_append, parseLoop_digit hc hS hlen]
    by_cases hnil : digits = []
    · subst hnil
      rfl
    · rw [ih rest (fun d hd => hdigits d (List.mem_cons_of_mem _ hd)) hvalue (by decide) hnil,
        List.length_cons, Nat.add_right_comm, Nat.add_assoc]
      rfl

theorem parseLoop_lengthPrefix {x : Bytes} (hx : x.length < 2 ^ 64) (rest : Bytes) :
    parseLoop src (lengthPrefix x ++ rest) 0 .sws 0 =
      parseLoop src rest (lengthPrefix x).length .sdata x.length := by
  have hpos : (numeral x.length).length > 0 := List.length_pos_iff.mpr (numeral_ne_nil _)
  rw [lengthPrefix, List.append_assoc, parseLoop_digits (numeral x.length) _
    (isDigit_of_mem_numeral _) (by rwa [value_numeral]) (by decide) (numeral_ne_nil _),
    value_numeral, Nat.zero_add, List.singleton_append, parseLoop]
  simp only [reduceCtorEq, false_and, if_false, ne_eq, not_false_eq_true, if_true,
    if_neg not_isDigit_colon, hpos, and_self, List.length_append, List.length_singleton]

end Parser

theorem parse_encode {x r : Bytes} (hsize : (encode x ++ r).length < 2 ^ 64) :
    parse (encode x ++ r) = .ok ((lengthPrefix x).length, x.length) := by
  have hlength : (lengthPrefix x).length + x.length < (encode x ++ r).length := by
    simp only [encode, List.length_append, List.length_singleton]
    omega
  have hmod : ((lengthPrefix x).length + x.length) % 2 ^ 64 =
      (lengthPrefix x).length + x.length := Nat.mod_eq_of_lt (by omega)
  have hcomma : (encode x ++ r).getD ((lengthPrefix x).length + x.length) 0 = comma := by
    rw [show encode x ++ r = (lengthPrefix x ++ x) ++ comma :: r by simp [encode],
      ← List.length_append, List.getD_eq_getElem?_getD, List.getElem?_append_right le_rfl,
      Nat.sub_self]
    rfl
  have hsplit : encode x ++ r = lengthPrefix x ++ (x ++ [comma] ++ r) := by
    simp [encode, List.append_assoc]
  have hrun := @parseLoop_lengthPrefix (encode x ++ r) x (by omega) (x ++ [comma] ++ r)
  rw [← hsplit] at hrun
  unfold parse
  rw [hrun]
  obtain ⟨c, rest, hrest⟩ : ∃ c rest, x ++ [comma] ++ r = c :: rest := by
    cases x <;> simp
  rw [hrest, parseLoop]
  simp only [reduceCtorEq, false_and, if_false, ne_eq, not_true_eq_false, hmod, hcomma,
    ge_iff_le, if_neg (not_le.mpr hlength)]

theorem netstringTryparse_encode {x r : Bytes} (hsize : (encode x ++ r).length < 2 ^ 64) :
    netstringTryparse (encode x ++ r) = .ok (encode x).length := by
  have hlength : (lengthPrefix x).length + x.length + 1 = (encode x).length := by
    simp [encode]
    omega
  have hle : (encode x).length ≤ (encode x ++ r).length := by simp
  unfold netstringTryparse
  rw [parse_encode hsize]
  change Except.ok (((lengthPrefix x).length + x.length + 1) % 2 ^ 64) = _
  rw [hlength, Nat.mod_eq_of_lt (by omega)]

theorem parse_cut {x p q : Bytes} (hsplit : p ++ q = encode x) (hq : q ≠ [])
    (hsize : (encode x).length < 2 ^ 64) : parse p = .error .errincomplete := by
  have hlength := length_encode x
  unfold encode at hsplit
  rw [List.append_assoc, List.append_eq_append_iff] at hsplit
  obtain ⟨cut, hcut, -⟩ | ⟨body, rfl, hbody⟩ := hsplit
  · -- the digits read so far are those of a smaller number
    have hdigits : p <+: numeral x.length ∨ p = lengthPrefix x := by
      obtain rfl | ⟨front, last, rfl⟩ := List.eq_nil_or_concat cut
      · right
        simpa using hcut.symm
      · left
        rw [List.concat_eq_append, ← List.append_assoc] at hcut
        exact ⟨front, (List.append_inj_left' hcut rfl).symm⟩
    obtain ⟨more, hmore⟩ | rfl := hdigits
    · by_cases hnil : p = []
      · rw [hnil]
        rfl
      · have hvalue : value 0 p < 2 ^ 64 := by
          have hle := le_value more (value 0 p)
          rw [← value_append, hmore, value_numeral] at hle
          omega
        have hall : ∀ c ∈ p, IsDigit c := fun c hc =>
          isDigit_of_mem_numeral x.length c (hmore ▸ List.mem_append_left _ hc)
        have hrun := @parseLoop_digits p p .sws 0 0 [] hall hvalue (by decide) hnil
        rw [List.append_nil] at hrun
        unfold parse
        rw [hrun]
        rfl
    · have hrun := @parseLoop_lengthPrefix (lengthPrefix x) x (by omega) []
      rw [List.append_nil] at hrun
      unfold parse
      rw [hrun]
      rfl
  · have hshort : body.length ≤ x.length := by
      have hpos := List.length_pos_iff.mpr hq
      have htotal := congrArg List.length hbody
      simp only [List.length_append, List.length_singleton] at htotal
      omega
    unfold parse
    rw [parseLoop_lengthPrefix (by omega)]
    cases body with
    | nil => rfl
    | cons c body =>
      have hprefix : (lengthPrefix x).length = (numeral x.length).length + 1 := by
        simp [lengthPrefix]
      have hmod : ((lengthPrefix x).length + x.length) % 2 ^ 64 =
          (lengthPrefix x).length + x.length := Nat.mod_eq_of_lt (by omega)
      rw [parseLoop]
      simp only [reduceCtorEq, false_and, if_false, ne_eq, not_true_eq_false, hmod]
      rw [if_pos (by rw [List.length_append]; omega)]

theorem netstringTryparse_cut {x p q : Bytes} (hsplit : p ++ q = encode x) (hq : q ≠ [])
    (hsize : (encode x).length < 2 ^ 64) : netstringTryparse p = .error .errincomplete := by
  unfold netstringTryparse
  rw [parse_cut hsplit hq hsize]
  rfl

/-! Iterating over a memory that holds encodings. -/

/-- What is left of an encoding after it has been parsed in place. -/
def consumed (x : Bytes) : Bytes := lengthPrefix x ++ x ++ [0]

theorem length_consumed (x : Bytes) : (consumed x).length = (encode x).length := by
  simp [consumed, encode]

theorem slice_consumed (before x after : Bytes) :
    slice (before ++ consumed x ++ after) (before.length + (lengthPrefix x).length) x.length =
      x := by
  have hmem : before ++ consumed x ++ after =
      before ++ lengthPrefix x ++ x ++ ([0] ++ after) := by
    simp [consumed, List.append_assoc]
  rw [hmem]
  exact slice_eq_of_append (by rw [List.length_append]) rfl

theorem stringAt_consumed {text : Bytes} (htext : ∀ byte ∈ text, byte ≠ 0) (before after : Bytes) :
    stringAt (before ++ consumed text ++ after) (before.length + (lengthPrefix text).length) =
      text := by
  have hmem : before ++ consumed text ++ after =
      before ++ lengthPrefix text ++ (text ++ [0]) ++ after := by
    simp [consumed, List.append_assoc]
  rw [hmem, ← List.length_append, stringAt_append htext]

theorem netstringParse_encode {before x after tail : Bytes}
    (hsize : (encode x ++ after).length < 2 ^ 64) :
    netstringParse (before ++ (encode x ++ after) ++ tail) before.length
        (encode x ++ after).length =
      (.ok ⟨before.length + (lengthPrefix x).length, x.length⟩,
        before ++ consumed x ++ (after ++ tail)) := by
  have hmem : before ++ (encode x ++ after) ++ tail =
      (before ++ lengthPrefix x ++ x) ++ [comma] ++ (after ++ tail) := by
    simp [encode, List.append_assoc]
  have hoff : before.length + (lengthPrefix x).length + x.length =
      (before ++ lengthPrefix x ++ x).length := by
    simp only [List.length_append]
  unfold netstringParse
  rw [slice_eq_of_append rfl rfl, parse_encode hsize]
  dsimp only
  have hone : ([0] : Bytes).length = [comma].length := rfl
  rw [hmem, write_eq_of_append hoff hone]
  simp [consumed, List.append_assoc]

theorem netstringNext_encode {before x after tail : Bytes}
    (hsize : (encode x ++ after).length < 2 ^ 64) :
    netstringNext ⟨before ++ (encode x ++ after) ++ tail, before.length,
        (encode x ++ after).length⟩ =
      (.ok ⟨before.length + (lengthPrefix x).length, x.length⟩,
        ⟨before ++ consumed x ++ (after ++ tail), (before ++ consumed x).length,
          after.length⟩) := by
  have hne : (encode x ++ after).length ≠ 0 := by simp [encode_ne_nil]
  have hnext : before.length + (lengthPrefix x).length + x.length + 1 - before.length =
      (encode x).length := by
    simp only [encode, List.length_append, List.length_singleton]
    omega
  have hfits : ¬ (encode x).length > (encode x ++ after).length := by
    rw [List.length_append]
    omega
  unfold netstringNext
  simp only [if_neg hne, netstringParse_encode hsize, hnext, if_neg hfits]
  rw [List.length_append, List.length_append, length_consumed, Nat.add_sub_cancel_left]

theorem netstringNextPair_encode {before key value after tail : Bytes}
    (hsize : (encode key ++ encode value ++ after).length < 2 ^ 64) :
    netstringNextPair ⟨before ++ (encode key ++ encode value ++ after) ++ tail, before.length,
        (encode key ++ encode value ++ after).length⟩ =
      (.ok ⟨⟨before.length + (lengthPrefix key).length, key.length⟩,
          ⟨(before ++ consumed key).length + (lengthPrefix value).length, value.length⟩⟩,
        ⟨before ++ consumed key ++ consumed value ++ (after ++ tail),
          (before ++ consumed key ++ consumed value).length, after.length⟩) := by
  have hpos : 0 < (encode value).length := List.length_pos_iff.mpr (encode_ne_nil value)
  have hlength : (encode key ++ encode value ++ after).length =
      (encode key).length + (encode value ++ after).length := by
    rw [List.append_assoc, List.length_append]
  have htotal : (encode value ++ after).length = (encode value).length + after.length :=
    List.length_append
  have hconsumed : (before ++ consumed key).length = before.length + (encode key).length := by
    rw [List.length_append, length_consumed]
  have hnext : before.length + (lengthPrefix key).length + key.length + 1 - before.length =
      (encode key).length := by
    simp only [encode, List.length_append, List.length_singleton]
    omega
  have hprefix : (lengthPrefix value).length + value.length + 1 = (encode value).length := by
    simp only [encode, List.length_append, List.length_singleton]
  have hkey := @netstringParse_encode before key (encode value ++ after) tail
    (by rwa [← List.append_assoc])
  have hvalue := @netstringParse_encode (before ++ consumed key) value after tail (by omega)
  rw [← List.append_assoc (encode key)] at hkey
  have hne : (encode key ++ encode value ++ after).length ≠ 0 := by omega
  have hmore : ¬ (encode key).length ≥ (encode key ++ encode value ++ after).length := by omega
  unfold netstringNextPair
  rw [if_neg hne, hkey]
  dsimp only
  rw [hnext, if_neg hmore, hlength, Nat.add_sub_cancel_left, ← hconsumed,
    ← List.append_assoc (before ++ consumed key), hvalue]
  have hafter : (before ++ consumed key).length + (lengthPrefix value).length + value.length + 1 -
      before.length = (encode key).length + (encode value).length := by
    omega
  dsimp only
  have hdata : (before ++ consumed key ++ consumed value).length =
      before.length + ((encode key).length + (encode value).length) := by
    rw [List.length_append, hconsumed, length_consumed, Nat.add_assoc]
  rw [hafter, htotal, ← Nat.add_assoc (encode key).length, Nat.add_sub_cancel_left, hdata]

/-- `n` successive calls of `netstring_next`, each result read when its call
returns. -/
def takeNext : ℕ → Cursor → Option (List Bytes × Cursor)
  | 0, cur => some ([], cur)
  | n + 1, cur =>
    match netstringNext cur with
    | (.error _, _) => none
    | (.ok out, cur) => do
      let (rest, last) ← takeNext n cur
      pure (cur.read out :: rest, last)

/-- The induction is on the strings; what has been consumed moves to the front. -/
theorem takeNext_encode (xs : List Bytes) : ∀ (before r : Bytes),
    ((xs.map encode).flatten ++ r).length < 2 ^ 64 →
    ∃ last, takeNext xs.length ⟨before ++ ((xs.map encode).flatten ++ r), before.length,
        ((xs.map encode).flatten ++ r).length⟩ = some (xs, last) ∧
      last.remaining = r := by
  induction xs with
  | nil =>
    intro before r _
    refine ⟨_, rfl, ?_⟩
    have h := @slice_eq_of_append before r [] before.length r.length rfl rfl
    rwa [List.append_nil] at h
  | cons x xs ih =>
    intro before r hsize
    have hcons : ((x :: xs).map encode).flatten ++ r =
        encode x ++ ((xs.map encode).flatten ++ r) := by
      simp [List.append_assoc]
    rw [hcons] at hsize ⊢
    have hnext := @netstringNext_encode before x ((xs.map encode).flatten ++ r) [] hsize
    rw [List.append_nil, List.append_nil] at hnext
    have hrest : ((xs.map encode).flatten ++ r).length < 2 ^ 64 := by
      rw [List.length_append] at hsize
      omega
    obtain ⟨last, hrun, hlast⟩ := ih (before ++ consumed x) r hrest
    refine ⟨last, ?_, hlast⟩
    rw [List.length_cons, takeNext, hnext]
    have hread := slice_consumed before x ((xs.map encode).flatten ++ r)
    simp only [hrun, Cursor.read, hread]
    rfl

/-- What the encoder appends, `netstring_next` returns string by string and
stops in front of the trailing bytes. A reader that has only part of an
encoding is told so, and one that has all of it learns where it ends. -/
theorem netstring_framing (buf : Buf) (xs : List Bytes) (r : Bytes)
    (hsize : (netstringAppendList buf xs).len + r.length < 2 ^ 64)
    (x : Bytes) (hx : (encode x).length + r.length < 2 ^ 64) :
    xs.foldl netstringAppendBuf buf = netstringAppendList buf xs ∧
    (∃ last, takeNext xs.length ⟨(netstringAppendList buf xs).contents ++ r, buf.len,
        (netstringAppendList buf xs).len - buf.len + r.length⟩ = some (xs, last) ∧
      last.remaining = r) ∧
    (netstringAppendBuf buf x).contents = buf.contents ++ encode x ∧
    (∀ p, p <+: encode x → p ≠ encode x → netstringTryparse p = .error .errincomplete) ∧
    netstringTryparse (encode x ++ r) = .ok (encode x).length := by
  have hfold : ∀ (ys : List Bytes) (b : Buf),
      ys.foldl netstringAppendBuf b = netstringAppendList b ys := by
    intro ys
    induction ys with
    | nil => exact fun _ => rfl
    | cons y ys ih => exact fun b => ih _
  refine ⟨hfold xs buf, ?_, contents_netstringAppendBuf buf x, ?_, ?_⟩
  · have hlen : (netstringAppendList buf xs).len =
        buf.len + (xs.map encode).flatten.length := by
      rw [← Buf.length_contents, contents_netstringAppendList, List.length_append,
        Buf.length_contents]
    obtain ⟨last, hrun, hlast⟩ := takeNext_encode xs buf.contents r
      (by rw [List.length_append]; omega)
    refine ⟨last, ?_, hlast⟩
    rw [contents_netstringAppendList, List.append_assoc, hlen, Nat.add_sub_cancel_left,
      ← List.length_append]
    rwa [Buf.length_contents] at hrun
  · rintro p ⟨q, hq⟩ hne
    refine netstringTryparse_cut hq ?_ (by omega)
    rintro rfl
    exact hne (by rwa [List.append_nil] at hq)
  · exact netstringTryparse_encode (by rw [List.length_append]; omega)

/-- Contents that look like framing themselves: `3:a,:` inside a netstring. -/
theorem netstring_framing_run :
    (∃ last, takeNext 2 ⟨(netstringAppendList (Buf.init 8) [[51, 58, 97, 44, 58], []]).contents ++
        [44], 0, 12⟩ = some ([[51, 58, 97, 44, 58], []], last) ∧ last.remaining = [44]) ∧
    netstringTryparse [53, 58, 51] = .error .errincomplete := by
  have hnumeral : numeral 5 = [53] := numeral_small rfl
  have h := netstring_framing (Buf.init 8) [[51, 58, 97, 44, 58], []] [44]
    (by rw [← Buf.length_contents]; simp [length_encode, hnumeral, numeral_small])
    [51, 58, 97, 44, 58] (by simp [length_encode, hnumeral])
  have hlen : (netstringAppendList (Buf.init 8) [[51, 58, 97, 44, 58], []]).len = 11 := by
    rw [← Buf.length_contents]
    simp [length_encode, hnumeral, numeral_small]
  obtain ⟨-, hnext, -, hprefix, -⟩ := h
  rw [hlen] at hnext
  refine ⟨hnext, hprefix [53, 58, 51] ?_ ?_⟩ <;>
    simp [encode, lengthPrefix, hnumeral, colon, comma]

end Yans.Util.Netstring
