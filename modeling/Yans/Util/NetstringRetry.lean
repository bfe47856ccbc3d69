import Yans.Library.Strings
import Yans.Util.Netstring

/-! Reading a pair again after the bytes that were missing have arrived. The comma of
the key becomes a NUL before the value is known to be complete, so that a cut in the
value cannot be made good. -/
namespace Yans.Util.Netstring

open Library.Memory Library.Decimal Library.Strings

def netstringAppendPairs (buf : Buf) (pairs : List (Bytes × Bytes)) : Buf :=
  pairs.foldl (fun buf pair => netstringAppendPair buf pair.1 pair.2) buf

def encodePair (pair : Bytes × Bytes) : Bytes := encode pair.1 ++ encode pair.2

def encodePairs (pairs : List (Bytes × Bytes)) : Bytes := (pairs.map encodePair).flatten

@[simp] theorem contents_netstringAppendPairs (pairs : List (Bytes × Bytes)) :
    ∀ buf : Buf, (netstringAppendPairs buf pairs).contents = buf.contents ++ encodePairs pairs := by
  induction pairs with
  | nil => simp [netstringAppendPairs, encodePairs]
  | cons pair pairs ih =>
    intro buf
    have hcons : encodePairs (pair :: pairs) = encodePair pair ++ encodePairs pairs := rfl
    rw [hcons, ← List.append_assoc]
    change (netstringAppendPairs (netstringAppendPair buf pair.1 pair.2) pairs).contents = _
    rw [ih, contents_netstringAppendPair]
    rfl

/-- Data that ends the memory, behind the bytes `before`. -/
def Cursor.behind (before data : Bytes) : Cursor := ⟨before ++ data, before.length, data.length⟩

/-- The bytes `more` arrive behind the data. -/
def Cursor.append (cur : Cursor) (more : Bytes) : Cursor :=
  ⟨cur.mem ++ more, cur.data, cur.datalen + more.length⟩

theorem Cursor.append_behind (before first rest : Bytes) :
    (Cursor.behind before first).append rest = Cursor.behind before (first ++ rest) := by
  simp [Cursor.behind, Cursor.append, List.append_assoc]

/-- A call that finds `first` incomplete leaves everything as it was, and finds with
`rest` appended what one call finds in the whole. -/
def Retries (before first rest : Bytes) : Prop :=
  ∀ after, netstringNextPair (Cursor.behind before first) = (.error .errincomplete, after) →
    after = Cursor.behind before first ∧
      netstringNextPair (after.append rest) = netstringNextPair (Cursor.behind before (first ++ rest))

/-- The first part ends behind the first key and in front of the end of its value. -/
def CutsValue (first : Bytes) : List (Bytes × Bytes) → Prop
  | [] => False
  | (key, value) :: _ => (encode key).length ≤ first.length ∧
      first.length < (encodePair (key, value)).length

variable {before : Bytes}

theorem retries_of_unchanged {first : Bytes} (rest : Bytes)
    (h : (netstringNextPair (Cursor.behind before first)).2 = Cursor.behind before first) :
    Retries before first rest := by
  intro after hafter
  rw [hafter] at h
  change after = _ at h
  rw [h, Cursor.append_behind]
  exact ⟨rfl, rfl⟩

theorem netstringParse_cut {x p q : Bytes} (hsplit : p ++ q = encode x) (hq : q ≠ [])
    (hsize : (encode x).length < 2 ^ 64) :
    netstringParse (before ++ p) before.length p.length =
      (.error .errincomplete, before ++ p) := by
  have hslice : slice (before ++ p) before.length p.length = p := by
    have happend := @slice_eq_of_append before p [] _ _ rfl rfl
    rwa [List.append_nil] at happend
  unfold netstringParse
  rw [hslice, parse_cut hsplit hq hsize]

theorem nextPair_cut_key {key first more : Bytes} (hsplit : first ++ more = encode key)
    (hmore : more ≠ []) (hsize : (encode key).length < 2 ^ 64) :
    netstringNextPair (Cursor.behind before first) =
      (.error .errincomplete, Cursor.behind before first) := by
  unfold netstringNextPair Cursor.behind
  by_cases hnone : first.length = 0
  · rw [if_pos hnone]
  · rw [if_neg hnone, netstringParse_cut hsplit hmore hsize]

theorem nextPair_cut_value {key value first more : Bytes}
    (hsplit : first ++ more = encode value) (hmore : more ≠ [])
    (hsize : (encode key ++ encode value).length < 2 ^ 64) :
    netstringNextPair (Cursor.behind before (encode key ++ first)) =
      (.error .errincomplete,
        ⟨before ++ consumed key ++ first, before.length, (encode key ++ first).length⟩) := by
  have hfirst : (encode key ++ first).length < 2 ^ 64 := by
    have hlength := congrArg List.length hsplit
    rw [List.length_append] at hlength hsize ⊢
    omega
  have hkey := @netstringParse_encode before key first [] hfirst
  rw [List.append_nil, List.append_nil] at hkey
  have hne : (encode key ++ first).length ≠ 0 := by simp [encode_ne_nil]
  have hnext : before.length + (lengthPrefix key).length + key.length + 1 - before.length =
      (encode key).length := by
    simp only [encode, List.length_append, List.length_singleton]
    omega
  have hlength : (encode key ++ first).length = (encode key).length + first.length :=
    List.length_append
  unfold netstringNextPair Cursor.behind
  rw [if_neg hne, hkey]
  dsimp only
  rw [hnext]
  by_cases hnone : (encode key).length ≥ (encode key ++ first).length
  · rw [if_pos hnone]
  · have hconsumed : before.length + (encode key).length = (before ++ consumed key).length := by
      rw [List.length_append, length_consumed]
    have hvalue := @netstringParse_cut (before ++ consumed key) value first more hsplit hmore
      (by rw [List.length_append] at hsize; omega)
    rw [if_neg hnone, hconsumed, hlength, Nat.add_sub_cancel_left, hvalue]

theorem nextPair_whole {key value after : Bytes}
    (hsize : (encode key ++ encode value ++ after).length < 2 ^ 64) {cur : Cursor} :
    netstringNextPair (Cursor.behind before (encode key ++ encode value ++ after)) ≠
      (.error .errincomplete, cur) := by
  have hpair := @netstringNextPair_encode before key value after [] hsize
  rw [List.append_nil] at hpair
  unfold Cursor.behind
  rw [hpair]
  intro h
  cases h

theorem consumed_ne_encode (x : Bytes) : consumed x ≠ encode x := by
  intro h
  have hlast := List.append_cancel_left h
  cases hlast

/-- An incomplete pair can be read again unless the cut is between its key and the end
of its value. -/
theorem nextPair_retries_iff {buf : Buf} {pairs : List (Bytes × Bytes)} {first rest : Bytes}
    (hencode : (netstringAppendPairs buf pairs).contents = buf.contents ++ (first ++ rest))
    (hsize : (first ++ rest).length < 2 ^ 64) (before : Bytes) :
    Retries before first rest ↔ ¬ CutsValue first pairs := by
  rw [contents_netstringAppendPairs, List.append_right_inj] at hencode
  cases pairs with
  | nil =>
    obtain ⟨rfl, rfl⟩ := List.append_eq_nil_iff.mp hencode.symm
    exact iff_of_true (retries_of_unchanged [] rfl) not_false
  | cons pair pairs =>
    obtain ⟨key, value⟩ := pair
    have hcons : encodePairs ((key, value) :: pairs) =
        encode key ++ (encode value ++ encodePairs pairs) := List.append_assoc ..
    rw [hcons] at hencode
    have hkeySize : (encode key).length < 2 ^ 64 := by
      rw [← hencode, List.length_append] at hsize
      omega
    by_cases hinKey : first.length < (encode key).length
    · -- the key is cut
      obtain ⟨more, hsplit⟩ : ∃ more, first ++ more = encode key :=
        List.prefix_of_prefix_length_le ⟨rest, rfl⟩ ⟨_, hencode⟩ hinKey.le
      have hmore : more ≠ [] := by
        rintro rfl
        rw [← hsplit, List.append_nil] at hinKey
        exact absurd hinKey (lt_irrefl _)
      refine iff_of_true (retries_of_unchanged rest ?_) fun h => Nat.not_le.mpr hinKey h.1
      rw [nextPair_cut_key hsplit hmore hkeySize]
    obtain ⟨body, rfl⟩ : ∃ body, encode key ++ body = first :=
      List.prefix_of_prefix_length_le ⟨_, hencode⟩ ⟨rest, rfl⟩ (Nat.not_lt.mp hinKey)
    rw [List.append_assoc, List.append_right_inj] at hencode
    by_cases hinValue : body.length < (encode value).length
    · -- the value is cut
      obtain ⟨more, hsplit⟩ : ∃ more, body ++ more = encode value :=
        List.prefix_of_prefix_length_le ⟨rest, rfl⟩ ⟨_, hencode⟩ hinValue.le
      have hmore : more ≠ [] := by
        rintro rfl
        rw [← hsplit, List.append_nil] at hinValue
        exact absurd hinValue (lt_irrefl _)
      have hpairSize : (encode key ++ encode value).length < 2 ^ 64 := by
        rw [List.append_assoc, ← hencode] at hsize
        simp only [List.length_append] at hsize ⊢
        omega
      refine iff_of_false (fun hretries => ?_) (not_not.mpr ⟨?_, ?_⟩)
      · obtain ⟨hsame, -⟩ := hretries _ (nextPair_cut_value hsplit hmore hpairSize)
        have hmem := congrArg Cursor.mem hsame
        change before ++ consumed key ++ body = before ++ (encode key ++ body) at hmem
        rw [List.append_assoc, List.append_right_inj, List.append_left_inj] at hmem
        exact consumed_ne_encode key hmem
      · rw [List.length_append]
        exact Nat.le_add_right _ _
      · simp only [encodePair, List.length_append]
        omega
    · obtain ⟨after, rfl⟩ : ∃ after, encode value ++ after = body :=
        List.prefix_of_prefix_length_le ⟨_, hencode⟩ ⟨rest, rfl⟩ (Nat.not_lt.mp hinValue)
      rw [← List.append_assoc] at hsize ⊢
      refine iff_of_true (fun cur hincomplete => ?_) fun h => ?_
      · refine absurd hincomplete (nextPair_whole ?_)
        rw [List.length_append] at hsize
        omega
      · have hlt := h.2
        simp only [encodePair, List.length_append] at hlt
        omega

/-- One pair, of which the value is cut behind its length. -/
theorem nextPair_retries_iff_cut :
    Retries [] (ascii "1:a,1") (ascii ":b,") ↔ ¬ CutsValue (ascii "1:a,1") [([97], [98])] := by
  have hnumeral : numeral 1 = [49] := numeral_small rfl
  apply @nextPair_retries_iff (Buf.init 8) [([97], [98])]
  · simp [encodePairs, encodePair, encode, lengthPrefix, hnumeral]
    decide
  · decide

/-- The pair is lost when the data ends behind its key. -/
theorem retry_refused : ¬ Retries [] (ascii "1:a,") (ascii "1:b,") ∧
    netstringNextPair ((netstringNextPair (Cursor.behind [] (ascii "1:a,"))).2.append (ascii "1:b,")) =
      (.error .errfmt, ⟨[49, 58, 97, 0, 49, 58, 98, 44], 0, 8⟩) := by
  refine ⟨fun h => ?_, by decide⟩
  have hcut : netstringNextPair (Cursor.behind [] (ascii "1:a,")) =
      (.error .errincomplete, ⟨[49, 58, 97, 0], 0, 4⟩) := by decide
  exact absurd (h _ hcut).1 (by decide)

end Yans.Util.Netstring
