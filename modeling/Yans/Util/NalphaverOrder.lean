import Yans.Library.Comparisons
import Yans.Util.Strtoul

/-! What `nalphaver_cmp` orders. A version is the sequence of its fields, where
what follows the last one is the field of the empty string. -/
namespace Yans.Util.Nalphaver

open Library.Memory Library.Decimal Library.Strings Library.Comparisons

/-- A version string; its terminating zero is not part of it. -/
abbrev VersionString := { str : Bytes // ∀ byte ∈ str, byte ≠ 0 }

def nextField (na : NalphaverField) : NalphaverField := (next na).2

def fieldsFrom (na : NalphaverField) : ℕ → NalphaverField
  | 0 => nextField na
  | i + 1 => fieldsFrom (nextField na) i

def fieldsOf (str : Bytes) : ℕ → NalphaverField := fieldsFrom (startField str)

/-- The length of every suffix is an `int`. -/
def Fits (str : Bytes) : Prop := ∀ i, (fieldsOf str i).suffixlen ≤ intMax

/-- `nalphaver_cmp` is a total preorder as far as these three strings show. -/
structure OrderedAt (a b c : Bytes) : Prop where
  terminates : ∃ fuel, nalphaverLoop fuel (startField a) (startField b) = some (nalphaverCmp a b)
  result : nalphaverCmp a b = -1 ∨ nalphaverCmp a b = 0 ∨ nalphaverCmp a b = 1
  swap : nalphaverCmp a b = -nalphaverCmp b a
  refl : nalphaverCmp a a = 0
  trans : nalphaverCmp a b ≤ 0 → nalphaverCmp b c ≤ 0 → nalphaverCmp a c ≤ 0

theorem fieldsFrom_zero (na : NalphaverField) : fieldsFrom na 0 = nextField na := rfl

theorem fieldsFrom_succ (na : NalphaverField) (i : ℕ) :
    fieldsFrom na (i + 1) = fieldsFrom (nextField na) i := rfl

variable {na : NalphaverField}

theorem nextField_of_empty (h : na.pos = []) :
    nextField na = startField [] := by
  simp [nextField, next, startField, h]

theorem fieldsFrom_of_empty (h : na.pos = []) (i : ℕ) :
    fieldsFrom na i = startField [] := by
  induction i generalizing na with
  | zero => exact nextField_of_empty h
  | succ i ih =>
    rw [fieldsFrom_succ, nextField_of_empty h]
    exact ih rfl

theorem next_more_iff (na : NalphaverField) : (next na).1 = true ↔ na.pos ≠ [] := by
  unfold next
  by_cases h : na.pos = [] <;> simp [h]

theorem length_nextField_le (na : NalphaverField) :
    (nextField na).pos.length ≤ na.pos.length := by
  by_cases h : na.pos = []
  · rw [nextField_of_empty h, h]
    rfl
  · exact (next_length_lt na h).le

theorem cmp_empty : cmp (startField []) (startField []) = 0 := by decide

theorem nalphaverLoop_succ (fuel : ℕ) (left right : NalphaverField) :
    nalphaverLoop (fuel + 1) left right =
      if (next left).1 = true ∨ (next right).1 = true then
        if cmp (nextField left) (nextField right) ≠ 0 then
          some (cmp (nextField left) (nextField right))
        else nalphaverLoop fuel (nextField left) (nextField right)
      else some 0 := rfl

theorem nalphaverLoop_eq {fuel : ℕ} : ∀ {left right : NalphaverField} {n : ℕ},
    left.pos.length + right.pos.length < fuel → left.pos.length + right.pos.length ≤ n →
    nalphaverLoop fuel left right =
      some (firstDifference cmp n (fieldsFrom left) (fieldsFrom right)) := by
  induction fuel with
  | zero => exact fun h => absurd h (Nat.not_lt_zero _)
  | succ fuel ih =>
    intro left right n hfuel hn
    have hleft := length_nextField_le left
    have hright := length_nextField_le right
    rw [nalphaverLoop_succ]
    by_cases hmore : (next left).1 = true ∨ (next right).1 = true
    · rw [if_pos hmore]
      rw [next_more_iff, next_more_iff] at hmore
      have hless : (nextField left).pos.length + (nextField right).pos.length <
          left.pos.length + right.pos.length := by
        cases hmore with
        | inl h => exact Nat.add_lt_add_of_lt_of_le (next_length_lt left h) hright
        | inr h => exact Nat.add_lt_add_of_le_of_lt hleft (next_length_lt right h)
      obtain ⟨n, rfl⟩ := Nat.exists_eq_succ_of_ne_zero (by omega : n ≠ 0)
      rw [firstDifference, fieldsFrom_zero, fieldsFrom_zero]
      by_cases hval : cmp (nextField left) (nextField right) = 0
      · rw [if_pos hval, if_neg (not_not.mpr hval)]
        apply ih (by omega) (by omega)
      · rw [if_neg hval, if_pos hval]
    · rw [if_neg hmore]
      rw [next_more_iff, next_more_iff] at hmore
      have hempty : left.pos = [] ∧ right.pos = [] := by simpa using hmore
      rw [firstDifference_eq_zero]
      intro i
      rw [fieldsFrom_of_empty hempty.1, fieldsFrom_of_empty hempty.2]
      exact cmp_empty

theorem nalphaverCmp_eq {a b : Bytes} {n : ℕ} (h : a.length + b.length ≤ n) :
    nalphaverCmp a b = firstDifference cmp n (fieldsOf a) (fieldsOf b) := by
  have hloop : nalphaverLoop (a.length + b.length + 1) (startField a) (startField b) =
      some (firstDifference cmp n (fieldsOf a) (fieldsOf b)) :=
    nalphaverLoop_eq (Nat.lt_succ_self _) h
  rw [nalphaverCmp, hloop, Option.getD_some]

/-- What `cmp` computes before it clamps the result. -/
def difference (l r : NalphaverField) : ℤ :=
  if (l.val : ℤ) - r.val = 0 then
    if strncmp l.suffix r.suffix (min l.suffixlen r.suffixlen) = 0 then
      (toInt l.suffixlen - toInt r.suffixlen).toInt
    else strncmp l.suffix r.suffix (min l.suffixlen r.suffixlen)
  else l.val - r.val

theorem cmp_eq (l r : NalphaverField) :
    cmp l r = if difference l r < -1 then -1 else if difference l r > 1 then 1
      else difference l r := by
  have hdifference : (let val : ℤ := l.val - r.val
      let val := if val = 0 then strncmp l.suffix r.suffix (min l.suffixlen r.suffixlen) else val
      if val = 0 then (toInt l.suffixlen - toInt r.suffixlen).toInt else val) =
      difference l r := by
    unfold difference
    dsimp only
    by_cases hval : (l.val : ℤ) - r.val = 0
    · rw [if_pos hval, if_pos hval]
    · rw [if_neg hval, if_neg hval, if_neg hval]
  rw [← hdifference]
  rfl

theorem cmp_sign (l r : NalphaverField) :
    (cmp l r ≤ 0 ↔ difference l r ≤ 0) ∧ (0 ≤ cmp l r ↔ 0 ≤ difference l r) := by
  rw [cmp_eq]
  split
  · omega
  · split <;> omega

theorem cmp_range (l r : NalphaverField) : cmp l r = -1 ∨ cmp l r = 0 ∨ cmp l r = 1 := by
  rw [cmp_eq]
  split
  · omega
  · split <;> omega

theorem firstDifference_range (n : ℕ) : ∀ u v : ℕ → NalphaverField,
    firstDifference cmp n u v = -1 ∨ firstDifference cmp n u v = 0 ∨
      firstDifference cmp n u v = 1 := by
  induction n with
  | zero => exact fun _ _ => .inr (.inl rfl)
  | succ n ih =>
    intro u v
    rw [firstDifference]
    split
    · exact ih _ _
    · exact cmp_range _ _

theorem nalphaverCmp_range (a b : Bytes) :
    nalphaverCmp a b = -1 ∨ nalphaverCmp a b = 0 ∨ nalphaverCmp a b = 1 := by
  rw [nalphaverCmp_eq (le_refl _)]
  exact firstDifference_range _ _ _

theorem nalphaverLoop_terminates (a b : Bytes) :
    ∃ fuel, nalphaverLoop fuel (startField a) (startField b) = some (nalphaverCmp a b) := by
  have hloop := @nalphaverLoop_eq _ (startField a) (startField b) _ (Nat.lt_succ_self _)
    (le_refl _)
  exact ⟨_, hloop.trans (congrArg some (nalphaverCmp_eq (le_refl _)).symm)⟩

/-! The fields as a pair of a number and a text -/

def NalphaverField.text (na : NalphaverField) : Bytes := na.suffix.take na.suffixlen

/-- What `next` leaves behind in a string without zeros. -/
structure Sound (na : NalphaverField) : Prop where
  pos : ∀ byte ∈ na.pos, byte ≠ 0
  suffix : ∀ byte ∈ na.suffix, byte ≠ 0
  length : na.suffixlen ≤ na.suffix.length

theorem Sound.length_text (h : Sound na) : na.text.length = na.suffixlen :=
  List.length_take_of_le h.length

variable {str : Bytes}

theorem Sound.startField (h : ∀ byte ∈ str, byte ≠ 0) : Sound (startField str) :=
  ⟨h, nofun, Nat.le_refl 0⟩

theorem Sound.nextField (h : Sound na) : Sound (nextField na) := by
  by_cases hempty : na.pos = []
  · rw [nextField_of_empty hempty]
    exact Sound.startField nofun
  · have hsuffix : ∀ byte ∈ (strtoul na.pos).2, byte ≠ 0 :=
      fun byte hmem => h.pos byte ((strtoul_suffix na.pos).subset hmem)
    unfold Nalphaver.nextField next
    rw [if_neg hempty]
    constructor
    · intro byte hmem
      apply hsuffix byte
      exact List.drop_subset _ _ ((List.dropWhile_suffix _).subset hmem)
    · exact hsuffix
    · exact (min_le_left _ _).trans (List.takeWhile_prefix _).length_le

theorem Sound.fieldsFrom (h : Sound na) (i : ℕ) :
    Sound (fieldsFrom na i) := by
  induction i generalizing na with
  | zero => exact h.nextField
  | succ i ih => exact ih h.nextField

theorem strncmp_sign (a : ℕ) : ∀ {b : ℕ} {left right : Bytes}, (∀ byte ∈ left, byte ≠ 0) →
    (∀ byte ∈ right, byte ≠ 0) → a ≤ left.length → b ≤ right.length →
    (strncmp left right (min a b) ≠ 0 →
      strcmp (left.take a) (right.take b) = strncmp left right (min a b)) ∧
    (strncmp left right (min a b) = 0 →
      ((a : ℤ) - b ≤ 0 ↔ strcmp (left.take a) (right.take b) ≤ 0) ∧
      (0 ≤ (a : ℤ) - b ↔ 0 ≤ strcmp (left.take a) (right.take b))) := by
  induction a with
  | zero =>
    intro b left right _ hright _ hb
    rw [Nat.zero_min, List.take_zero, strcmp]
    refine ⟨fun h => absurd rfl h, fun _ => ?_⟩
    cases b with
    | zero => simp
    | succ b =>
      obtain ⟨ch, right, rfl⟩ := List.exists_cons_of_length_pos (Nat.zero_lt_of_lt hb)
      have hch : ch.toNat ≠ 0 := fun h => hright ch List.mem_cons_self (UInt8.toNat_inj.mp h)
      rw [List.take_succ_cons, List.headD_cons]
      omega
  | succ a ih =>
    intro b left right hleft hright ha hb
    obtain ⟨ch, left, rfl⟩ := List.exists_cons_of_length_pos (Nat.zero_lt_of_lt ha)
    have hch : ch ≠ 0 := hleft ch List.mem_cons_self
    have hpos : ch.toNat ≠ 0 := fun h => hch (UInt8.toNat_inj.mp h)
    rw [List.take_succ_cons, strcmp]
    cases b with
    | zero =>
      rw [Nat.min_zero, List.take_zero, strncmp, List.headD_nil, if_pos hch]
      refine ⟨fun h => absurd rfl h, fun _ => ?_⟩
      rw [UInt8.toNat_zero]
      omega
    | succ b =>
      obtain ⟨ch', right, rfl⟩ := List.exists_cons_of_length_pos (Nat.zero_lt_of_lt hb)
      rw [Nat.succ_min_succ, strncmp, List.take_succ_cons, List.headD_cons, List.headD_cons,
        List.headD_cons, List.tail_cons, List.tail_cons, List.tail_cons]
      by_cases hne : ch ≠ ch'
      · rw [if_pos hne, if_pos hne]
        refine ⟨fun _ => rfl, fun h => absurd (sub_toNat_eq_zero.mp h) hne⟩
      · rw [if_neg hne, if_neg hne, if_neg hch, if_neg hch]
        have hrest := @ih b left right (fun byte hmem => hleft byte (List.mem_cons_of_mem _ hmem))
          (fun byte hmem => hright byte (List.mem_cons_of_mem _ hmem))
          (Nat.le_of_succ_le_succ ha) (Nat.le_of_succ_le_succ hb)
        refine ⟨hrest.1, fun h => ?_⟩
        omega

theorem toInt_eq (n : ℕ) : (toInt n).toInt = (n : ℤ).bmod (2 ^ 32) :=
  BitVec.toInt_ofNat' n

theorem toInt_sub {a b : ℕ} (ha : a ≤ intMax) (hb : b ≤ intMax) :
    (toInt a - toInt b).toInt = (a : ℤ) - b := by
  unfold intMax at ha hb
  rw [Int32.toInt_sub, toInt_eq, toInt_eq, Int.bmod_sub_bmod, Int.sub_bmod_bmod]
  exact Int.bmod_eq_of_le (by omega) (by omega)

/-- The fields are ordered by their numbers, then by their texts. -/
def fieldOrder (left right : NalphaverField) : ℤ :=
  if (left.val : ℤ) - right.val = 0 then strcmp left.text right.text else left.val - right.val

def Comparable (na : NalphaverField) : Prop := Sound na ∧ na.suffixlen ≤ intMax

theorem isComparison_fieldOrder : IsComparison fieldOrder Comparable := by
  have hval : IsComparison (fun a b : ℕ => (a : ℤ) - b) fun _ => True :=
    ⟨fun _ _ _ _ => by omega, fun _ _ _ _ _ _ _ _ => by omega⟩
  have hfield := (hval.comap NalphaverField.val).lex
    (isComparison_strcmp.comap NalphaverField.text)
  exact hfield.mono fun _ _ => trivial

variable {l r : NalphaverField}

theorem difference_sign (hl : Comparable l) (hr : Comparable r) :
    (difference l r ≤ 0 ↔ fieldOrder l r ≤ 0) ∧ (0 ≤ difference l r ↔ 0 ≤ fieldOrder l r) := by
  have hsign := strncmp_sign l.suffixlen hl.1.suffix hr.1.suffix hl.1.length hr.1.length
  unfold difference fieldOrder NalphaverField.text
  by_cases hval : (l.val : ℤ) - r.val = 0
  · rw [if_pos hval, if_pos hval]
    by_cases hsame : strncmp l.suffix r.suffix (min l.suffixlen r.suffixlen) = 0
    · rw [if_pos hsame, toInt_sub hl.2 hr.2]
      exact hsign.2 hsame
    · rw [if_neg hsame, hsign.1 hsame]
      exact ⟨Iff.rfl, Iff.rfl⟩
  · rw [if_neg hval, if_neg hval]
    exact ⟨Iff.rfl, Iff.rfl⟩

theorem isComparison_cmp : IsComparison cmp Comparable :=
  isComparison_fieldOrder.of_sign
    (fun a b ha hb => (cmp_sign a b).1.trans (difference_sign ha hb).1)
    (fun a b ha hb => (cmp_sign a b).2.trans (difference_sign ha hb).2)

theorem Fits.comparable {str : VersionString} (h : Fits str) (i : ℕ) :
    Comparable (fieldsOf str i) :=
  ⟨(Sound.startField str.2).fieldsFrom i, h i⟩

/-! A suffix that is too long for an `int` -/

theorem nextField_startField (na : NalphaverField) :
    nextField (startField na.pos) = nextField na := by
  unfold nextField next startField
  split <;> rfl

theorem fieldsOf_zero (str : Bytes) : fieldsOf str 0 = nextField (startField str) := rfl

theorem fieldsOf_succ (str : Bytes) (i : ℕ) :
    fieldsOf str (i + 1) = fieldsOf (nextField (startField str)).pos i := by
  unfold fieldsOf
  rw [fieldsFrom_succ]
  cases i with
  | zero => exact (nextField_startField _).symm
  | succ i => rw [fieldsFrom_succ, fieldsFrom_succ, nextField_startField]

theorem fieldsOf_empty (i : ℕ) : fieldsOf [] i = startField [] := fieldsFrom_of_empty rfl i

theorem strncmp_take (n : ℕ) : ∀ left right : Bytes,
    strncmp left right n = strncmp (left.take n) (right.take n) n := by
  induction n with
  | zero => exact fun _ _ => rfl
  | succ n ih =>
    intro left right
    have hhead : ∀ text : Bytes, (text.take (n + 1)).headD 0 = text.headD 0 := by
      intro text
      cases text <;> rfl
    have htail : ∀ text : Bytes, (text.take (n + 1)).tail = text.tail.take n := by
      intro text
      cases text <;> simp
    rw [strncmp, strncmp, hhead, hhead, htail, htail, ← ih]

theorem strncmp_self (n : ℕ) : ∀ text : Bytes, strncmp text text n = 0 := by
  induction n with
  | zero => exact fun _ => rfl
  | succ n ih =>
    intro text
    rw [strncmp, if_neg (not_not.mpr rfl), ih]
    exact ite_self 0

theorem strncmp_of_prefix (hl : Sound l) (hr : Sound r)
    (htext : l.text <+: r.text) :
    strncmp l.suffix r.suffix (min l.suffixlen r.suffixlen) = 0 ∧
      strncmp r.suffix l.suffix (min r.suffixlen l.suffixlen) = 0 := by
  have hle : l.suffixlen ≤ r.suffixlen := by
    rw [← hl.length_text, ← hr.length_text]
    exact htext.length_le
  have hsame : r.suffix.take l.suffixlen = l.suffix.take l.suffixlen := by
    have htake := List.prefix_iff_eq_take.mp htext
    rw [hl.length_text] at htake
    unfold NalphaverField.text at htake
    rw [htake, List.take_take, min_eq_left hle]
  rw [min_eq_left hle, min_eq_right hle]
  constructor
  · rw [strncmp_take, hsame]
    exact strncmp_self _ _
  · rw [strncmp_take, hsame]
    exact strncmp_self _ _

theorem difference_of_prefix (hl : Sound l) (hr : Sound r)
    (hval : l.val = r.val) (htext : l.text <+: r.text) :
    difference l r = (toInt l.suffixlen - toInt r.suffixlen).toInt ∧
      difference r l = (toInt r.suffixlen - toInt l.suffixlen).toInt := by
  have hzero := strncmp_of_prefix hl hr htext
  unfold difference
  rw [hval, Int.sub_self, if_pos rfl, if_pos rfl, if_pos hzero.1, if_pos hzero.2]
  exact ⟨rfl, rfl⟩

theorem cmp_of_eq (hl : Sound l) (hr : Sound r) (hval : l.val = r.val)
    (htext : l.text = r.text) : cmp l r = 0 ∧ cmp r l = 0 := by
  have hlength : l.suffixlen = r.suffixlen := by
    rw [← hl.length_text, ← hr.length_text, htext]
  have hdifference := difference_of_prefix hl hr hval (htext ▸ List.prefix_refl _)
  rw [hlength, Int32.sub_self] at hdifference
  rw [cmp_eq, cmp_eq, hdifference.1, hdifference.2]
  exact ⟨rfl, rfl⟩

theorem toInt_sub_half {a b : ℕ} (h : a = b + 2 ^ 31) :
    (toInt a - toInt b).toInt = -2147483648 ∧ (toInt b - toInt a).toInt = -2147483648 := by
  rw [Int32.toInt_sub, Int32.toInt_sub, toInt_eq, toInt_eq, Int.bmod_sub_bmod, Int.sub_bmod_bmod,
    Int.bmod_sub_bmod, Int.sub_bmod_bmod]
  have hforth : (a : ℤ) - b = 2147483648 := by omega
  have hback : (b : ℤ) - a = -2147483648 := by omega
  rw [hforth, hback]
  decide

theorem cmp_of_half (hl : Sound l) (hr : Sound r) (hval : l.val = r.val)
    (htext : l.text <+: r.text) (hlength : r.suffixlen = l.suffixlen + 2 ^ 31) :
    cmp l r = -1 ∧ cmp r l = -1 := by
  have hdifference := difference_of_prefix hl hr hval htext
  have hhalf := toInt_sub_half hlength
  rw [cmp_eq, cmp_eq, hdifference.1, hdifference.2, hhalf.1, hhalf.2]
  decide

/-- The field that starts with the number `l` and goes on at `cptr`. -/
def fieldAt (l : ℕ) (cptr : Bytes) : NalphaverField where
  pos := (cptr.drop (min (cptr.takeWhile (· ≠ 46)).length uintMax)).dropWhile (· = 46)
  suffix := cptr
  val := min l intMax
  suffixlen := min (cptr.takeWhile (· ≠ 46)).length uintMax

theorem nextField_eq (str : Bytes) :
    nextField (startField str) = fieldAt (strtoul str).1 (strtoul str).2 := by
  unfold nextField next
  by_cases hstr : (startField str).pos = []
  · have hempty : str = [] := hstr
    rw [hempty]
    rfl
  · rw [if_neg hstr]
    rfl

/-- The rest of a string that `strcspn` stops at. -/
def AtDot (rest : Bytes) : Prop := rest = [] ∨ rest.head? = some 46

theorem atDot_dropWhile (cptr : Bytes) : AtDot (cptr.dropWhile (· ≠ 46)) := by
  induction cptr with
  | nil => exact .inl rfl
  | cons ch cptr ih =>
    by_cases hdot : ch = 46
    · rw [hdot]
      exact .inr rfl
    · rw [List.dropWhile_cons_of_pos (by simpa using hdot)]
      exact ih

theorem fieldAt_append {l : ℕ} {text rest : Bytes} (htext : ∀ ch ∈ text, ch ≠ 46)
    (hrest : AtDot rest) (hlen : text.length ≤ uintMax) :
    fieldAt l (text ++ rest) =
      ⟨rest.dropWhile (· = 46), text ++ rest, min l intMax, text.length⟩ := by
  have htake : (text ++ rest).takeWhile (· ≠ 46) = text := by
    rw [List.takeWhile_append_of_pos (by simpa using htext)]
    cases hrest with
    | inl hnil => rw [hnil, List.takeWhile_nil, List.append_nil]
    | inr hhead =>
      obtain ⟨rest, rfl⟩ := List.head?_eq_some_iff.mp hhead
      rw [List.takeWhile_cons_of_neg (by decide), List.append_nil]
  unfold fieldAt
  rw [htake, min_eq_left hlen, List.drop_left]

theorem atDot_cut {rest cut : Bytes} (hrest : AtDot rest)
    (hcut : cut <+: rest.dropWhile (· = 46)) :
    ∃ rest', rest' <+: rest ∧ AtDot rest' ∧ rest'.dropWhile (· = 46) = cut := by
  have hsplit := @List.takeWhile_append_dropWhile _ (fun ch : UInt8 => decide (ch = 46)) rest
  have hall : ∀ ch ∈ rest.takeWhile (· = 46), decide (ch = 46) = true :=
    fun ch hch => by simpa using List.mem_takeWhile_imp hch
  refine ⟨rest.takeWhile (· = 46) ++ cut, ?_, ?_, ?_⟩
  · have happend := (List.prefix_append_right_inj (rest.takeWhile (· = 46))).mpr hcut
    rwa [hsplit] at happend
  · cases hrest with
    | inl hnil =>
      rw [hnil] at hcut ⊢
      exact .inl (List.prefix_nil.mp hcut)
    | inr hhead =>
      obtain ⟨rest, rfl⟩ := List.head?_eq_some_iff.mp hhead
      exact .inr rfl
  · rw [List.dropWhile_append_of_pos hall]
    cases cut with
    | nil => rfl
    | cons ch cut =>
      apply List.dropWhile_cons_of_neg
      obtain ⟨tail, htail⟩ := hcut
      have hne : rest.dropWhile (· = 46) ≠ [] := by
        rw [← htail]
        exact List.cons_ne_nil _ _
      have hhead := List.head_dropWhile_not (fun ch : UInt8 => decide (ch = 46)) hne
      simp only [← htail, List.cons_append, List.head_cons] at hhead
      rw [hhead]
      exact Bool.false_ne_true

theorem nextField_cut {cut : Bytes} (hfit : (nextField (startField str)).suffixlen ≤ intMax)
    (hcut : cut <+: (nextField (startField str)).pos) :
    ∃ str', str' <+: str ∧ (nextField (startField str')).pos = cut ∧
      (nextField (startField str')).val = (nextField (startField str)).val ∧
      (nextField (startField str')).suffixlen = (nextField (startField str)).suffixlen ∧
      (nextField (startField str')).text = (nextField (startField str)).text := by
  have hlen : ((strtoul str).2.takeWhile (· ≠ 46)).length ≤ uintMax := by
    have hmax : intMax < uintMax := by decide
    rw [nextField_eq] at hfit
    change min _ uintMax ≤ intMax at hfit
    omega
  have htext : ∀ ch ∈ (strtoul str).2.takeWhile (· ≠ 46), ch ≠ 46 :=
    fun ch hch => by simpa using List.mem_takeWhile_imp hch
  have hrest := atDot_dropWhile (strtoul str).2
  have hsplit := @List.takeWhile_append_dropWhile _ (fun ch : UInt8 => decide (ch ≠ 46))
    (strtoul str).2
  generalize (strtoul str).2.takeWhile (· ≠ 46) = text at hlen htext hsplit
  generalize (strtoul str).2.dropWhile (· ≠ 46) = rest at hrest hsplit
  have hfield : nextField (startField str) =
      ⟨rest.dropWhile (· = 46), text ++ rest, min (strtoul str).1 intMax, text.length⟩ := by
    rw [nextField_eq, ← hsplit, fieldAt_append htext hrest hlen]
  rw [hfield] at hcut ⊢
  obtain ⟨rest', hfront, hrest', hdots⟩ := atDot_cut hrest hcut
  have hcptr : text ++ rest' <+: (strtoul str).2 := by
    rw [← hsplit]
    exact (List.prefix_append_right_inj text).mpr hfront
  obtain ⟨number, hnumber, hread⟩ := strtoul_cut hcptr
  have hfield' : nextField (startField (number ++ (text ++ rest'))) =
      ⟨cut, text ++ rest', min (strtoul str).1 intMax, text.length⟩ := by
    rw [nextField_eq, hread, fieldAt_append htext hrest' hlen, hdots]
  refine ⟨number ++ (text ++ rest'), ?_, ?_⟩
  · rw [hnumber]
    exact (List.prefix_append_right_inj number).mpr hcptr
  · rw [hfield']
    refine ⟨rfl, rfl, rfl, ?_⟩
    unfold NalphaverField.text
    rw [List.take_left, List.take_left]

theorem nextField_shorten (hlong : intMax < (nextField (startField str)).suffixlen) :
    ∃ str', str' <+: str ∧ (nextField (startField str')).pos = [] ∧
      (nextField (startField str')).val = (nextField (startField str)).val ∧
      (nextField (startField str)).suffixlen =
        (nextField (startField str')).suffixlen + 2 ^ 31 ∧
      (nextField (startField str')).text <+: (nextField (startField str)).text := by
  rw [nextField_eq] at hlong ⊢
  obtain ⟨len, hlen⟩ : ∃ len, len + 2 ^ 31 = (fieldAt (strtoul str).1 (strtoul str).2).suffixlen :=
    ⟨_, Nat.sub_add_cancel (by unfold intMax at hlong; omega)⟩
  have hle : len + 2 ^ 31 ≤ ((strtoul str).2.takeWhile (· ≠ 46)).length := by
    rw [hlen]
    exact min_le_left _ _
  have hmax : len + 2 ^ 31 ≤ uintMax := by
    rw [hlen]
    exact min_le_right _ _
  have hwhole := List.takeWhile_prefix (l := (strtoul str).2) (fun ch : UInt8 => decide (ch ≠ 46))
  have hlength := List.length_take_of_le ((Nat.le_of_add_right_le hle).trans hwhole.length_le)
  have htext : ∀ ch ∈ (strtoul str).2.take len, ch ≠ 46 := by
    intro ch hch
    have htake : (strtoul str).2.take len = ((strtoul str).2.takeWhile (· ≠ 46)).take len := by
      rw [List.prefix_iff_eq_take.mp hwhole, List.take_take, min_eq_left (by omega)]
    rw [htake] at hch
    simpa using List.mem_takeWhile_imp (List.mem_of_mem_take hch)
  obtain ⟨number, hnumber, hread⟩ := strtoul_cut (List.take_prefix len (strtoul str).2)
  have hfield : nextField (startField (number ++ (strtoul str).2.take len)) =
      ⟨[], (strtoul str).2.take len, min (strtoul str).1 intMax, len⟩ := by
    have happend := @fieldAt_append (strtoul str).1 _ [] htext (.inl rfl) (by omega)
    rw [List.append_nil, hlength] at happend
    rw [nextField_eq, hread, happend]
    rfl
  refine ⟨number ++ (strtoul str).2.take len, ?_, ?_⟩
  · have happend := (List.prefix_append_right_inj number).mpr
      (List.take_prefix len (strtoul str).2)
    rwa [← hnumber] at happend
  · rw [hfield]
    refine ⟨rfl, rfl, hlen.symm, ?_⟩
    unfold NalphaverField.text
    rw [← hlen]
    change ((strtoul str).2.take len).take len <+: (strtoul str).2.take (len + 2 ^ 31)
    rw [List.take_take, Nat.min_self]
    exact List.take_prefix_take_left (by omega)

theorem exists_misordered (i : ℕ) : ∀ {str : Bytes}, (∀ byte ∈ str, byte ≠ 0) →
    (∀ j < i, (fieldsOf str j).suffixlen ≤ intMax) → intMax < (fieldsOf str i).suffixlen →
    ∃ str', str' <+: str ∧ Fits str' ∧
      (∀ j < i, cmp (fieldsOf str j) (fieldsOf str' j) = 0 ∧
        cmp (fieldsOf str' j) (fieldsOf str j) = 0) ∧
      cmp (fieldsOf str i) (fieldsOf str' i) = -1 ∧
      cmp (fieldsOf str' i) (fieldsOf str i) = -1 := by
  induction i with
  | zero =>
    intro str hzero _ hlong
    obtain ⟨str', hfront, hpos, hval, hlength, htext⟩ := nextField_shorten hlong
    have hsound := (Sound.startField hzero).nextField
    have hsound' := (Sound.startField fun byte hmem => hzero byte (hfront.subset hmem)).nextField
    have hhalf := cmp_of_half hsound' hsound hval htext hlength
    refine ⟨str', hfront, ?_, nofun, hhalf.2, hhalf.1⟩
    intro j
    cases j with
    | zero =>
      have hmax : (nextField (startField str)).suffixlen ≤ uintMax := by
        rw [nextField_eq]
        exact min_le_right _ _
      change (nextField (startField str')).suffixlen ≤ intMax
      unfold uintMax at hmax
      unfold intMax
      omega
    | succ j =>
      rw [fieldsOf_succ, hpos, fieldsOf_empty]
      exact Nat.zero_le _
  | succ i ih =>
    intro str hzero hfit hlong
    have hsound := (Sound.startField hzero).nextField
    rw [fieldsOf_succ] at hlong
    obtain ⟨cut, hcut, hfits, hequal, hless⟩ := ih hsound.pos
      (fun j hj => by
        have hj := hfit (j + 1) (Nat.succ_lt_succ hj)
        rwa [fieldsOf_succ] at hj) hlong
    obtain ⟨str', hfront, hpos, hval, hlength, htext⟩ := nextField_cut (hfit 0 i.succ_pos) hcut
    have hsound' := (Sound.startField fun byte hmem => hzero byte (hfront.subset hmem)).nextField
    refine ⟨str', hfront, ?_, ?_, ?_⟩
    · intro j
      cases j with
      | zero => exact hlength.trans_le (hfit 0 i.succ_pos)
      | succ j =>
        rw [fieldsOf_succ, hpos]
        exact hfits j
    · intro j hj
      cases j with
      | zero => exact cmp_of_eq hsound hsound' hval.symm htext.symm
      | succ j =>
        rw [fieldsOf_succ, fieldsOf_succ, hpos]
        exact hequal j (Nat.lt_of_succ_lt_succ hj)
    · rw [fieldsOf_succ, fieldsOf_succ, hpos]
      exact hless

theorem nalphaverCmp_ordered {a b c : VersionString} (ha : Fits a) (hb : Fits b) (hc : Fits c) :
    OrderedAt a b c := by
  obtain ⟨n, hn⟩ : ∃ n, n = a.1.length + a.1.length + b.1.length + b.1.length + c.1.length :=
    ⟨_, rfl⟩
  have hcmp := isComparison_firstDifference isComparison_cmp n
  have hswap := hcmp.swap (fieldsOf a) (fieldsOf b) ha.comparable hb.comparable
  have hback := hcmp.swap (fieldsOf b) (fieldsOf a) hb.comparable ha.comparable
  have hself := hcmp.swap (fieldsOf a) (fieldsOf a) ha.comparable ha.comparable
  have htrans := hcmp.trans _ _ _ ha.comparable hb.comparable hc.comparable
  rw [← nalphaverCmp_eq (by omega), ← nalphaverCmp_eq (by omega)] at hswap hback
  rw [← nalphaverCmp_eq (by omega)] at hself
  rw [← nalphaverCmp_eq (by omega), ← nalphaverCmp_eq (by omega), ← nalphaverCmp_eq (by omega)]
    at htrans
  have hrange := nalphaverCmp_range a b
  have hrange' := nalphaverCmp_range b a
  refine ⟨nalphaverLoop_terminates _ _, hrange, ?_, ?_, htrans⟩
  · omega
  · omega

theorem nalphaverCmp_first {a b : Bytes} {i : ℕ}
    (heq : ∀ j < i, cmp (fieldsOf a j) (fieldsOf b j) = 0)
    (hne : cmp (fieldsOf a i) (fieldsOf b i) ≠ 0) :
    nalphaverCmp a b = cmp (fieldsOf a i) (fieldsOf b i) := by
  rw [nalphaverCmp_eq (Nat.le_add_right _ (i + 1))]
  exact firstDifference_eq i (by omega) heq hne

theorem exists_not_swapped {s : VersionString} (h : ¬Fits s) :
    ∃ t : VersionString, Fits t ∧ nalphaverCmp s t = -1 ∧ nalphaverCmp t s = -1 := by
  have hexists : ∃ i, intMax < (fieldsOf s i).suffixlen := by
    simpa [Fits] using h
  have hlong := Nat.find_spec hexists
  have hfit : ∀ j < Nat.find hexists, (fieldsOf s j).suffixlen ≤ intMax :=
    fun j hj => not_lt.mp (Nat.find_min hexists hj)
  obtain ⟨t, hfront, ht, hequal, hforth, hback⟩ := exists_misordered _ s.2 hfit hlong
  refine ⟨⟨t, fun byte hmem => s.2 byte (hfront.subset hmem)⟩, ht, ?_, ?_⟩
  · rw [nalphaverCmp_first (fun j hj => (hequal j hj).1) (by rw [hforth]; decide), hforth]
  · rw [nalphaverCmp_first (fun j hj => (hequal j hj).2) (by rw [hback]; decide), hback]

/-- `nalphaver_cmp` orders the version strings whose suffixes have lengths that
fit an `int`, and each other one is misordered with one of these. -/
theorem nalphaverCmp_ordered_iff (s : VersionString) :
    (∀ t u : VersionString, Fits t → Fits u → OrderedAt s t u) ↔ Fits s := by
  constructor
  · intro hordered
    by_contra hlong
    obtain ⟨t, ht, hforth, hback⟩ := exists_not_swapped hlong
    have hswap := (hordered t t ht ht).swap
    rw [hforth, hback] at hswap
    exact absurd hswap (by decide)
  · intro hs t u ht hu
    exact nalphaverCmp_ordered hs ht hu

theorem fieldsOf_letters {n : ℕ} (hpos : 0 < n) (hmax : n ≤ uintMax) :
    fieldsOf (List.replicate n 97) 0 = ⟨[], List.replicate n 97, 0, n⟩ := by
  have htext : ∀ ch ∈ List.replicate n (97 : UInt8), ch ≠ 46 := by
    intro ch hch
    rw [List.eq_of_mem_replicate hch]
    decide
  have hnone : NoDigit (unsignedPart (List.replicate n 97)) := by
    obtain ⟨n, rfl⟩ := Nat.exists_eq_succ_of_ne_zero hpos.ne'
    have hunsigned : unsignedPart (97 :: List.replicate n 97) = 97 :: List.replicate n 97 := rfl
    rw [List.replicate_succ, hunsigned]
    intro ch hch
    rw [← Option.some_inj.mp hch]
    decide
  have happend := @fieldAt_append 0 _ [] htext (.inl rfl) (by rwa [List.length_replicate])
  rw [List.append_nil, List.length_replicate] at happend
  rw [fieldsOf_zero, nextField_eq, strtoul_of_noDigit hnone, happend]
  rfl

theorem letters_misordered {n : ℕ} (hn : n = 2 ^ 31) :
    nalphaverCmp (List.replicate n 97) [] = -1 ∧ nalphaverCmp [] (List.replicate n 97) = -1 := by
  have hfield := @fieldsOf_letters n (by omega) (by unfold uintMax; omega)
  have hzero : ∀ byte ∈ List.replicate n (97 : UInt8), byte ≠ 0 := by
    intro byte hmem
    rw [List.eq_of_mem_replicate hmem]
    decide
  have hsound := (Sound.startField hzero).fieldsFrom 0
  change Sound (fieldsOf _ 0) at hsound
  have hempty : Sound (startField []) := Sound.startField fun _ hmem => nomatch hmem
  have hhalf := cmp_of_half hempty hsound (by rw [hfield]; rfl)
    List.nil_prefix (by rw [hfield, hn]; rfl)
  rw [← fieldsOf_empty 0] at hhalf
  have hbefore : ∀ {p : ℕ → Prop}, ∀ j < 0, p j := fun _ hj => absurd hj (Nat.not_lt_zero _)
  constructor
  · rw [nalphaverCmp_first hbefore (by rw [hhalf.2]; decide), hhalf.2]
  · rw [nalphaverCmp_first hbefore (by rw [hhalf.1]; decide), hhalf.1]

/-- A version of 2147483648 letters and the empty one are each less than the
other. -/
theorem long_version_misordered : ¬OrderedAt (List.replicate (2 ^ 31) 97) [] [] := by
  intro h
  have hswap := h.swap
  have hless := letters_misordered (Eq.refl (2 ^ 31))
  rw [hless.1, hless.2] at hswap
  exact absurd hswap (by decide)

end Yans.Util.Nalphaver
