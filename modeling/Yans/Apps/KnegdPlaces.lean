import Mathlib.Data.Nat.ModEq
import Yans.Apps.KnegdFiles
import Yans.Apps.KnegdIds

/-! Where the entries of the queue and the links to them are: an entry is two steps
below the directory of the queue and a link is one step or three. -/
namespace Yans.Apps.Knegd

open Library.Decimal Library.Memory Library.Paths Library.Strings Util

def baseRoute (base : Bytes) : Route UInt8 :=
  resolve 46 (isRooted 47 (base ++ [47])) (components 47 base)

/-- The place that the names lead to from the directory of the queue. -/
def below (base : Bytes) (names : List Bytes) : Place :=
  placeOf (isRooted 47 (base ++ [47]))
    (names.foldl (Route.follow 46 (isRooted 47 (base ++ [47]))) (baseRoute base))

theorem place_below (base rest : Bytes) :
    place (base ++ 47 :: rest) = below base (components 47 rest) := by
  have hrooted : isRooted 47 (base ++ 47 :: rest) = isRooted 47 (base ++ [47]) := by
    cases base <;> rfl
  unfold place below baseRoute resolve
  rw [hrooted, components_append_cons, List.foldl_append]

structure IsPlain (name : Bytes) : Prop where
  isName : IsName 47 name
  ne_dot : name ≠ [46]
  ne_dots : name ≠ [46, 46]

theorem isPlain_of_long {name : Bytes} (hlong : 2 < name.length) (h : 47 ∉ name) :
    IsPlain name where
  isName := ⟨List.ne_nil_of_length_pos (by omega), h⟩
  ne_dot := by
    rintro rfl
    exact absurd hlong (by decide)
  ne_dots := by
    rintro rfl
    exact absurd hlong (by decide)

theorem follow_isPlain {rooted : Bool} {route : Route UInt8} {name : Bytes} (h : IsPlain name) :
    route.follow 46 rooted name = ⟨route.ups, name :: route.names⟩ :=
  Route.follow_plain h.ne_dot h.ne_dots

def IsHexDigit (c : UInt8) : Prop := 48 ≤ c ∧ c ≤ 57 ∨ 97 ≤ c ∧ c ≤ 102

theorem hexDigit_toNat (n i : ℕ) : (hexDigit n i).toNat =
    if n / 16 ^ i % 16 < 10 then 48 + n / 16 ^ i % 16 else 87 + n / 16 ^ i % 16 := by
  unfold hexDigit
  rw [UInt8.toNat_ofNat']
  split <;> omega

theorem isHexDigit_hexDigit (n i : ℕ) : IsHexDigit (hexDigit n i) := by
  have hvalue := hexDigit_toNat n i
  unfold IsHexDigit
  simp only [UInt8.le_iff_toNat_le, UInt8.reduceToNat]
  split at hvalue <;> omega

theorem isHexDigit_of_mem_timestrOf {t : ℤ} {c : UInt8} (h : c ∈ timestrOf t) : IsHexDigit c := by
  have hmem : c ∈ (List.range 16).reverse.map (hexDigit (t % 2 ^ 64).toNat) := by
    cases List.mem_append.mp h with
    | inl hhigh => exact List.mem_of_mem_take ((List.dropWhile_sublist _).mem hhigh)
    | inr hlow => exact List.mem_of_mem_drop hlow
  obtain ⟨i, -, rfl⟩ := List.mem_map.mp hmem
  exact isHexDigit_hexDigit _ i

theorem length_timestrOf (t : ℤ) :
    8 ≤ (timestrOf t).length ∧ (timestrOf t).length ≤ 16 := by
  have hhigh := (List.dropWhile_sublist (fun c : UInt8 => decide (c = 48))
    (l := ((List.range 16).reverse.map (hexDigit (t % 2 ^ 64).toNat)).take 8)).length_le
  unfold timestrOf
  rw [List.length_append, List.length_drop, List.length_map, List.length_reverse,
    List.length_range]
  rw [List.length_take, List.length_map, List.length_reverse, List.length_range] at hhigh
  omega

/-- The name of an entry, from the second and the number it is put in with. -/
def entryName (t : ℤ) (seq : ℕ) : Bytes := timestrOf t ++ 45 :: numeral seq

def entryPlace (base : Bytes) (t : ℤ) (seq : ℕ) : Place :=
  below base [subdirOf (timestrOf t), entryName t seq]

theorem isPlain_subdirOf (t : ℤ) : IsPlain (subdirOf (timestrOf t)) := by
  have hlength := length_timestrOf t
  have hhex : ∀ c ∈ subdirOf (timestrOf t), IsHexDigit c := fun c hc =>
    isHexDigit_of_mem_timestrOf (List.mem_of_mem_drop (List.mem_of_mem_take hc))
  have htwo : (subdirOf (timestrOf t)).length = 2 := by
    unfold subdirOf
    rw [List.length_take, List.length_drop]
    omega
  refine ⟨⟨List.ne_nil_of_length_pos (by omega), fun hmem => ?_⟩, fun heq => ?_, fun heq => ?_⟩
  · exact absurd (hhex _ hmem) (by unfold IsHexDigit; decide)
  · rw [heq] at htwo
    exact absurd htwo (by decide)
  · rw [heq] at hhex
    exact absurd (hhex 46 List.mem_cons_self) (by unfold IsHexDigit; decide)

theorem isPlain_entryName (t : ℤ) (seq : ℕ) : IsPlain (entryName t seq) := by
  have hlength := length_timestrOf t
  apply isPlain_of_long
  · unfold entryName
    rw [List.length_append]
    omega
  · unfold entryName
    rw [List.mem_append, List.mem_cons, not_or, not_or]
    refine ⟨fun hmem => ?_, by decide, fun hmem => ?_⟩
    · exact absurd (isHexDigit_of_mem_timestrOf hmem) (by unfold IsHexDigit; decide)
    · exact absurd (isDigit_of_mem_numeral seq _ hmem) (by unfold IsDigit; decide)

theorem entryPlace_eq (base : Bytes) (t : ℤ) (seq : ℕ) :
    entryPlace base t seq = placeOf (isRooted 47 (base ++ [47]))
      ⟨(baseRoute base).ups,
        entryName t seq :: subdirOf (timestrOf t) :: (baseRoute base).names⟩ := by
  unfold entryPlace below
  rw [List.foldl_cons, follow_isPlain (isPlain_subdirOf t), List.foldl_cons,
    follow_isPlain (isPlain_entryName t seq), List.foldl_nil]

theorem entryPath_eq {kngq : Kngq} (hbase : kngq.basepath.length ≤ 470)
    (hseq : kngq.seq < 2 ^ 64) (t : ℤ) :
    entryPath kngq (timestrOf t) =
      kngq.basepath ++ 47 :: (subdirOf (timestrOf t) ++ 47 :: entryName t kngq.seq) := by
  have hlength := length_timestrOf t
  have hnumber : (numeral kngq.seq).length ≤ 20 := length_numeral_lt 19 (by omega)
  have hsubdir : (subdirOf (timestrOf t)).length ≤ 2 := by
    unfold subdirOf
    rw [List.length_take]
    omega
  unfold entryPath snprintf pathSize
  rw [List.take_of_length_le]
  · simp only [entryName, List.append_assoc, List.cons_append]
  · simp only [List.length_append, List.length_cons]
    omega

theorem place_entryPath {kngq : Kngq} (hbase : kngq.basepath.length ≤ 470)
    (hseq : kngq.seq < 2 ^ 64) (t : ℤ) :
    place (entryPath kngq (timestrOf t)) = entryPlace kngq.basepath t kngq.seq := by
  rw [entryPath_eq hbase hseq, place_below, components_append_cons,
    components_name (isPlain_subdirOf t).isName, components_name (isPlain_entryName t _).isName]
  rfl

theorem entryPlace_inj {base : Bytes} {t u : ℤ} {seq other : ℕ}
    (h : entryPlace base t seq = entryPlace base u other) :
    timestrOf t = timestrOf u ∧ seq = other := by
  have hname : entryName t seq = entryName u other := by
    rw [entryPlace_eq, entryPlace_eq] at h
    exact (List.cons.inj (congrArg Place.names h)).1
  have hhyphen : ∀ v, ∀ c ∈ timestrOf v, decide (c ≠ 45) = true := by
    intro v c hc
    have hhex := isHexDigit_of_mem_timestrOf hc
    refine decide_eq_true ?_
    rintro rfl
    exact absurd hhex (by unfold IsHexDigit; decide)
  have htime : timestrOf t = timestrOf u := by
    have htake := congrArg (List.takeWhile fun c => decide (c ≠ 45)) hname
    unfold entryName at htake
    rwa [List.takeWhile_append_of_pos (hhyphen t), List.takeWhile_append_of_pos (hhyphen u),
      List.takeWhile_cons_of_neg (by decide), List.takeWhile_cons_of_neg (by decide),
      List.append_nil, List.append_nil] at htake
  unfold entryName at hname
  rw [htime] at hname
  have hnumber := (List.cons.inj (List.append_cancel_left hname)).2
  refine ⟨htime, ?_⟩
  rw [← value_numeral seq, ← value_numeral other, hnumber]

def linkPlace (base id : Bytes) : Place :=
  below base [ascii "ids", id.drop (id.length - 2), id]

theorem place_linkUse {base id : Bytes} (hlong : 2 < id.length) (hid : 47 ∉ id) :
    place (linkUse base id).path = linkPlace base id := by
  have hpath : (linkUse base id).path =
      base ++ 47 :: (ascii "ids" ++ 47 :: (id.drop (id.length - 2) ++ 47 :: id)) := by
    unfold linkUse
    rw [show ascii "/ids/" = 47 :: (ascii "ids" ++ [47]) from rfl]
    simp only [List.append_assoc, List.cons_append, List.nil_append]
  have hend : IsName 47 (id.drop (id.length - 2)) := by
    refine ⟨List.ne_nil_of_length_pos ?_, fun hmem => hid (List.mem_of_mem_drop hmem)⟩
    rw [List.length_drop]
    omega
  rw [hpath, place_below, components_append_cons, components_append_cons,
    components_name (isPlain_of_long (by decide) (by decide) : IsPlain (ascii "ids")).isName,
    components_name hend, components_name (isPlain_of_long hlong hid).isName]
  rfl

theorem linkPlace_eq {base id : Bytes} (hlong : 2 < id.length) (hid : 47 ∉ id) :
    linkPlace base id = placeOf (isRooted 47 (base ++ [47]))
      ⟨(baseRoute base).ups,
        if id.drop (id.length - 2) = ascii ".." then id :: (baseRoute base).names
        else id :: id.drop (id.length - 2) :: ascii "ids" :: (baseRoute base).names⟩ := by
  have hids : IsPlain (ascii "ids") := isPlain_of_long (by decide) (by decide)
  have htwo : (id.drop (id.length - 2)).length = 2 := by
    rw [List.length_drop]
    omega
  unfold linkPlace below
  rw [List.foldl_cons, follow_isPlain hids, List.foldl_cons]
  by_cases hdots : id.drop (id.length - 2) = ascii ".."
  · rw [if_pos hdots, hdots, List.foldl_cons,
      show Route.follow 46 (isRooted 47 (base ++ [47]))
          ⟨(baseRoute base).ups, ascii "ids" :: (baseRoute base).names⟩ (ascii "..") =
        ⟨(baseRoute base).ups, (baseRoute base).names⟩ from rfl,
      follow_isPlain (isPlain_of_long hlong hid), List.foldl_nil]
  · have hend : id.drop (id.length - 2) ≠ [46] := by
      intro heq
      rw [heq] at htwo
      exact absurd htwo (by decide)
    rw [if_neg hdots, Route.follow_plain hend hdots, List.foldl_cons,
      follow_isPlain (isPlain_of_long hlong hid), List.foldl_nil]

def IsEntryPlace (base : Bytes) (at_ : Place) : Prop :=
  at_.names.length = (baseRoute base).names.length + 2

theorem isEntryPlace_entryPlace (base : Bytes) (t : ℤ) (seq : ℕ) :
    IsEntryPlace base (entryPlace base t seq) := by
  rw [entryPlace_eq]
  rfl

theorem not_isEntryPlace_linkPlace {base id : Bytes} (hlong : 2 < id.length) (hid : 47 ∉ id) :
    ¬ IsEntryPlace base (linkPlace base id) := by
  unfold IsEntryPlace
  rw [linkPlace_eq hlong hid]
  unfold placeOf
  split
  · rw [List.length_cons]
    omega
  · rw [List.length_cons, List.length_cons, List.length_cons]
    omega

end Yans.Apps.Knegd
