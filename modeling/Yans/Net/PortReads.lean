import Yans.Net.PortRemaining

/-! Which entries of its array the use of a set reads. Behind the last range
`port_ranges_next` looks for one more. -/
namespace Yans.Net.Ports

open Library Library.Memory Util

/-- The indices that `UNDIRTIFY` reads: `qsort` stays inside of the ranges it is
given. -/
def undirtifyReads (rs : PortRanges) : List ℕ :=
  if rs.dirty then
    List.range rs.nranges ++ Compaction.compactReads joins absorb false
      (qsort (rs.ranges.take rs.nranges) ++ rs.ranges.drop rs.nranges) rs.nranges 0 1
  else []

/-- The indices of `rs->ranges` that `port_ranges_next` reads. -/
def nextReads (rs : PortRanges) : List ℕ :=
  let used := undirtify rs
  undirtifyReads rs ++
    if used.currRange ≥ used.nranges then []
    else
      let r := rangeAt used used.currRange
      let port := if used.currRange = 0 ∧ used.currPort = 0 then r.start else used.currPort
      used.currRange :: if r.end_ > port then [] else [used.currRange + 1]

/-- The indices of `rs->ranges` that `port_ranges_to_buf` reads. -/
def toBufReads (rs : PortRanges) : List ℕ :=
  let used := undirtify rs
  undirtifyReads rs ++
    if used.currRange ≥ used.nranges then []
    else List.range' used.currRange (used.nranges - used.currRange)

inductive Use where
  | next
  | toBuf (buf : Buf)

def Use.reads (rs : PortRanges) : Use → List ℕ
  | .next => nextReads rs
  | .toBuf _ => toBufReads rs

/-- The set after a use; writing it as text does not fail. -/
def Use.apply (rs : PortRanges) : Use → PortRanges
  | .next => (portRangesNext rs).2
  | .toBuf buf => ((portRangesToBuf rs buf).map Prod.snd).getD rs

def ReadsInside (rs : PortRanges) : List Use → Prop
  | [] => True
  | use :: uses => (∀ i ∈ use.reads rs, i < rs.cap) ∧ ReadsInside (use.apply rs) uses

def Roomy (rs : PortRanges) : Prop := rs.nranges = 0 ∨ (undirtify rs).nranges < rs.cap

structure Bounded (rs : PortRanges) : Prop where
  nranges_le : rs.nranges ≤ rs.cap
  nranges_ne : rs.dirty = true → rs.nranges ≠ 0

variable {rs : PortRanges}

theorem undirtify_bounded (h : Bounded rs) :
    Bounded (undirtify rs) ∧ (undirtify rs).dirty = false ∧ (undirtify rs).cap = rs.cap ∧
      (undirtify rs).nranges ≤ rs.nranges ∧ ((undirtify rs).nranges = 0 ↔ rs.nranges = 0) := by
  unfold undirtify
  split
  · rename_i hdirty
    have hpos := h.nranges_ne hdirty
    have hle := h.nranges_le
    have hlength : (qsort (rs.ranges.take rs.nranges) ++ rs.ranges.drop rs.nranges).length =
        rs.ranges.length := by
      rw [List.length_append, (qsort_perm _).length_eq, ← List.length_append,
        List.take_append_drop]
    have hbounds := @Compaction.compactLoop_bounds _ joins absorb false
      (qsort (rs.ranges.take rs.nranges) ++ rs.ranges.drop rs.nranges) rs.nranges 0 1
      (Nat.pos_of_ne_zero hpos) Nat.one_pos (by rwa [hlength])
    rw [hlength] at hbounds
    obtain ⟨hcap, hone, hcount⟩ := hbounds
    refine ⟨⟨?_, fun hclean => nomatch hclean⟩, rfl, hcap, hcount, ?_⟩
    · exact (hcount.trans hle).trans hcap.ge
    · exact iff_of_false hone.ne' hpos
  · rename_i hclean
    exact ⟨h, by simpa using hclean, rfl, le_refl _, Iff.rfl⟩

theorem undirtifyReads_lt : ∀ i ∈ undirtifyReads rs, i < rs.nranges := by
  unfold undirtifyReads
  split
  · intro i hi
    obtain hi | hi := List.mem_append.mp hi
    · exact List.mem_range.mp hi
    · exact Compaction.compactReads_lt _ _ _ _ _ Nat.one_pos i hi
  · exact fun i hi => nomatch hi

theorem toBufReads_inside (h : Bounded rs) : ∀ i ∈ toBufReads rs, i < rs.cap := by
  obtain ⟨hused, -, hcap, -, -⟩ := undirtify_bounded h
  have hle := hused.nranges_le
  rw [hcap] at hle
  intro i hi
  obtain hi | hi := List.mem_append.mp hi
  · exact (undirtifyReads_lt i hi).trans_le h.nranges_le
  · split at hi
    · cases hi
    · rw [List.mem_range'_1] at hi
      omega

theorem nextReads_inside (h : Bounded rs) (hroomy : Roomy rs) :
    ∀ i ∈ nextReads rs, i < rs.cap := by
  obtain ⟨hused, -, hcap, -, hzero⟩ := undirtify_bounded h
  intro i hi
  obtain hi | hi := List.mem_append.mp hi
  · exact (undirtifyReads_lt i hi).trans_le h.nranges_le
  · split at hi
    · cases hi
    · rename_i hmore
      have hroom : (undirtify rs).nranges < rs.cap := by
        cases hroomy with
        | inl hnone =>
          rw [hzero.mpr hnone] at hmore
          omega
        | inr hroom => exact hroom
      obtain rfl | hi := List.mem_cons.mp hi
      · omega
      · simp only [List.mem_ite_nil_left, List.mem_singleton] at hi
        omega

theorem portRangesToBuf_eq (rs : PortRanges) (buf : Buf) :
    ∃ after, portRangesToBuf rs buf = some (after, undirtify rs) ∨
      portRangesToBuf rs buf =
        some (after, { undirtify rs with currPort := nextPort (undirtify rs) }) := by
  unfold portRangesToBuf
  generalize undirtify rs = used
  dsimp only
  split
  · exact ⟨_, .inl rfl⟩
  · have henter : (if used.currRange = 0 ∧ used.currPort = 0 then
        { used with currPort := (rangeAt used used.currRange).start } else used) =
        { used with currPort := nextPort used } := by
      unfold nextPort
      split <;> rfl
    obtain ⟨after, hprint, -⟩ := printRanges_eq (used.entries.drop (used.currRange + 1))
      (buf.clear.adata ([] ++ rangeText ⟨nextPort used, (rangeAt used used.currRange).end_⟩))
    refine ⟨after, .inr ?_⟩
    rw [henter]
    rw [@appendRange_eq _ _ [] (Nat.zero_le 1)]
    change (printRanges _ (used.entries.drop (used.currRange + 1))).bind _ = _
    rw [hprint]
    rfl

theorem Use.apply_fields (rs : PortRanges) (use : Use) :
    (use.apply rs).ranges = (undirtify rs).ranges ∧
      (use.apply rs).nranges = (undirtify rs).nranges ∧
      (use.apply rs).dirty = (undirtify rs).dirty := by
  cases use with
  | next => exact portRangesNext_fields rs
  | toBuf buf =>
    obtain ⟨after, hrun | hrun⟩ := portRangesToBuf_eq rs buf
    · simp only [Use.apply, hrun]
      exact ⟨rfl, rfl, rfl⟩
    · simp only [Use.apply, hrun]
      exact ⟨rfl, rfl, rfl⟩

theorem Use.apply_bounded (h : Bounded rs) (use : Use) :
    Bounded (use.apply rs) ∧ (use.apply rs).dirty = false ∧ (use.apply rs).cap = rs.cap ∧
      (use.apply rs).nranges = (undirtify rs).nranges := by
  obtain ⟨hused, hclean, hcap, -, -⟩ := undirtify_bounded h
  obtain ⟨hranges, hnranges, hdirty⟩ := use.apply_fields rs
  have hcap' : (use.apply rs).cap = (undirtify rs).cap := congrArg List.length hranges
  refine ⟨⟨?_, ?_⟩, hdirty.trans hclean, hcap'.trans hcap, hnranges⟩
  · rw [hnranges, hcap']
    exact hused.nranges_le
  · rw [hdirty, hclean]
    exact fun h => nomatch h

theorem Roomy.apply (h : Bounded rs) (hroomy : Roomy rs) (use : Use) :
    Roomy (use.apply rs) := by
  obtain ⟨-, hclean, hcap, hnranges⟩ := use.apply_bounded h
  obtain ⟨-, -, -, -, hzero⟩ := undirtify_bounded h
  unfold Roomy
  rw [undirtify_of_clean hclean, hcap, hnranges, hzero]
  exact hroomy

theorem Roomy.readsInside (uses : List Use) : ∀ {rs : PortRanges}, Bounded rs → Roomy rs →
    ReadsInside rs uses := by
  induction uses with
  | nil => exact fun _ _ => trivial
  | cons use uses ih =>
    intro rs h hroomy
    refine ⟨?_, ih (use.apply_bounded h).1 (hroomy.apply h use)⟩
    cases use with
    | next => exact nextReads_inside h hroomy
    | toBuf buf => exact toBufReads_inside h

theorem portRangesNext_within (hclean : rs.dirty = false)
    (hlt : rs.currRange < rs.nranges) :
    if (rangeAt rs rs.currRange).end_ > nextPort rs then
      Use.next.apply rs = { rs with currPort := nextPort rs + 1 }
    else Use.next.apply rs = { rs with
        currRange := rs.currRange + 1, currPort := (rangeAt rs (rs.currRange + 1)).start } ∧
      rs.currRange + 1 ∈ Use.next.reads rs := by
  have henter : (if rs.currRange = 0 ∧ rs.currPort = 0 then
      { rs with currPort := (rangeAt rs rs.currRange).start } else rs) =
      { rs with currPort := nextPort rs } := by
    unfold nextPort
    split <;> rfl
  have hmore : ¬rs.currRange ≥ rs.nranges := Nat.not_le_of_lt hlt
  unfold Use.apply Use.reads portRangesNext nextReads
  rw [undirtify_of_clean hclean]
  dsimp only
  rw [if_neg hmore, if_neg hmore, henter]
  split
  · rfl
  · rename_i hend
    refine ⟨rfl, List.mem_append_right _ (List.mem_cons_of_mem _ ?_)⟩
    rw [List.mem_ite_nil_left, List.mem_singleton]
    exact ⟨hend, rfl⟩

/-- From inside of a range the iteration gets to the end of the last one. The
induction is on what is left: ranges first, then ports. -/
theorem exists_read_beyond (left : ℕ) : ∀ {rs : PortRanges}, rs.dirty = false →
    rs.nranges = rs.cap → rs.currRange < rs.nranges →
    (rs.nranges - rs.currRange) * 65536 + (65535 - rs.currPort.toNat) = left →
    ∃ n, ¬ReadsInside rs (List.replicate n .next) := by
  induction left using Nat.strong_induction_on with
  | _ left ih =>
    intro rs hclean hfull hlt hleft
    have hcall := portRangesNext_within hclean hlt
    split at hcall
    · rename_i hmore
      rw [gt_iff_lt, UInt16.lt_iff_toNat_lt] at hmore
      have hend := (rangeAt rs rs.currRange).end_.toNat_lt
      have hstart : rs.currPort.toNat ≤ (nextPort rs).toNat := by
        unfold nextPort
        split
        · rename_i hzero
          rw [hzero.2]
          exact Nat.zero_le _
        · exact le_refl _
      have hsucc : (nextPort rs + 1).toNat = (nextPort rs).toNat + 1 := by
        rw [UInt16.toNat_add, UInt16.toNat_one]
        exact Nat.mod_eq_of_lt (by omega)
      obtain ⟨n, hn⟩ := @ih _ (by dsimp only; omega) { rs with currPort := nextPort rs + 1 }
        hclean hfull hlt rfl
      refine ⟨n + 1, fun h => hn ?_⟩
      rw [← hcall]
      exact h.2
    · obtain ⟨hafter, hread⟩ := hcall
      by_cases hlast : rs.currRange + 1 = rs.nranges
      · refine ⟨1, fun h => ?_⟩
        have hinside := h.1 _ hread
        omega
      · have hnext := (rangeAt rs (rs.currRange + 1)).start.toNat_lt
        obtain ⟨n, hn⟩ := @ih _ (by dsimp only; omega) { rs with
          currRange := rs.currRange + 1, currPort := (rangeAt rs (rs.currRange + 1)).start }
          hclean hfull (by dsimp only; omega) rfl
        refine ⟨n + 1, fun h => hn ?_⟩
        rw [← hafter]
        exact h.2

theorem exists_use_beyond (hclean : rs.dirty = false)
    (hfull : rs.nranges = rs.cap) (hne : rs.nranges ≠ 0) : ∃ uses, ¬ReadsInside rs uses := by
  by_cases hlt : rs.currRange < rs.nranges
  · obtain ⟨n, hn⟩ := exists_read_beyond _ hclean hfull hlt rfl
    exact ⟨_, hn⟩
  · have hreset : Use.next.apply rs = portRangesReset rs := by
      unfold Use.apply portRangesNext
      rw [undirtify_of_clean hclean]
      rw [if_pos (Nat.le_of_not_lt hlt)]
    obtain ⟨n, hn⟩ := @exists_read_beyond _ (portRangesReset rs) hclean hfull
      (Nat.pos_of_ne_zero hne) rfl
    refine ⟨.next :: List.replicate n .next, fun h => hn ?_⟩
    rw [← hreset]
    exact h.2

theorem readsInside_iff (h : Bounded rs) :
    (∀ uses, ReadsInside rs uses) ↔ Roomy rs := by
  constructor
  · intro hinside
    by_contra hnot
    obtain ⟨hbounded, hclean, hcap, hnranges⟩ := Use.next.apply_bounded h
    obtain ⟨hused, -, hsame, -, hzero⟩ := undirtify_bounded h
    have hne : rs.nranges ≠ 0 := fun hnone => hnot (.inl hnone)
    have hle : rs.cap ≤ (undirtify rs).nranges := Nat.le_of_not_lt fun hlt => hnot (.inr hlt)
    have hfull : (undirtify rs).nranges = rs.cap :=
      Nat.le_antisymm (hused.nranges_le.trans hsame.le) hle
    obtain ⟨uses, huses⟩ := exists_use_beyond hclean (by omega) (by omega)
    exact huses (hinside (.next :: uses)).2
  · exact fun hroomy uses => hroomy.readsInside uses h

theorem prepInsertion_bounded (h : Bounded rs) (needed : ℕ) :
    Bounded (prepInsertion rs needed) ∧ (prepInsertion rs needed).nranges ≤ rs.nranges ∧
      ((prepInsertion rs needed).nranges = 0 ↔ rs.nranges = 0) ∧
      (prepInsertion rs needed).nranges + needed ≤ (prepInsertion rs needed).cap := by
  obtain ⟨used, hused, hbounded, hle, hzero⟩ : ∃ used,
      (if rs.nranges > dirtLimit then undirtify rs else rs) = used ∧ Bounded used ∧
        used.nranges ≤ rs.nranges ∧ (used.nranges = 0 ↔ rs.nranges = 0) := by
    obtain ⟨hbounded, -, -, hle, hzero⟩ := undirtify_bounded h
    refine ⟨_, rfl, ?_⟩
    split
    · exact ⟨hbounded, hle, hzero⟩
    · exact ⟨h, le_refl _, Iff.rfl⟩
  have hfits := hbounded.nranges_le
  unfold prepInsertion
  rw [hused]
  dsimp only
  split
  · refine ⟨⟨?_, hbounded.nranges_ne⟩, hle, hzero, ?_⟩
    · simp only [PortRanges.cap, List.length_append] at hfits ⊢
      omega
    · simp only [PortRanges.cap, List.length_append, List.length_replicate] at hfits ⊢
      omega
  · exact ⟨hbounded, hle, hzero, by omega⟩

variable {dst : PortRanges}

theorem appendRanges_bounded {new : List PortRange}
    (hroom : dst.nranges + new.length ≤ dst.cap) (hne : dst.nranges + new.length ≠ 0) :
    Bounded (appendRanges dst new) := by
  constructor
  · simp only [PortRanges.cap, appendRanges, storeRanges, List.length_append, List.length_take,
      List.length_drop] at hroom ⊢
    omega
  · exact fun _ => hne

theorem portRangesAddRange_bounded (h : Bounded dst) (r : PortRange) :
    Bounded (portRangesAddRange dst r) := by
  obtain ⟨-, -, -, hroom⟩ := prepInsertion_bounded h 1
  exact appendRanges_bounded hroom (Nat.succ_ne_zero _)

theorem portRangesAddRanges_bounded {source : PortRanges} {same : Bool} (hdst : Bounded dst)
    (hsource : Bounded source) (hsame : same = true → source = dst) :
    Bounded (portRangesAddRanges dst source same) := by
  unfold portRangesAddRanges
  split
  · exact hdst
  · rename_i hsome
    obtain ⟨-, hle, hzero, hroom⟩ := prepInsertion_bounded hdst source.nranges
    obtain ⟨new, hnew, hbounded, hfits, hne⟩ : ∃ new : PortRanges,
        (if same = true then prepInsertion dst source.nranges else source) = new ∧ Bounded new ∧
          new.nranges ≤ source.nranges ∧ new.nranges ≠ 0 := by
      refine ⟨_, rfl, ?_⟩
      split
      · rename_i h
        rw [hsame h] at hroom hsome ⊢
        exact ⟨(prepInsertion_bounded hdst dst.nranges).1,
          (prepInsertion_bounded hdst dst.nranges).2.1, mt
            (prepInsertion_bounded hdst dst.nranges).2.2.1.mp hsome⟩
      · exact ⟨hsource, le_refl _, hsome⟩
    dsimp only
    rw [hnew]
    have hlen := length_entries hbounded.nranges_le
    exact appendRanges_bounded (by omega) (by omega)

/-- A call on one of the sets `V`, with any ranges. -/
inductive ArrayCall (V : Type*) where
  | fromStr (x : V) (s : Bytes)
  | addRange (x : V) (r : PortRange)
  | addPort (x : V) (port : UInt16)
  | addRanges (x y : V)
  | use (x : V) (call : Use)

section

variable {V : Type*} [DecidableEq V]

def ArrayCall.step (sets : V → PortRanges) : ArrayCall V → V → PortRanges
  | .fromStr x s => Function.update sets x (portRangesFromStr s).2
  | .addRange x r => Function.update sets x (portRangesAddRange (sets x) r)
  | .addPort x port => Function.update sets x (portRangesAddPort (sets x) port)
  | .addRanges x y => Function.update sets x (portRangesAddRanges (sets x) (sets y) (x = y))
  | .use x call => Function.update sets x (call.apply (sets x))

def arrayRun (calls : List (ArrayCall V)) : V → PortRanges :=
  calls.foldl ArrayCall.step fun _ => .zero

theorem ArrayCall.step_bounded {sets : V → PortRanges} (h : ∀ x, Bounded (sets x))
    (call : ArrayCall V) (x : V) : Bounded (call.step sets x) := by
  have hupdate : ∀ y {rs : PortRanges}, Bounded rs → Bounded (Function.update sets y rs x) := by
    intro y rs hrs
    by_cases hxy : x = y
    · rwa [hxy, Function.update_self]
    · rw [Function.update_of_ne hxy]
      exact h x
  cases call with
  | fromStr y s =>
    obtain ⟨hvalid, -⟩ := portRangesFromStr_valid s
    exact hupdate y ⟨hvalid.nranges_le, hvalid.nranges_ne⟩
  | addRange y r => exact hupdate y (portRangesAddRange_bounded (h y) r)
  | addPort y port => exact hupdate y (portRangesAddRange_bounded (h y) ⟨port, port⟩)
  | addRanges y z =>
    exact hupdate y (portRangesAddRanges_bounded (h y) (h z)
      fun hyz => congrArg sets (of_decide_eq_true hyz).symm)
  | use y call => exact hupdate y (call.apply_bounded (h y)).1

theorem arrayRun_bounded (calls : List (ArrayCall V)) : ∀ x, Bounded (arrayRun calls x) := by
  have hfold : ∀ {sets : V → PortRanges}, (∀ x, Bounded (sets x)) →
      ∀ x, Bounded (calls.foldl ArrayCall.step sets x) := by
    induction calls with
    | nil => exact fun h => h
    | cons call calls ih => exact fun h => ih (call.step_bounded h)
  exact hfold fun _ => ⟨Nat.le_refl _, fun h => absurd h Bool.false_ne_true⟩

/-- However a set was made, its uses keep to the array exactly if the merged
ranges do not fill it. -/
theorem port_reads_inside_iff (calls : List (ArrayCall V)) (x : V) :
    (∀ uses, ReadsInside (arrayRun calls x) uses) ↔ Roomy (arrayRun calls x) :=
  readsInside_iff (arrayRun_bounded calls x)

end

/-- A set that is made by adding one port to an empty one. -/
theorem single_port_read_beyond :
    ¬ReadsInside (arrayRun [.fromStr () [], .addPort () 80] ()) [.next] := by
  have hrun : arrayRun [.fromStr () [], .addPort () 80] () = portRangesAddRange .zero ⟨80, 80⟩ :=
    rfl
  intro h
  have hread := h.1 1
  rw [hrun] at hread
  have hmem : 1 ∈ Use.next.reads (portRangesAddRange .zero ⟨80, 80⟩) := by
    unfold Use.reads nextReads
    rw [undirtify_single]
    apply List.mem_append_right
    decide
  exact absurd (hread hmem) (by decide)

end Yans.Net.Ports
