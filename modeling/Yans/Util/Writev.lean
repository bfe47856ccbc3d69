import Yans.Library.Memory

/-! `io_writevall` of `lib/util/io.c`. The vector is the memory from the pointer
`iov` on, which goes on behind its last element; the elements that are read are
logged by their indices. -/
namespace Yans.Util.Writev

open Library.Memory

/-- `base` is the memory that `iov_base` leads to. -/
structure Iovec where
  base : Bytes
  len : ℕ
deriving DecidableEq

def Iovec.content (vec : Iovec) : Bytes := vec.base.take vec.len

def Iovec.Fits (vec : Iovec) : Prop := vec.len ≤ vec.base.length

instance (vec : Iovec) : Decidable vec.Fits := inferInstanceAs (Decidable (vec.len ≤ _))

def contents (iov : List Iovec) : Bytes := iov.flatMap Iovec.content

/-- What one `writev` does: it writes at most `n + 1` bytes, is interrupted,
would block, after which `io_wpoll` returns or fails, or fails. -/
inductive WriteEvent where
  | wrote (n : ℕ)
  | interrupted
  | again (polled : Bool)
  | fail
deriving DecidableEq

inductive WriteResult where
  | ok
  | err
deriving DecidableEq

/-- `iov` is the memory from `iov + currvec` on. -/
structure Writer where
  currvec : ℕ
  iov : List Iovec
  written : Bytes
  accessed : List ℕ
deriving DecidableEq

/-- The inner loop, which takes `ret` bytes off the vector; `none` when it comes
to the end of the memory. -/
def advance : List Iovec → ℕ → ℕ → List ℕ → Option (ℕ × ℕ × List Iovec × List ℕ)
  | [], _, _, _ => none
  | vec :: iov, currvec, ret, accessed =>
    if vec.len ≤ ret then advance iov (currvec + 1) (ret - vec.len) (accessed ++ [currvec])
    else some (currvec, ret, vec :: iov, accessed ++ [currvec])

inductive Outcome where
  | returned (ret : WriteResult) (w : Writer)
  | waiting (w : Writer)
  | faulted
deriving DecidableEq

/-- What follows a `writev` that wrote `ret` bytes. -/
def afterWrite (iovcnt ret : ℕ) (w : Writer) : Option Writer := do
  let (currvec, ret, iov, accessed) ← advance w.iov w.currvec ret w.accessed
  if currvec < iovcnt ∧ 0 < ret then
    match iov with
    | vec :: iov =>
      pure ⟨currvec, ⟨vec.base.drop ret, vec.len - ret⟩ :: iov, w.written, accessed ++ [currvec]⟩
    | [] => none
  else pure ⟨currvec, iov, w.written, accessed⟩

/-- The elements that `writev(fd, iov + currvec, iovcnt - currvec)` reads. -/
def Writer.reads (iovcnt : ℕ) (w : Writer) : List ℕ :=
  List.range' w.currvec (iovcnt - w.currvec)

/-- The bytes that are left for `writev`. -/
def Writer.left (iovcnt : ℕ) (w : Writer) : Bytes := contents (w.iov.take (iovcnt - w.currvec))

/-- The outer loop, over what the calls of `writev` do. -/
def writevLoop (iovcnt : ℕ) : List WriteEvent → Writer → Outcome
  | events, w =>
    if w.currvec < iovcnt then
      match events with
      | [] => .waiting w
      | event :: events =>
        let w := { w with accessed := w.accessed ++ w.reads iovcnt }
        match event with
        | .interrupted => writevLoop iovcnt events w
        | .again polled => if polled then writevLoop iovcnt events w else .returned .err w
        | .fail => .returned .err w
        | .wrote n =>
          let chunk := (w.left iovcnt).take (n + 1)
          if chunk.length = 0 then .returned .err w
          else
            match afterWrite iovcnt chunk.length { w with written := w.written ++ chunk } with
            | none => .faulted
            | some w => writevLoop iovcnt events w
    else .returned .ok w

/-- `behind` is the memory that follows the vector. -/
def ioWritevall (iov behind : List Iovec) (events : List WriteEvent) : Outcome :=
  writevLoop iov.length events ⟨0, iov ++ behind, [], []⟩

def lens (iov : List Iovec) : ℕ := iov.foldr (fun vec n => vec.len + n) 0

theorem lens_cons (vec : Iovec) (iov : List Iovec) :
    lens (vec :: iov) = vec.len + lens iov := rfl

theorem lens_append (iov behind : List Iovec) : lens (iov ++ behind) = lens iov + lens behind := by
  induction iov with
  | nil => exact (Nat.zero_add _).symm
  | cons vec iov ih => rw [List.cons_append, lens_cons, lens_cons, ih, Nat.add_assoc]

variable {iov : List Iovec}

theorem len_le_lens {vec : Iovec} (h : vec ∈ iov) : vec.len ≤ lens iov := by
  obtain ⟨before, after, rfl⟩ := List.append_of_mem h
  rw [lens_append, lens_cons]
  omega

theorem contents_cons (vec : Iovec) (iov : List Iovec) :
    contents (vec :: iov) = vec.content ++ contents iov := by
  simp [contents]

theorem contents_append (front rest : List Iovec) :
    contents (front ++ rest) = contents front ++ contents rest := by
  simp [contents]

theorem length_contents (h : ∀ vec ∈ iov, vec.Fits) :
    (contents iov).length = lens iov := by
  induction iov with
  | nil => rfl
  | cons vec iov ih =>
    have hvec : vec.content.length = vec.len := by
      unfold Iovec.content
      rw [List.length_take]
      exact min_eq_left (h vec List.mem_cons_self)
    rw [contents_cons, List.length_append, hvec, lens_cons]
    exact congrArg _ (ih fun other hother => h other (List.mem_cons_of_mem _ hother))

theorem advance_accessed {ret' currvec' : ℕ} {iov' : List Iovec} {accessed' : List ℕ}
    (iov : List Iovec) : ∀ (currvec ret : ℕ) (accessed : List ℕ),
      advance iov currvec ret accessed = some (currvec', ret', iov', accessed') →
        currvec ≤ currvec' ∧ ret' ≤ ret ∧ currvec ∈ accessed' ∧ ∀ i ∈ accessed, i ∈ accessed' := by
  induction iov with
  | nil =>
    intro currvec ret accessed h
    cases h
  | cons vec iov ih =>
    intro currvec ret accessed h
    unfold advance at h
    split at h
    · obtain ⟨hle, hret, -, hkept⟩ := ih _ _ _ h
      refine ⟨by omega, by omega, hkept _ (by simp), fun i hi => hkept i ?_⟩
      exact List.mem_append_left _ hi
    · cases h
      exact ⟨le_rfl, le_rfl, by simp, fun i hi => List.mem_append_left _ hi⟩

variable {behind : List Iovec}

theorem advance_cases {iov' : List Iovec} {currvec' ret' : ℕ} {accessed' : List ℕ}
    (inside : List Iovec) : ∀ (currvec ret : ℕ) (accessed : List ℕ), ret ≤ lens inside →
      advance (inside ++ behind) currvec ret accessed = some (currvec', ret', iov', accessed') →
        (∃ skipped vec tail, inside = skipped ++ vec :: tail ∧
          currvec' = currvec + skipped.length ∧ ret = lens skipped + ret' ∧ ret' < vec.len ∧
          iov' = vec :: (tail ++ behind)) ∨
        currvec + inside.length ≤ currvec' ∧ ret' = 0 ∧ ret = lens inside ∧
          currvec + inside.length ∈ accessed' := by
  induction inside with
  | nil =>
    intro currvec ret accessed hret h
    obtain ⟨hle, hret', hmem, -⟩ := advance_accessed _ _ _ _ h
    have hzero : lens [] = 0 := rfl
    exact .inr ⟨hle, by omega, by omega, hmem⟩
  | cons vec inside ih =>
    intro currvec ret accessed hret h
    rw [lens_cons] at hret
    rw [List.cons_append, advance] at h
    split at h
    · rename_i hle
      obtain ⟨skipped, stop, tail, hinside, hcurrvec, hsum, hlt, hiov⟩ |
        ⟨hcurrvec, hzero, hsum, hmem⟩ := ih _ _ _ (by omega) h
      · refine .inl ⟨vec :: skipped, stop, tail, by rw [hinside]; rfl, ?_, ?_, hlt, hiov⟩
        · rw [List.length_cons]
          omega
        · rw [lens_cons]
          omega
      · rw [List.length_cons, lens_cons]
        refine .inr ⟨by omega, hzero, by omega, ?_⟩
        rwa [Nat.add_assoc, Nat.add_comm 1] at hmem
    · rename_i hlt
      cases h
      exact .inl ⟨[], vec, inside, rfl, rfl, (Nat.zero_add _).symm, by omega, rfl⟩

theorem exists_advance (iov : List Iovec) : ∀ (currvec ret : ℕ) (accessed : List ℕ),
    ret < lens iov → ∃ currvec' ret' vec iov' accessed',
      advance iov currvec ret accessed = some (currvec', ret', vec :: iov', accessed') := by
  induction iov with
  | nil =>
    intro currvec ret accessed h
    exact absurd h (Nat.not_lt_zero _)
  | cons vec iov ih =>
    intro currvec ret accessed h
    rw [lens_cons] at h
    unfold advance
    split
    · exact ih _ _ _ (by omega)
    · exact ⟨_, _, _, _, _, rfl⟩

/-- The vector `iov` is written up to the writer's position. -/
structure Going (iov behind : List Iovec) (w : Writer) (rest : List Iovec) : Prop where
  memory : w.iov = rest ++ behind
  length : w.currvec + rest.length = iov.length
  fits : ∀ vec ∈ rest, vec.Fits
  bytes : w.written ++ contents rest = contents iov
  more : contents rest ≠ []

variable {rest : List Iovec} {w : Writer}

theorem Going.currvec_lt (h : Going iov behind w rest) :
    w.currvec < iov.length := by
  have hpos : rest ≠ [] := by
    intro hnil
    apply h.more
    rw [hnil]
    rfl
  have := List.length_pos_iff.mpr hpos
  have := h.length
  omega

theorem Going.left (h : Going iov behind w rest) :
    w.left iov.length = contents rest := by
  have hlength := h.length
  unfold Writer.left
  rw [h.memory, List.take_left' (by omega)]

structure Finished (iov : List Iovec) (w : Writer) : Prop where
  passed : iov.length ≤ w.currvec
  bytes : w.written = contents iov
  overread : iov.length ∈ w.accessed

theorem afterWrite_cases {w' : Writer} {n : ℕ}
    (h : Going iov behind w rest) (accessed : List ℕ)
    (hafter : afterWrite iov.length ((contents rest).take (n + 1)).length
      ⟨w.currvec, w.iov, w.written ++ (contents rest).take (n + 1), accessed⟩ = some w') :
    Finished iov w' ∨ ∃ rest', Going iov behind w' rest' ∧
      (contents rest').length < (contents rest).length := by
  have hlength := h.length
  have htotal := length_contents h.fits
  have hmore := List.length_pos_iff.mpr h.more
  have hret : ((contents rest).take (n + 1)).length = min (n + 1) (lens rest) := by
    rw [List.length_take, htotal]
  obtain ⟨⟨currvec', ret', iov', accessed'⟩, hadvance, hafter⟩ := Option.bind_eq_some_iff.mp hafter
  dsimp only at hadvance hafter
  rw [h.memory] at hadvance
  obtain ⟨skipped, vec, tail, hrest, hcurrvec, hsum, hlt, hiov⟩ | ⟨hcurrvec, hzero, hsum, hmem⟩ :=
    advance_cases rest _ _ _ (by omega) hadvance
  · right
    have hfits := h.fits
    rw [hrest] at hfits
    have hvec : vec.Fits := hfits vec (by simp)
    have hskipped : (contents skipped).length = lens skipped :=
      length_contents fun other hother => hfits other (List.mem_append_left _ hother)
    -- the bytes that were written are those of the skipped elements and the front of the next
    have hcontents : contents rest = contents skipped ++ (vec.base.take ret' ++
        ((⟨vec.base.drop ret', vec.len - ret'⟩ : Iovec).content ++ contents tail)) := by
      rw [hrest, contents_append]
      congr 1
      rw [← List.append_assoc]
      rw [contents_cons]
      unfold Iovec.content
      congr 1
      dsimp only
      have hsplit : vec.len = ret' + (vec.len - ret') := by omega
      rw [← List.take_add, ← hsplit]
    have hbase : (vec.base.take ret').length = ret' := by
      rw [List.length_take]
      unfold Iovec.Fits at hvec
      omega
    have hwritten : (contents rest).take (n + 1) = contents skipped ++ vec.base.take ret' := by
      have hfront : (contents skipped ++ vec.base.take ret').length =
          ((contents rest).take (n + 1)).length := by
        rw [List.length_append, hskipped, hbase, hsum]
      have hprefix : (contents skipped ++ vec.base.take ret') <+: contents rest := by
        rw [hcontents, ← List.append_assoc]
        exact List.prefix_append _ _
      exact (List.prefix_of_prefix_length_le hprefix (List.take_prefix _ _) hfront.le).eq_of_length
        hfront |>.symm
    have hgoing : ∀ accessed, Going iov behind
        ⟨currvec', ⟨vec.base.drop ret', vec.len - ret'⟩ :: (tail ++ behind),
          w.written ++ (contents rest).take (n + 1), accessed⟩
        (⟨vec.base.drop ret', vec.len - ret'⟩ :: tail) := by
      intro accessed
      have hlengths := congrArg List.length hrest
      rw [List.length_append, List.length_cons] at hlengths
      refine ⟨rfl, ?_, ?_, ?_, ?_⟩
      · rw [List.length_cons]
        dsimp only
        omega
      · intro other hother
        obtain rfl | hother := List.mem_cons.mp hother
        · unfold Iovec.Fits at hvec ⊢
          rw [List.length_drop]
          dsimp only
          omega
        · exact hfits other (by simp [hother])
      · rw [← h.bytes, hwritten, hcontents]
        simp only [contents_cons, List.append_assoc]
      · rw [← List.length_pos_iff, contents_cons, List.length_append]
        unfold Iovec.content Iovec.Fits at *
        rw [List.length_take, List.length_drop]
        dsimp only
        omega
    refine ⟨⟨vec.base.drop ret', vec.len - ret'⟩ :: tail, ?_, ?_⟩
    · rw [hiov] at hafter
      split at hafter
      · cases hafter
        exact hgoing _
      · rename_i hnot
        have hzero : ret' = 0 := by
          have hlengths := congrArg List.length hrest
          rw [List.length_append, List.length_cons] at hlengths
          omega
        cases hafter
        have hsame := hgoing accessed'
        rw [hzero, List.drop_zero, Nat.sub_zero] at hsame ⊢
        exact hsame
    · have hall := congrArg List.length hcontents
      have hbytes := congrArg List.length hwritten
      rw [List.length_take] at hbytes
      simp only [List.length_append, contents_cons] at hall hbytes ⊢
      omega
  · left
    rw [if_neg (by omega)] at hafter
    cases hafter
    refine ⟨by dsimp only; omega, ?_, ?_⟩
    · rw [← h.bytes, List.take_of_length_le (by omega)]
    · rwa [h.length] at hmem

theorem exists_afterWrite {n : ℕ}
    (h : Going iov behind w rest) (hbehind : ∃ vec ∈ behind, 0 < vec.len)
    (written : Bytes) (accessed : List ℕ) :
    ∃ w', afterWrite iov.length ((contents rest).take (n + 1)).length
      ⟨w.currvec, w.iov, written, accessed⟩ = some w' := by
  have htotal := length_contents h.fits
  have hlens : 0 < lens behind := by
    obtain ⟨vec, hvec, hpos⟩ := hbehind
    exact hpos.trans_le (len_le_lens hvec)
  have hlt : ((contents rest).take (n + 1)).length < lens (rest ++ behind) := by
    rw [List.length_take, lens_append]
    omega
  obtain ⟨currvec', ret', vec, iov', accessed', hadvance⟩ :=
    exists_advance (rest ++ behind) w.currvec _ accessed hlt
  unfold afterWrite
  rw [h.memory]
  simp only [hadvance, Option.bind_eq_bind, Option.bind_some]
  split <;> exact ⟨_, rfl⟩

/-- The calls of `writev` and `poll` have no other outcome than bytes written,
an interruption or a descriptor that is not ready. -/
def WriteEvent.Proceeds : WriteEvent → Prop
  | .wrote _ => True
  | .interrupted => True
  | .again polled => polled = true
  | .fail => False

def WriteEvent.isWrote : WriteEvent → Bool
  | .wrote _ => true
  | _ => false

theorem writevLoop_step {event : WriteEvent}
    (h : Going iov behind w rest) (hevent : event.Proceeds) (events : List WriteEvent) :
    (writevLoop iov.length (event :: events) w = .faulted ∧ ¬ ∃ vec ∈ behind, 0 < vec.len) ∨
      ∃ w', writevLoop iov.length (event :: events) w = writevLoop iov.length events w' ∧
        (Finished iov w' ∨ ∃ rest', Going iov behind w' rest' ∧
          (contents rest').length + (if event.isWrote then 1 else 0) ≤ (contents rest).length) := by
  have hsame : ∀ accessed, Going iov behind { w with accessed := accessed } rest :=
    fun _ => ⟨h.memory, h.length, h.fits, h.bytes, h.more⟩
  rw [writevLoop, if_pos h.currvec_lt]
  cases event with
  | interrupted => exact .inr ⟨_, rfl, .inr ⟨rest, hsame _, le_rfl⟩⟩
  | again polled =>
    rw [show polled = true from hevent]
    exact .inr ⟨_, rfl, .inr ⟨rest, hsame _, le_rfl⟩⟩
  | fail => exact absurd hevent id
  | wrote n =>
    have hleft : Writer.left iov.length { w with accessed := w.accessed ++ w.reads iov.length } =
        contents rest := (hsame _).left
    have hpos := List.length_pos_iff.mpr h.more
    have hchunk : ¬ ((contents rest).take (n + 1)).length = 0 := by
      rw [List.length_take]
      omega
    simp only [hleft, if_neg hchunk]
    split
    · rename_i hnone
      left
      refine ⟨rfl, fun hbehind => ?_⟩
      obtain ⟨w', hsome⟩ := @exists_afterWrite _ _ _ _ n h hbehind
        (w.written ++ (contents rest).take (n + 1)) (w.accessed ++ w.reads iov.length)
      rw [hnone] at hsome
      cases hsome
    · rename_i w' hsome
      right
      refine ⟨w', rfl, ?_⟩
      obtain hfinished | ⟨rest', hgoing, hless⟩ := afterWrite_cases h _ hsome
      · exact .inl hfinished
      · exact .inr ⟨rest', hgoing, hless⟩

theorem writevLoop_finished (h : Finished iov w)
    (events : List WriteEvent) : writevLoop iov.length events w = .returned .ok w := by
  unfold writevLoop
  rw [if_neg (Nat.not_lt.mpr h.passed)]

/-- A call that returns has finished. The induction is on what the calls of
`writev` do. -/
theorem writevLoop_returned {ret : WriteResult} {w' : Writer}
    (events : List WriteEvent) : ∀ (w : Writer) (rest : List Iovec), Going iov behind w rest →
      (∀ event ∈ events, event.Proceeds) →
        writevLoop iov.length events w = .returned ret w' → ret = .ok ∧ Finished iov w' := by
  induction events with
  | nil =>
    intro w rest hgoing _ h
    rw [writevLoop, if_pos hgoing.currvec_lt] at h
    cases h
  | cons event events ih =>
    intro w rest hgoing hevents h
    obtain ⟨hevent, hevents⟩ := List.forall_mem_cons.mp hevents
    obtain ⟨hfault, -⟩ | ⟨next, hnext, hcases⟩ := writevLoop_step hgoing hevent events
    · rw [hfault] at h
      cases h
    · rw [hnext] at h
      obtain hfinished | ⟨rest', hgoing', -⟩ := hcases
      · rw [writevLoop_finished hfinished] at h
        cases h
        exact ⟨rfl, hfinished⟩
      · exact ih next rest' hgoing' hevents h

theorem exists_writevLoop_returned (hbehind : ∃ vec ∈ behind, 0 < vec.len)
    (events : List WriteEvent) : ∀ (w : Writer) (rest : List Iovec), Going iov behind w rest →
      (∀ event ∈ events, event.Proceeds) →
      (contents rest).length ≤ events.countP WriteEvent.isWrote →
        ∃ w', writevLoop iov.length events w = .returned .ok w' := by
  induction events with
  | nil =>
    intro w rest hgoing _ hcount
    have := List.length_pos_iff.mpr hgoing.more
    rw [List.countP_nil] at hcount
    omega
  | cons event events ih =>
    intro w rest hgoing hevents hcount
    obtain ⟨hevent, hevents⟩ := List.forall_mem_cons.mp hevents
    obtain ⟨-, hnone⟩ | ⟨next, hnext, hcases⟩ := writevLoop_step hgoing hevent events
    · exact absurd hbehind hnone
    · rw [hnext]
      obtain hfinished | ⟨rest', hgoing', hless⟩ := hcases
      · exact ⟨next, writevLoop_finished hfinished events⟩
      · apply ih next rest' hgoing' hevents
        rw [List.countP_cons] at hcount
        omega

theorem going_initial (hfits : ∀ vec ∈ iov, vec.Fits)
    (hfull : ∃ vec ∈ iov, 0 < vec.len) (behind : List Iovec) :
    Going iov behind ⟨0, iov ++ behind, [], []⟩ iov := by
  refine ⟨rfl, Nat.zero_add _, hfits, rfl, ?_⟩
  obtain ⟨vec, hvec, hpos⟩ := hfull
  intro hnil
  have hcontent := List.flatMap_eq_nil_iff.mp hnil vec hvec
  have hlength := congrArg List.length hcontent
  have hroom := hfits vec hvec
  unfold Iovec.content at hlength
  unfold Iovec.Fits at hroom
  rw [List.length_take, List.length_nil] at hlength
  omega

def WritesAll (iov : List Iovec) (outcome : Outcome) : Prop :=
  ∃ w, outcome = .returned .ok w ∧ w.written = contents iov ∧ ∀ i ∈ w.accessed, i < iov.length

/-- The inner loop always reads the length behind the last element: when all
bytes are written it goes on with none left. The bytes themselves are written
once each, and the call returns if some length behind the vector is not zero. -/
theorem writevall_overreads {iov : List Iovec} (hfits : ∀ vec ∈ iov, vec.Fits)
    (hfull : ∃ vec ∈ iov, 0 < vec.len) (behind : List Iovec) {events : List WriteEvent}
    (hevents : ∀ event ∈ events, event.Proceeds) :
    ¬ WritesAll iov (ioWritevall iov behind events) ∧
      (∀ ret w, ioWritevall iov behind events = .returned ret w →
        ret = .ok ∧ w.written = contents iov ∧ iov.length ∈ w.accessed) ∧
      ((∃ vec ∈ behind, 0 < vec.len) →
        (contents iov).length ≤ events.countP WriteEvent.isWrote →
          ∃ w, ioWritevall iov behind events = .returned .ok w) := by
  have hgoing := going_initial hfits hfull behind
  have hreturned : ∀ ret w, ioWritevall iov behind events = .returned ret w →
      ret = .ok ∧ Finished iov w :=
    fun ret w h => writevLoop_returned events _ iov hgoing hevents h
  refine ⟨?_, ?_, ?_⟩
  · rintro ⟨w, h, -, hinside⟩
    exact absurd (hinside _ (hreturned _ _ h).2.overread) (Nat.lt_irrefl _)
  · intro ret w h
    obtain ⟨hret, hfinished⟩ := hreturned ret w h
    exact ⟨hret, hfinished.bytes, hfinished.overread⟩
  · intro hbehind hcount
    exact exists_writevLoop_returned hbehind events _ iov hgoing hevents hcount

/-- Two buffers, the second of them empty, are written after an interruption,
byte by byte. -/
def twoBuffers : List Iovec := [⟨[1, 2], 2⟩, ⟨[], 0⟩]

theorem twoBuffers_overread :
    ¬ WritesAll twoBuffers (ioWritevall twoBuffers [⟨[], 7⟩] [.interrupted, .wrote 0, .wrote 0]) :=
  (writevall_overreads (by decide) (by decide) [⟨[], 7⟩] (by
    simp [WriteEvent.Proceeds])).1

/-- One buffer of one byte, written at once: the length behind it is read. -/
theorem element_behind_read :
    ioWritevall [⟨[65], 1⟩] [⟨[], 8⟩] [.wrote 0] =
        .returned .ok ⟨1, [⟨[], 8⟩], [65], [0, 0, 1]⟩ ∧
      ¬ WritesAll [⟨[65], 1⟩] (ioWritevall [⟨[65], 1⟩] [⟨[], 8⟩] [.wrote 0]) := by
  have hrun : ioWritevall [⟨[65], 1⟩] [⟨[], 8⟩] [.wrote 0] =
      .returned .ok ⟨1, [⟨[], 8⟩], [65], [0, 0, 1]⟩ := by
    decide
  refine ⟨hrun, ?_⟩
  rintro ⟨w, h, -, hinside⟩
  rw [hrun] at h
  cases h
  exact absurd (hinside 1 (by decide)) (by decide)

end Yans.Util.Writev
