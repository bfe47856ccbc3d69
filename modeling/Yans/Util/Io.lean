import Yans.Util.Buf
import Mathlib.Algebra.BigOperators.Group.List.Basic
import Mathlib.Algebra.Ring.Nat

/-! `lib/util/io.c`: reading from a descriptor into a buffer. A descriptor is
the list of what its reads are going to return. -/
namespace Yans.Util

open Library.Memory

/-- What one `read` returns: bytes, a would-block result or another error. An
interrupted `read` is retried at once and does not show. -/
inductive ReadEvent where
  | data (chunk : Bytes)
  | again
  | fail
deriving DecidableEq

/-- A stream descriptor. `buffered` records, for each read that returned bytes,
how many bytes the receiving buffer held after it. -/
structure Fd where
  events : List ReadEvent
  buffered : List ℕ

inductive IoResult where
  | ok (nread : ℕ)
  | again
  | err
deriving DecidableEq

def readbufGrowsz : ℕ := 256

def ioReadbuf (fd : Fd) (buf : Buf) : IoResult × Buf × Fd :=
  let buf := if buf.cap - buf.len < readbufGrowsz then buf.grow readbufGrowsz else buf
  let bufsz := buf.cap - buf.len
  match fd.events with
  | [] => (.ok 0, buf, fd)
  | .again :: rest => (.again, buf, { fd with events := rest })
  | .fail :: rest => (.err, buf, { fd with events := rest })
  | .data chunk :: rest =>
    -- at most `bufsz` bytes are taken; the rest of the chunk stays readable
    let rest := if chunk.length ≤ bufsz then rest else .data (chunk.drop bufsz) :: rest
    let buf := buf.copyIn (chunk.take bufsz)
    (.ok (chunk.take bufsz).length, buf, ⟨rest, fd.buffered ++ [buf.len]⟩)

def Fd.weight (fd : Fd) : ℕ :=
  (fd.events.map fun
    | .data chunk => chunk.length + 1
    | _ => 1).sum

variable {after fd : Fd} {buf buf' : Buf}

theorem ioReadbuf_weight {nread : ℕ}
    (h : ioReadbuf fd buf = (.ok nread, buf', after)) (hread : nread ≠ 0) :
    after.weight < fd.weight := by
  unfold ioReadbuf at h
  generalize (if buf.cap - buf.len < readbufGrowsz then buf.grow readbufGrowsz else buf) = room at h
  obtain ⟨events, log⟩ := fd
  cases events with
  | nil =>
    simp only [Prod.mk.injEq, IoResult.ok.injEq] at h
    exact absurd h.1.symm hread
  | cons event rest =>
    cases event with
    | again => simp at h
    | fail => simp at h
    | data chunk =>
      simp only [Prod.mk.injEq, IoResult.ok.injEq] at h
      obtain ⟨rfl, -, rfl⟩ := h
      rw [List.length_take] at hread
      unfold Fd.weight
      split
      · simp only [List.map_cons, List.sum_cons]
        omega
      · simp only [List.map_cons, List.sum_cons, List.length_drop]
        omega

variable {ret : IoResult}

theorem ioReadbuf_total (h : ioReadbuf fd buf = (ret, buf', after)) :
    buf'.len + after.weight ≤ buf.len + fd.weight := by
  unfold ioReadbuf at h
  have hroom : (if buf.cap - buf.len < readbufGrowsz then buf.grow readbufGrowsz
      else buf).len = buf.len := by
    split <;> rfl
  generalize (if buf.cap - buf.len < readbufGrowsz then buf.grow readbufGrowsz else buf) = room
    at h hroom
  obtain ⟨events, log⟩ := fd
  cases events with
  | nil =>
    simp only [Prod.mk.injEq] at h
    rw [← h.2.1, ← h.2.2, hroom]
  | cons event rest =>
    cases event with
    | again =>
      simp only [Prod.mk.injEq] at h
      rw [← h.2.1, ← h.2.2, hroom]
      simp [Fd.weight]
    | fail =>
      simp only [Prod.mk.injEq] at h
      rw [← h.2.1, ← h.2.2, hroom]
      simp [Fd.weight]
    | data chunk =>
      simp only [Prod.mk.injEq] at h
      rw [← h.2.1, ← h.2.2]
      unfold Fd.weight Buf.copyIn
      dsimp only
      rw [List.length_take, hroom]
      split
      · simp only [List.map_cons, List.sum_cons]
        omega
      · simp only [List.map_cons, List.sum_cons, List.length_drop]
        omega

def streamBytes : List ReadEvent → Bytes
  | [] => []
  | .data chunk :: rest => chunk ++ streamBytes rest
  | _ :: rest => streamBytes rest

theorem chunk_eq_nil_of_streamBytes {events : List ReadEvent} (h : streamBytes events = [])
    {chunk : Bytes} (hchunk : .data chunk ∈ events) : chunk = [] := by
  induction events with
  | nil => cases hchunk
  | cons event events ih =>
    cases event with
    | data first =>
      obtain ⟨hfirst, hrest⟩ := List.append_eq_nil_iff.mp h
      cases hchunk with
      | head => exact hfirst
      | tail _ hmem => exact ih hrest hmem
    | again =>
      cases hchunk with
      | tail _ hmem => exact ih h hmem
    | fail =>
      cases hchunk with
      | tail _ hmem => exact ih h hmem

def againCount (events : List ReadEvent) : ℕ := events.count .again

def ReadEvent.Delivers : ReadEvent → Prop
  | .data chunk => chunk ≠ []
  | .again => True
  | .fail => False

instance : DecidablePred ReadEvent.Delivers
  | .data chunk => inferInstanceAs (Decidable (chunk ≠ []))
  | .again => .isTrue trivial
  | .fail => .isFalse id

theorem ioReadbuf_again {rest : List ReadEvent} (h : fd.events = .again :: rest)
    (buf : Buf) :
    ∃ buf', ioReadbuf fd buf = (.again, buf', { fd with events := rest }) ∧
      buf'.contents = buf.contents := by
  unfold ioReadbuf
  simp only [h]
  refine ⟨_, rfl, ?_⟩
  split
  · exact Buf.contents_grow buf _
  · rfl

theorem contents_of_ioReadbuf_again
    (h : ioReadbuf fd buf = (.again, buf', after)) : buf'.contents = buf.contents := by
  unfold ioReadbuf at h
  dsimp only at h
  have hroom : (if buf.cap - buf.len < readbufGrowsz then buf.grow readbufGrowsz
      else buf).contents = buf.contents := by
    split
    · exact Buf.contents_grow buf _
    · rfl
  split at h <;> cases h
  exact hroom

theorem ioReadbuf_data {chunk : Bytes} {rest : List ReadEvent}
    (h : fd.events = .data chunk :: rest) (hchunk : chunk ≠ [])
    (hrest : ∀ event ∈ rest, event.Delivers) (buf : Buf) :
    ∃ nread got buf' events, nread ≠ 0 ∧
      ioReadbuf fd buf = (.ok nread, buf', ⟨events, fd.buffered ++ [buf'.len]⟩) ∧
      buf'.contents = buf.contents ++ got ∧
      got ++ streamBytes events = streamBytes fd.events ∧
      againCount events = againCount fd.events ∧ ∀ event ∈ events, event.Delivers := by
  unfold ioReadbuf
  simp only [h]
  set room := if buf.cap - buf.len < readbufGrowsz then buf.grow readbufGrowsz else buf
    with hroom
  have hcontents : room.contents = buf.contents := by
    rw [hroom]
    split
    · exact Buf.contents_grow buf _
    · rfl
  have hspace : 0 < room.cap - room.len := by
    rw [hroom]
    split
    · have hle := buf.len_le
      have hadded : 256 ≤ Buf.alignOffset readbufGrowsz := by decide
      unfold Buf.cap Buf.grow
      dsimp only
      rw [List.length_append, List.length_replicate]
      split
      · omega
      · rename_i hbig
        have hgrow : readbufGrowsz = 256 := rfl
        omega
    · rename_i hlarge
      have hgrow : readbufGrowsz = 256 := rfl
      omega
  have hpos := List.length_pos_iff.mpr hchunk
  refine ⟨_, chunk.take (room.cap - room.len), _, _, ?_, rfl, ?_, ?_, ?_, ?_⟩
  · rw [List.length_take]
    omega
  · rw [Buf.contents_copyIn, hcontents]
  · split
    · rename_i hfits
      rw [List.take_of_length_le hfits]
      rfl
    · rw [streamBytes, streamBytes, ← List.append_assoc, List.take_append_drop]
  · unfold againCount
    split <;> simp
  · split
    · exact hrest
    · rename_i hlong
      intro event hevent
      obtain rfl | hevent := List.mem_cons.mp hevent
      · intro hnil
        have := congrArg List.length hnil
        simp only [List.length_drop, List.length_nil] at this
        omega
      · exact hrest event hevent

/-- One read of a live stream: no byte is lost or made up, and the end is
reported only when there is nothing more to come. -/
structure Reads (fd : Fd) (buf : Buf) (ret : IoResult) (buf' : Buf) (after : Fd) : Prop where
  bytes : buf'.contents ++ streamBytes after.events = buf.contents ++ streamBytes fd.events
  delivers : ∀ event ∈ after.events, event.Delivers
  result : ret = .ok 0 ∧ after.events = [] ∧ fd.events = [] ∨
    (∃ nread, nread ≠ 0 ∧ ret = .ok nread ∧ againCount after.events = againCount fd.events) ∨
    ret = .again ∧ againCount after.events + 1 = againCount fd.events

theorem ioReadbuf_reads (hdelivers : ∀ event ∈ fd.events, event.Delivers)
    (h : ioReadbuf fd buf = (ret, buf', after)) :
    Reads fd buf ret buf' after := by
  cases hevents : fd.events with
  | nil =>
    unfold ioReadbuf at h
    rw [hevents] at h
    simp only [Prod.mk.injEq] at h
    obtain ⟨rfl, rfl, rfl⟩ := h
    refine ⟨?_, hdelivers, .inl ⟨rfl, hevents, hevents⟩⟩
    split
    · rw [Buf.contents_grow]
    · rfl
  | cons event rest =>
    rw [hevents, List.forall_mem_cons] at hdelivers
    cases event with
    | fail => exact absurd hdelivers.1 id
    | again =>
      obtain ⟨grown, hread, hcontents⟩ := ioReadbuf_again hevents buf
      rw [hread] at h
      simp only [Prod.mk.injEq] at h
      obtain ⟨rfl, rfl, rfl⟩ := h
      refine ⟨?_, hdelivers.2, .inr (.inr ⟨rfl, ?_⟩)⟩
      · rw [hcontents, hevents]
        rfl
      · rw [hevents]
        simp [againCount]
    | data chunk =>
      obtain ⟨nread, got, filled, events, hnread, hread, hcontents, hstream, hagain, hleft⟩ :=
        ioReadbuf_data hevents hdelivers.1 hdelivers.2 buf
      rw [hread] at h
      simp only [Prod.mk.injEq] at h
      obtain ⟨rfl, rfl, rfl⟩ := h
      refine ⟨?_, hleft, .inr (.inl ⟨nread, hnread, rfl, hagain⟩)⟩
      rw [hcontents, List.append_assoc, hstream]

theorem ioReadbuf_buffered (fd : Fd) (buf : Buf) :
    fd.buffered <+: (ioReadbuf fd buf).2.2.buffered := by
  obtain ⟨events, log⟩ := fd
  cases events with
  | nil => exact List.prefix_rfl
  | cons event rest =>
    cases event with
    | again => exact List.prefix_rfl
    | fail => exact List.prefix_rfl
    | data chunk => exact List.prefix_append _ _

theorem ioReadbuf_len
    (h : ioReadbuf fd buf = (ret, buf', after)) : buf'.len = buf.len ∨ buf'.len ∈ after.buffered := by
  have hroom : (if buf.cap - buf.len < readbufGrowsz then buf.grow readbufGrowsz
      else buf).len = buf.len := by
    split <;> rfl
  unfold ioReadbuf at h
  dsimp only at h
  split at h
  · cases h
    exact .inl hroom
  · cases h
    exact .inl hroom
  · cases h
    exact .inl hroom
  · cases h
    exact .inr (List.mem_append_right _ (List.mem_singleton_self _))

end Yans.Util
