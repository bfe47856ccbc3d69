import Yans.Library.Needles
import Yans.Util.Buf

/-! `apps/webfetch/fetch.c`: how a response is received. The end of the header is searched for
as the response comes in. -/
namespace Yans.Apps.Webfetch

open Library Library.Memory Util

/-- What `writefunc` uses of a `struct fetch_transfer`. -/
structure FetchTransfer where
  recvbuf : Buf
  maxsize : ℕ
  /-- where to start looking for end-of-header in `recvbuf` -/
  scanoff : ℕ
  /-- if > 0: offset to the response body in `recvbuf` -/
  bodyoff : ℕ

def FetchTransfer.empty (recvbuf : Buf) (maxsize : ℕ) : FetchTransfer where
  recvbuf := recvbuf.clear
  maxsize := maxsize
  scanoff := 0
  bodyoff := 0

def headerEnd : Bytes := [13, 10, 13, 10]

/-- `buf_adata`; `realloc` says whether the buffer can be made larger. `none` is -1. -/
def bufAdata (realloc : Bool) (buf : Buf) (bytes : Bytes) : Option Buf :=
  if bytes.length ≠ 0 ∧ buf.cap - buf.len < bytes.length ∧ ¬ realloc then none
  else some (buf.adata bytes)

/-- The second half of `writefunc`: the search for the end of the header. -/
def scan (t : FetchTransfer) : FetchTransfer :=
  if t.bodyoff = 0 then
    match Needles.find headerEnd (t.recvbuf.contents.drop t.scanoff) with
    | some crlf => { t with bodyoff := t.scanoff + crlf + 4 }
    | none => if t.recvbuf.len > 4 then { t with scanoff := t.recvbuf.len - 4 } else t
  else t

/-- `ptr` leads to `size * nmemb` bytes. The second value is what is returned. -/
def writefunc (realloc : Bool) (t : FetchTransfer) (ptr : Bytes) : FetchTransfer × ℕ :=
  let totsz := ptr.length
  let totsz := if t.recvbuf.len + totsz ≥ t.maxsize then t.maxsize - t.recvbuf.len else totsz
  match bufAdata realloc t.recvbuf (ptr.take totsz) with
  | some recvbuf => (scan { t with recvbuf }, totsz)
  | none => (scan t, 0)

/-- A call of `writefunc`. -/
structure Delivery where
  ptr : Bytes
  realloc : Bool

/-- The calls one after the other, and what they return. -/
def deliver (t : FetchTransfer) : List Delivery → FetchTransfer × List ℕ
  | [] => (t, [])
  | d :: rest =>
    let (t, returned) := writefunc d.realloc t d.ptr
    let (t, more) := deliver t rest
    (t, returned :: more)

/-- `off` is where the body starts, or 0. -/
def IsBodyOffset (s : Bytes) (off : ℕ) : Prop :=
  (∃ i, Needles.IsFirst headerEnd s i ∧ off = i + 4) ∨
    (∀ i, ¬ Needles.Occurs headerEnd s i) ∧ off = 0

/-- What holds between two calls, where `all` is what has been kept. -/
structure Received (t : FetchTransfer) (all : Bytes) : Prop where
  contents : t.recvbuf.contents = all
  body : IsBodyOffset all t.bodyoff
  /-- what starts in front of `scanoff` and is not in `all` never occurs -/
  scanned : t.scanoff = 0 ∨ t.scanoff + 4 ≤ all.length

variable {t : FetchTransfer} {all : Bytes}

theorem headerEnd_ne_nil : headerEnd ≠ [] := List.cons_ne_nil _ _

theorem IsBodyOffset.ne_zero {s : Bytes} {i : ℕ} (h : Needles.Occurs headerEnd s i) {off : ℕ}
    (hoff : IsBodyOffset s off) : off ≠ 0 := by
  rcases hoff with ⟨k, -, rfl⟩ | ⟨hnone, -⟩
  · exact Nat.succ_ne_zero _
  · exact absurd h (hnone i)

theorem Received.skip (h : Received t all) (hbody : t.bodyoff = 0) (more : Bytes) :
    ∀ j < t.scanoff, ¬ Needles.Occurs headerEnd (all ++ more) j := by
  intro j hj hoccurs
  have hroom : j + headerEnd.length ≤ all.length := by
    have hscanned := h.scanned
    rw [show headerEnd.length = 4 from rfl]
    omega
  exact IsBodyOffset.ne_zero (hoccurs.of_append hroom) h.body hbody

theorem Received.scan (h : Received t all) {more : Bytes} {recvbuf : Buf}
    (hcontents : recvbuf.contents = all ++ more) :
    Received (Webfetch.scan { t with recvbuf }) (all ++ more) := by
  have hlen : recvbuf.len = (all ++ more).length := by
    rw [← hcontents, Buf.length_contents]
  have hscanned : t.scanoff = 0 ∨ t.scanoff + 4 ≤ (all ++ more).length := by
    have hbefore := h.scanned
    rw [List.length_append]
    omega
  unfold Webfetch.scan
  dsimp only
  by_cases hbody : t.bodyoff = 0
  · rw [if_pos hbody, hcontents]
    have hskip := h.skip hbody more
    cases hfind : Needles.find headerEnd ((all ++ more).drop t.scanoff) with
    | some crlf =>
      have hfirst := (Needles.find_eq_some hfind).of_drop hskip
      exact ⟨hcontents, .inl ⟨_, hfirst, rfl⟩, hscanned⟩
    | none =>
      have hnone : ∀ i, ¬ Needles.Occurs headerEnd (all ++ more) i := by
        intro i hoccurs
        have hge : t.scanoff ≤ i := Nat.not_lt.mp fun hlt => hskip i hlt hoccurs
        obtain ⟨d, rfl⟩ := Nat.exists_eq_add_of_le hge
        exact Needles.find_eq_none headerEnd_ne_nil hfind d (Needles.occurs_drop.mpr hoccurs)
      dsimp only
      split
      · refine ⟨hcontents, .inr ⟨hnone, hbody⟩, .inr ?_⟩
        dsimp only
        omega
      · exact ⟨hcontents, .inr ⟨hnone, hbody⟩, hscanned⟩
  · -- the end of the header has been found, and stays where it is
    rw [if_neg hbody]
    obtain ⟨i, hfirst, hoff⟩ := h.body.resolve_right fun hnone => hbody hnone.2
    exact ⟨hcontents, .inl ⟨i, hfirst.append headerEnd_ne_nil more, hoff⟩, hscanned⟩

theorem scan_recvbuf (t : FetchTransfer) :
    (scan t).recvbuf = t.recvbuf ∧ (scan t).maxsize = t.maxsize := by
  unfold scan
  split
  · split
    · exact ⟨rfl, rfl⟩
    · split
      · exact ⟨rfl, rfl⟩
      · exact ⟨rfl, rfl⟩
  · exact ⟨rfl, rfl⟩

theorem bufAdata_contents {realloc : Bool} {buf written : Buf} {bytes : Bytes}
    (hrun : bufAdata realloc buf bytes = some written) :
    written.contents = buf.contents ++ bytes ∧ written.len = buf.len + bytes.length := by
  unfold bufAdata at hrun
  split at hrun
  · cases hrun
  · cases hrun
    exact ⟨buf.contents_adata bytes, buf.len_adata bytes⟩

theorem Received.writefunc (h : Received t all) (hmax : t.recvbuf.len ≤ t.maxsize) (realloc : Bool)
    (ptr : Bytes) :
    (Webfetch.writefunc realloc t ptr).2 ≤ ptr.length ∧
      Received (Webfetch.writefunc realloc t ptr).1
        (all ++ ptr.take (Webfetch.writefunc realloc t ptr).2) ∧
      (Webfetch.writefunc realloc t ptr).1.recvbuf.len ≤ t.maxsize ∧
      (Webfetch.writefunc realloc t ptr).1.maxsize = t.maxsize := by
  unfold Webfetch.writefunc
  dsimp only
  have hroom : ∃ totsz, (if t.recvbuf.len + ptr.length ≥ t.maxsize then
      t.maxsize - t.recvbuf.len else ptr.length) = totsz ∧
        totsz ≤ ptr.length ∧ t.recvbuf.len + totsz ≤ t.maxsize := by
    refine ⟨_, rfl, ?_⟩
    split
    · omega
    · omega
  obtain ⟨totsz, htotsz, hle, hfits⟩ := hroom
  rw [htotsz]
  cases hwrite : bufAdata realloc t.recvbuf (ptr.take totsz) with
  | none =>
    obtain ⟨hbuf, hmaxsize⟩ := scan_recvbuf t
    rw [hbuf, List.take_zero]
    refine ⟨Nat.zero_le _, h.scan ?_, hmax, hmaxsize⟩
    rw [h.contents, List.append_nil]
  | some recvbuf =>
    obtain ⟨hcontents, hlen⟩ := bufAdata_contents hwrite
    obtain ⟨hbuf, hmaxsize⟩ := scan_recvbuf { t with recvbuf }
    rw [hbuf, hmaxsize]
    refine ⟨hle, h.scan ?_, ?_, rfl⟩
    · rw [hcontents, h.contents]
    · dsimp only
      rw [hlen, List.length_take, Nat.min_eq_left hle]
      exact hfits

/-- Any number of calls. The induction is on the calls. -/
theorem Received.deliver (ds : List Delivery) : ∀ {t : FetchTransfer} {all : Bytes},
    Received t all → t.recvbuf.len ≤ t.maxsize →
      ∃ kept, Received (Webfetch.deliver t ds).1 (all ++ kept) ∧
        (Webfetch.deliver t ds).1.recvbuf.len ≤ t.maxsize ∧
        (Webfetch.deliver t ds).1.maxsize = t.maxsize ∧
        ((Webfetch.deliver t ds).2 = ds.map (·.ptr.length) → kept = (ds.map (·.ptr)).flatten) := by
  induction ds with
  | nil =>
    intro t all h hmax
    refine ⟨[], ?_, hmax, rfl, fun _ => rfl⟩
    rw [List.append_nil]
    exact h
  | cons d rest ih =>
    intro t all h hmax
    obtain ⟨-, hcall, hlen, hmaxsize⟩ := h.writefunc hmax d.realloc d.ptr
    rw [← hmaxsize] at hlen
    obtain ⟨kept, hrest, hrestLen, hrestMax, hall⟩ := ih hcall hlen
    rw [List.append_assoc] at hrest
    rw [hmaxsize] at hrestLen hrestMax
    refine ⟨_, hrest, hrestLen, hrestMax, fun hreturned => ?_⟩
    obtain ⟨hfirst, hmore⟩ := List.cons.inj hreturned
    have hwhole : (Webfetch.writefunc d.realloc t d.ptr).2 = d.ptr.length := hfirst
    rw [hall hmore, hwhole, List.take_length]
    rfl

theorem received_empty (recvbuf : Buf) (maxsize : ℕ) :
    Received (FetchTransfer.empty recvbuf maxsize) [] where
  contents := recvbuf.contents_clear
  body := .inr ⟨Needles.not_occurs_nil headerEnd_ne_nil, rfl⟩
  scanned := .inl rfl

/-- The end of the header is where it is in the whole of what has been received. -/
theorem header_end_found (recvbuf : Buf) (maxsize : ℕ) (ds : List Delivery) :
    ((deliver (.empty recvbuf maxsize) ds).2 = ds.map (·.ptr.length) →
        (deliver (.empty recvbuf maxsize) ds).1.recvbuf.contents = (ds.map (·.ptr)).flatten) ∧
      (deliver (.empty recvbuf maxsize) ds).1.recvbuf.len ≤ maxsize ∧
      IsBodyOffset (deliver (.empty recvbuf maxsize) ds).1.recvbuf.contents
        (deliver (.empty recvbuf maxsize) ds).1.bodyoff := by
  obtain ⟨kept, hreceived, hlen, -, hall⟩ :=
    (received_empty recvbuf maxsize).deliver ds (Nat.zero_le _)
  rw [List.nil_append] at hreceived
  rw [hreceived.contents]
  exact ⟨hall, hlen, hreceived.body⟩

end Yans.Apps.Webfetch
