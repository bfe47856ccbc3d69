import Yans.Library.Prefixes
import Yans.Library.Regions
import Yans.Library.Runs

/-! The linear allocator of `lib/alloc/linvar.c`, as it is built without `LINVAR_DBG`: chunks
are carved from blocks that `mmap` provides. `size_t` and pointers have 64 bits; the list of
the blocks is the one behind `blks`, the current block first. -/
namespace Yans.Alloc.Linvar

open Library.Prefixes Library.Regions Library.Runs

/-- `sizeof(struct linvar_block)`: a pointer and two sizes. -/
def sizeofBlock : UInt64 := 24

def uintMax : UInt64 := 0xffffffff

def chunkAlignment : UInt64 := (1 : UInt64) <<< 2

def dflBlkAlignment : Int64 := (1 : Int64) <<< 12

/-- A block at `addr`; the memory of its chunks begins behind the header. -/
structure LinvarBlock where
  addr : UInt64
  offset : UInt64
  cap : UInt64
deriving DecidableEq

structure LinvarCtx where
  blksize : UInt64
  blkmask : UInt64
  blks : List LinvarBlock
deriving DecidableEq

/-- The page size, where `pagesz` is what `sysconf` returns. -/
def pageSize (pagesz : Int64) : UInt64 :=
  (if pagesz ≤ 0 then dflBlkAlignment else pagesz).toUInt64

def pageMask (pagesz : Int64) : UInt64 := pageSize pagesz - 1

def linvarInit (pagesz : Int64) (blksize : UInt64) : LinvarCtx where
  blksize := (blksize + pageMask pagesz) &&& ~~~pageMask pagesz
  blkmask := pageMask pagesz
  blks := []

def chunkNeeded (len : UInt64) : UInt64 :=
  (len + chunkAlignment - 1) &&& ~~~(chunkAlignment - 1)

/-- The size of a new block: what the allocation takes or the block size, whichever is higher. -/
def blkNeeded (ctx : LinvarCtx) (needed : UInt64) : UInt64 :=
  let blkNeeded := (sizeofBlock + needed + ctx.blkmask) &&& ~~~ctx.blkmask
  if ctx.blksize > blkNeeded then ctx.blksize else blkNeeded

/-- The length of the mapping that a chunk makes necessary. -/
def mmapLength (ctx : LinvarCtx) (needed : UInt64) : Option UInt64 :=
  match ctx.blks with
  | [] => some (blkNeeded ctx needed)
  | blk :: _ => if blk.cap - blk.offset < needed then some (blkNeeded ctx needed) else none

/-- The end of `linvar_alloc`: a chunk of the current block. -/
def takeChunk (ctx : LinvarCtx) (needed : UInt64) : Option UInt64 × LinvarCtx :=
  match ctx.blks with
  | [] => (none, ctx)
  | blk :: rest => (some (blk.addr + sizeofBlock + blk.offset),
      { ctx with blks := { blk with offset := blk.offset + needed } :: rest })

def linvarAlloc (mmap : UInt64 → Option UInt64) (ctx : LinvarCtx) (len : UInt64) :
    Option UInt64 × LinvarCtx :=
  if len = 0 ∨ len > uintMax then
    (none, ctx)
  else
    match mmapLength ctx (chunkNeeded len) with
    | none => takeChunk ctx (chunkNeeded len)
    | some length =>
      match mmap length with
      | none => (none, ctx)
      | some addr =>
        takeChunk { ctx with blks := ⟨addr, 0, length - sizeofBlock⟩ :: ctx.blks }
          (chunkNeeded len)

/-- The calls of `munmap`. -/
def linvarCleanup (ctx : LinvarCtx) : List (UInt64 × UInt64) :=
  ctx.blks.map fun blk => (blk.addr, blk.cap + sizeofBlock)

/-- The context, the regions that `mmap` provided and the chunks that were returned. -/
structure Run where
  ctx : LinvarCtx
  mapped : List Region
  chunks : List Region
deriving DecidableEq

/-- A length, and what `mmap` answers if it is called. -/
structure Call where
  len : UInt64
  answer : Option UInt64

def region (addr size : UInt64) : Region := ⟨addr.toNat, size.toNat⟩

def newlyMapped (ctx : LinvarCtx) (call : Call) : Option Region :=
  if call.len = 0 ∨ call.len > uintMax then none
  else (mmapLength ctx (chunkNeeded call.len)).bind fun length =>
    call.answer.map fun addr => region addr length

def Run.step (s : Run) (call : Call) : Run where
  ctx := (linvarAlloc (fun _ => call.answer) s.ctx call.len).2
  mapped := (newlyMapped s.ctx call).toList ++ s.mapped
  chunks := ((linvarAlloc (fun _ => call.answer) s.ctx call.len).1.map
    (region · call.len)).toList ++ s.chunks

def start (pagesz : Int64) (blksize : UInt64) : Run := ⟨linvarInit pagesz blksize, [], []⟩

/-- `mmap` provides memory that is not mapped yet. -/
def Fresh (s : Run) (call : Call) : Prop :=
  ∀ fresh ∈ newlyMapped s.ctx call, fresh.base + fresh.size ≤ 2 ^ 64 ∧
    ∀ other ∈ s.mapped, Apart fresh other

def Reached (pagesz : Int64) (blksize : UInt64) : Run → Prop :=
  Reachable (· = start pagesz blksize) Fresh fun s call after => after = s.step call

theorem toNat_and_not {w mask : UInt64} {n : ℕ} (hn : n ≤ 64) (hmask : mask.toNat = 2 ^ n - 1) :
    (w &&& ~~~mask).toNat = clearLow w.toNat n := by
  have hpos := Nat.two_pow_pos n
  have hnot : (~~~mask).toNat = 2 ^ 64 - 2 ^ n := by
    have hsize : UInt64.size = 2 ^ 64 := rfl
    rw [UInt64.toNat_not, hmask, hsize]
    omega
  rw [UInt64.toNat_and, hnot]
  apply Nat.eq_of_testBit_eq
  intro i
  rw [Nat.testBit_and, testBit_mask hn, testBit_clearLow]
  by_cases hi : i < 64
  · simp [hi, Bool.and_comm]
  · have hzero : w.toNat.testBit i = false := by
      apply Nat.testBit_lt_two_pow
      calc w.toNat < 2 ^ 64 := w.toNat_lt
        _ ≤ 2 ^ i := Nat.pow_le_pow_right (by decide) (by omega)
    simp [hzero]

theorem rounded {x mask : UInt64} {n : ℕ} (hn : n ≤ 64) (hmask : mask.toNat = 2 ^ n - 1)
    (hsum : x.toNat + mask.toNat < 2 ^ 64) :
    x.toNat ≤ ((x + mask) &&& ~~~mask).toNat ∧
      ((x + mask) &&& ~~~mask).toNat ≤ x.toNat + mask.toNat := by
  rw [toNat_and_not hn hmask, UInt64.toNat_add, Nat.mod_eq_of_lt hsum]
  refine ⟨?_, clearLow_le _ n⟩
  rw [hmask]
  exact le_clearLow _ n

def PowerOfTwo (pagesz : Int64) : Prop := 0 < pagesz.toInt → ∃ n : ℕ, pagesz.toInt = 2 ^ n

variable {pagesz : Int64}

theorem pageSize_pow (h : PowerOfTwo pagesz) :
    ∃ n ≤ 62, (pageSize pagesz).toNat = 2 ^ n := by
  unfold pageSize
  split
  · exact ⟨12, by decide, by decide⟩
  case isFalse hpos =>
    have hpos' : 0 < pagesz.toInt := by
      rw [Int64.le_iff_toInt_le] at hpos
      exact Int.not_le.mp hpos
    obtain ⟨n, hn⟩ := h hpos'
    have hlt : 2 ^ n < 2 ^ 63 := by
      have hle := pagesz.toInt_lt
      rw [hn] at hle
      exact_mod_cast hle
    refine ⟨n, by have := (Nat.pow_lt_pow_iff_right (by decide)).mp hlt; omega, ?_⟩
    rw [Int64.toNat_toUInt64_of_le (Int64.le_iff_toInt_le.mpr (show _ ≤ _ from Int.le_of_lt hpos')),
      ← Int64.toNat_toInt, hn]
    exact Int.toNat_natCast (2 ^ n)

theorem pageMask_ones (h : PowerOfTwo pagesz) :
    ∃ n ≤ 62, (pageMask pagesz).toNat = 2 ^ n - 1 := by
  obtain ⟨n, hn, hsize⟩ := pageSize_pow h
  refine ⟨n, hn, ?_⟩
  unfold pageMask
  rw [UInt64.toNat_sub_of_le, hsize]
  · rfl
  · rw [UInt64.le_iff_toNat_le, hsize]
    exact Nat.one_le_two_pow

variable {len : UInt64}

theorem chunkNeeded_bounds (hlen : ¬ (len = 0 ∨ len > uintMax)) :
    0 < len.toNat ∧ len.toNat ≤ (chunkNeeded len).toNat ∧
      (chunkNeeded len).toNat ≤ len.toNat + 3 ∧ len.toNat < 2 ^ 32 := by
  obtain ⟨hpos, hle⟩ := not_or.mp hlen
  have hpos' : len.toNat ≠ 0 := fun h => hpos (UInt64.toNat_inj.mp h)
  have hle' : len.toNat ≤ 0xffffffff := UInt64.le_iff_toNat_le.mp (UInt64.not_lt.mp hle)
  have hmask : (chunkAlignment - 1).toNat = 2 ^ 2 - 1 := by decide
  have hsum : len + chunkAlignment - 1 = len + (chunkAlignment - 1) := by
    grind
  have hround := @rounded len (chunkAlignment - 1) 2 (by decide) hmask (by omega)
  rw [← hsum, hmask] at hround
  unfold chunkNeeded
  omega

theorem blkNeeded_bounds {ctx : LinvarCtx} {needed : UInt64} {n : ℕ} (hn : n ≤ 62)
    (hmask : ctx.blkmask.toNat = 2 ^ n - 1) (hneeded : needed.toNat < 2 ^ 33) :
    sizeofBlock.toNat + needed.toNat + ctx.blkmask.toNat < 2 ^ 64 ∧
      sizeofBlock.toNat + needed.toNat ≤ (blkNeeded ctx needed).toNat := by
  have hpow : 2 ^ n ≤ 2 ^ 62 := Nat.pow_le_pow_right (by decide) hn
  have hsizeof : sizeofBlock.toNat = 24 := rfl
  have hsum : (sizeofBlock + needed).toNat = 24 + needed.toNat := by
    rw [UInt64.toNat_add, hsizeof]
    omega
  have hround := @rounded (sizeofBlock + needed) ctx.blkmask n (by omega) hmask (by omega)
  refine ⟨by omega, ?_⟩
  unfold blkNeeded
  dsimp only
  split
  case isTrue hlarger =>
    have hlarger' := UInt64.lt_iff_toNat_lt.mp hlarger
    omega
  · omega

theorem step_cases (s : Run) (call : Call) :
    s.step call = s ∨
    ¬ (call.len = 0 ∨ call.len > uintMax) ∧
      ((∃ blk rest, s.ctx.blks = blk :: rest ∧ ¬ blk.cap - blk.offset < chunkNeeded call.len ∧
        s.step call = ⟨{ s.ctx with
            blks := { blk with offset := blk.offset + chunkNeeded call.len } :: rest },
          s.mapped, region (blk.addr + sizeofBlock + blk.offset) call.len :: s.chunks⟩) ∨
      ∃ addr, newlyMapped s.ctx call = some (region addr (blkNeeded s.ctx (chunkNeeded call.len))) ∧
        s.step call = ⟨{ s.ctx with
            blks := ⟨addr, 0 + chunkNeeded call.len,
              blkNeeded s.ctx (chunkNeeded call.len) - sizeofBlock⟩ :: s.ctx.blks },
          region addr (blkNeeded s.ctx (chunkNeeded call.len)) :: s.mapped,
          region (addr + sizeofBlock + 0) call.len :: s.chunks⟩) := by
  by_cases hlen : call.len = 0 ∨ call.len > uintMax
  · left
    simp [Run.step, linvarAlloc, newlyMapped, hlen]
  rcases hlength : mmapLength s.ctx (chunkNeeded call.len) with _ | length
  · refine .inr ⟨hlen, .inl ?_⟩
    cases hblks : s.ctx.blks with
    | nil => simp [mmapLength, hblks] at hlength
    | cons blk rest =>
      refine ⟨blk, rest, rfl, by simpa [mmapLength, hblks] using hlength, ?_⟩
      simp [Run.step, linvarAlloc, newlyMapped, hlen, hlength, takeChunk, hblks]
  · have heq : length = blkNeeded s.ctx (chunkNeeded call.len) := by
      unfold mmapLength at hlength
      split at hlength
      · exact (Option.some.inj hlength).symm
      · split at hlength
        · exact (Option.some.inj hlength).symm
        · cases hlength
    cases hanswer : call.answer with
    | none =>
      left
      simp [Run.step, linvarAlloc, newlyMapped, hlen, hlength, hanswer]
    | some addr =>
      refine .inr ⟨hlen, .inr ⟨addr, ?_, ?_⟩⟩
      · simp [newlyMapped, hlen, hlength, hanswer, heq]
      · simp [Run.step, linvarAlloc, newlyMapped, hlen, hlength, hanswer, takeChunk, heq]

def LinvarBlock.block (blk : LinvarBlock) : Block :=
  ⟨⟨blk.addr.toNat, sizeofBlock.toNat + blk.cap.toNat⟩, blk.offset.toNat⟩

def Run.arena (s : Run) : Arena := ⟨s.ctx.blks.map LinvarBlock.block, s.chunks⟩

structure Invariant (s : Run) : Prop where
  mask : ∃ n ≤ 62, s.ctx.blkmask.toNat = 2 ^ n - 1
  mapped : s.mapped = s.ctx.blks.map fun blk => blk.block.region
  sized : ∀ m ∈ s.mapped, m.size < 2 ^ 64
  addressed : ∀ m ∈ s.mapped, m.base + m.size ≤ 2 ^ 64
  sound : Sound sizeofBlock.toNat s.arena

theorem Invariant.start (hpage : PowerOfTwo pagesz) (blksize : UInt64) :
    Invariant (start pagesz blksize) where
  mask := pageMask_ones hpage
  mapped := rfl
  sized := by simp [Linvar.start]
  addressed := by simp [Linvar.start]
  sound := sound_empty _

variable {s : Run} {blk : LinvarBlock}

theorem Invariant.offset_le (h : Invariant s)
    (hblk : blk ∈ s.ctx.blks) : blk.offset.toNat ≤ blk.cap.toNat := by
  have hfits := h.sound.fits _ (List.mem_map_of_mem hblk)
  simp only [LinvarBlock.block] at hfits
  omega

theorem toNat_chunk {addr offset : UInt64}
    (h : addr.toNat + sizeofBlock.toNat + offset.toNat < 2 ^ 64) :
    (addr + sizeofBlock + offset).toNat = addr.toNat + sizeofBlock.toNat + offset.toNat := by
  rw [UInt64.toNat_add, UInt64.toNat_add, Nat.mod_add_mod, Nat.mod_eq_of_lt h]

theorem room {needed : UInt64} (hle : blk.offset.toNat ≤ blk.cap.toNat)
    (hroom : ¬ blk.cap - blk.offset < needed) :
    (blk.offset + needed).toNat = blk.offset.toNat + needed.toNat ∧
      blk.offset.toNat + needed.toNat ≤ blk.cap.toNat := by
  have hroom' := UInt64.le_iff_toNat_le.mp (UInt64.not_lt.mp hroom)
  rw [UInt64.toNat_sub_of_le _ _ (UInt64.le_iff_toNat_le.mpr hle)] at hroom'
  have hcap := blk.cap.toNat_lt
  refine ⟨?_, by omega⟩
  rw [UInt64.toNat_add, Nat.mod_eq_of_lt (by omega)]

theorem Invariant.step_current (h : Invariant s)
    {rest : List LinvarBlock} (hlen : ¬ (len = 0 ∨ len > uintMax))
    (hblks : s.ctx.blks = blk :: rest) (hroom : ¬ blk.cap - blk.offset < chunkNeeded len) :
    Invariant ⟨{ s.ctx with blks := { blk with offset := blk.offset + chunkNeeded len } :: rest },
      s.mapped, region (blk.addr + sizeofBlock + blk.offset) len :: s.chunks⟩ := by
  obtain ⟨hpos, hle, -, -⟩ := chunkNeeded_bounds hlen
  obtain ⟨hoffset, hcap⟩ := room (h.offset_le (hblks ▸ List.mem_cons_self)) hroom
  have haddr : blk.addr.toNat + (sizeofBlock.toNat + blk.cap.toNat) ≤ 2 ^ 64 := by
    apply h.addressed blk.block.region
    rw [h.mapped, hblks]
    exact List.mem_cons_self
  have hsound := h.sound
  unfold Run.arena at hsound
  rw [hblks] at hsound
  refine ⟨h.mask, ?_, h.sized, h.addressed, ?_⟩
  · rw [h.mapped, hblks]
    rfl
  · have hcarved := hsound.carve hle (by dsimp only; omega)
    simp only [Run.arena, List.map_cons, LinvarBlock.block, region, hoffset]
    rw [toNat_chunk (by omega)]
    exact hcarved

theorem Invariant.step_new (h : Invariant s) {addr : UInt64}
    (hlen : ¬ (len = 0 ∨ len > uintMax))
    (hbound : addr.toNat + (blkNeeded s.ctx (chunkNeeded len)).toNat ≤ 2 ^ 64)
    (hapart : ∀ other ∈ s.mapped, Apart (region addr (blkNeeded s.ctx (chunkNeeded len))) other) :
    Invariant ⟨{ s.ctx with blks := ⟨addr, 0 + chunkNeeded len,
        blkNeeded s.ctx (chunkNeeded len) - sizeofBlock⟩ :: s.ctx.blks },
      region addr (blkNeeded s.ctx (chunkNeeded len)) :: s.mapped,
      region (addr + sizeofBlock + 0) len :: s.chunks⟩ := by
  obtain ⟨hpos, hle, hupper, hlt⟩ := chunkNeeded_bounds hlen
  obtain ⟨n, hn, hmask⟩ := h.mask
  obtain ⟨-, hneeded⟩ := @blkNeeded_bounds s.ctx (chunkNeeded len) n hn hmask (by omega)
  have hcap : sizeofBlock.toNat + (blkNeeded s.ctx (chunkNeeded len) - sizeofBlock).toNat =
      (blkNeeded s.ctx (chunkNeeded len)).toNat := by
    rw [UInt64.toNat_sub_of_le _ _ (UInt64.le_iff_toNat_le.mpr (by omega))]
    omega
  have hgrown := @Sound.grow _ _ _ h.sound (region addr (blkNeeded s.ctx (chunkNeeded len)))
    (by
      intro block hblock
      obtain ⟨blk, hblk, rfl⟩ := List.mem_map.mp hblock
      apply hapart
      rw [h.mapped]
      exact List.mem_map_of_mem hblk)
    (by unfold region; dsimp only; omega)
  have hcarved := hgrown.carve hle (by unfold region; dsimp only; omega)
  refine ⟨h.mask, ?_, ?_, ?_, ?_⟩
  · rw [List.map_cons, ← h.mapped]
    simp only [LinvarBlock.block, region, hcap]
  · exact List.forall_mem_cons.mpr ⟨UInt64.toNat_lt _, h.sized⟩
  · exact List.forall_mem_cons.mpr ⟨hbound, h.addressed⟩
  · simp only [Run.arena, List.map_cons, LinvarBlock.block, region, hcap]
    rw [toNat_chunk (by change addr.toNat + sizeofBlock.toNat + 0 < 2 ^ 64; omega), UInt64.zero_add]
    have hzero : (0 : UInt64).toNat = 0 := rfl
    rw [hzero]
    simpa only [region, Nat.zero_add] using hcarved

theorem Invariant.step (h : Invariant s) {call : Call} (hfresh : Fresh s call) :
    Invariant (s.step call) := by
  rcases step_cases s call with heq | ⟨hlen, ⟨blk, rest, hblks, hroom, heq⟩ | ⟨addr, hnew, heq⟩⟩
  · rwa [heq]
  · rw [heq]
    exact h.step_current hlen hblks hroom
  · obtain ⟨hbound, hapart⟩ := hfresh _ hnew
    rw [heq]
    exact h.step_new hlen hbound hapart

variable {blksize : UInt64}

theorem Invariant.of_reached (hpage : PowerOfTwo pagesz)
    (h : Reached pagesz blksize s) : Invariant s := by
  apply h.invariant
  · rintro _ rfl
    exact .start hpage blksize
  · rintro before call _ hbefore hfresh rfl
    exact hbefore.step hfresh

theorem cleanup_releases (hpage : PowerOfTwo pagesz)
    (h : Reached pagesz blksize s) :
    (linvarCleanup s.ctx).map (fun call => region call.1 call.2) = s.mapped := by
  have hinv := Invariant.of_reached hpage h
  unfold linvarCleanup
  rw [hinv.mapped, List.map_map]
  apply List.map_congr_left
  intro blk hblk
  have hsize := hinv.sized blk.block.region (hinv.mapped ▸ List.mem_map_of_mem hblk)
  simp only [Function.comp, region, LinvarBlock.block] at hsize ⊢
  rw [UInt64.toNat_add, Nat.mod_eq_of_lt (by omega), Nat.add_comm]

theorem cleanup_releases_two :
    (linvarCleanup (((start 4096 100).step ⟨5, some 0x10000⟩).step ⟨9000, some 0x20000⟩).ctx).map
      (fun call => region call.1 call.2) = [⟨0x20000, 12288⟩, ⟨0x10000, 4096⟩] := by
  have hfirst : Reached 4096 100 ((start 4096 100).step ⟨5, some 0x10000⟩) := by
    refine .step (.initial rfl) ?_ rfl
    intro fresh hfresh
    cases hfresh
    exact ⟨by decide, by simp [start]⟩
  have hsecond : Reached 4096 100
      (((start 4096 100).step ⟨5, some 0x10000⟩).step ⟨9000, some 0x20000⟩) := by
    refine .step hfirst ?_ rfl
    intro fresh hfresh
    cases hfresh
    refine ⟨by decide, fun other hother => ?_⟩
    obtain rfl := List.mem_singleton.mp hother
    decide
  exact (cleanup_releases (fun _ => ⟨12, by decide⟩) hsecond).trans (by decide)

/-! No sum or difference of sizes leaves the range of `size_t` -/

structure InitExact (pagesz : Int64) (blksize : UInt64) : Prop where
  blkmask : 1 ≤ (pageSize pagesz).toNat
  blksize : blksize.toNat + (pageMask pagesz).toNat < 2 ^ 64

structure AllocExact (ctx : LinvarCtx) (len : UInt64) : Prop where
  chunk : len.toNat + chunkAlignment.toNat < 2 ^ 64
  room : ∀ blk ∈ ctx.blks.head?, blk.offset.toNat ≤ blk.cap.toNat
  block : sizeofBlock.toNat + (chunkNeeded len).toNat + ctx.blkmask.toNat < 2 ^ 64
  cap : sizeofBlock.toNat ≤ (blkNeeded ctx (chunkNeeded len)).toNat
  offset : ∀ blk ∈ ctx.blks.head?, ¬ blk.cap - blk.offset < chunkNeeded len →
    blk.offset.toNat + (chunkNeeded len).toNat < 2 ^ 64

theorem init_exact (hpage : PowerOfTwo pagesz)
    (hblksize : blksize.toNat < 2 ^ 63) : InitExact pagesz blksize := by
  obtain ⟨n, hn, hsize⟩ := pageSize_pow hpage
  obtain ⟨m, hm, hmask⟩ := pageMask_ones hpage
  have hpow : 2 ^ m ≤ 2 ^ 62 := Nat.pow_le_pow_right (by decide) hm
  exact ⟨hsize ▸ Nat.one_le_two_pow, by omega⟩

theorem Invariant.alloc_exact (h : Invariant s)
    (hlen : ¬ (len = 0 ∨ len > uintMax)) : AllocExact s.ctx len := by
  obtain ⟨-, -, hupper, hlt⟩ := chunkNeeded_bounds hlen
  obtain ⟨n, hn, hmask⟩ := h.mask
  obtain ⟨hblock, hneeded⟩ := @blkNeeded_bounds s.ctx (chunkNeeded len) n hn hmask (by omega)
  have halign : chunkAlignment.toNat = 4 := rfl
  refine ⟨by omega, fun blk hblk => h.offset_le (List.mem_of_mem_head? hblk), hblock, by omega, ?_⟩
  intro blk hblk hroom
  obtain ⟨-, hle⟩ := room (h.offset_le (List.mem_of_mem_head? hblk)) hroom
  have hcap := blk.cap.toNat_lt
  omega

theorem linvar_chunks_disjoint {pagesz : Int64} {blksize : UInt64} (hpage : PowerOfTwo pagesz)
    (hblksize : blksize.toNat < 2 ^ 63) {s : Run} (h : Reached pagesz blksize s) :
    (∀ chunk ∈ s.chunks, ∃ m ∈ s.mapped, Within chunk (m.behind sizeofBlock.toNat)) ∧
    s.chunks.Pairwise Apart ∧
    (∀ blk ∈ s.ctx.blks, blk.offset ≤ blk.cap) ∧
    InitExact pagesz blksize ∧
    ∀ len, ¬ (len = 0 ∨ len > uintMax) → AllocExact s.ctx len := by
  have hinv := Invariant.of_reached hpage h
  refine ⟨?_, hinv.sound.chunks_apart, ?_, init_exact hpage hblksize, fun len => hinv.alloc_exact⟩
  · intro chunk hchunk
    obtain ⟨block, hblock, hwithin⟩ := hinv.sound.chunk_behind hchunk
    obtain ⟨blk, hblk, rfl⟩ := List.mem_map.mp hblock
    refine ⟨_, ?_, hwithin⟩
    rw [hinv.mapped]
    exact List.mem_map_of_mem hblk
  · intro blk hblk
    exact UInt64.le_iff_toNat_le.mpr (hinv.offset_le hblk)

/-- Two chunks of one block: `mmap` is called for the first one only. -/
theorem linvar_chunks_disjoint_two :
    Apart (region (0x10000 + 24 + 8) 4) (region (0x10000 + 24) 5) ∧
    ((start 4096 100).step ⟨5, some 0x10000⟩).mapped = [⟨0x10000, 4096⟩] := by
  have hpage : PowerOfTwo 4096 := fun _ => ⟨12, by decide⟩
  have hfirst : Fresh (start 4096 100) ⟨5, some 0x10000⟩ := by
    intro fresh hfresh
    cases hfresh
    exact ⟨by decide, by simp [start]⟩
  have hsecond : Fresh ((start 4096 100).step ⟨5, some 0x10000⟩) ⟨4, none⟩ := by
    intro fresh hfresh
    cases hfresh
  have hrun : Reached 4096 100 (((start 4096 100).step ⟨5, some 0x10000⟩).step ⟨4, none⟩) :=
    .step (.step (.initial rfl) hfirst rfl) hsecond rfl
  have hall := linvar_chunks_disjoint hpage (by decide) hrun
  exact ⟨(List.pairwise_cons.mp hall.2.1).1 _ List.mem_cons_self, by decide⟩

end Yans.Alloc.Linvar
