import Mathlib.Data.List.Pairwise
import Mathlib.Order.Nat

/-! Regions of memory, and an arena of blocks from which regions are carved one behind the
other: what is carved lies inside a block and is apart from all that was carved before. -/
namespace Yans.Library.Regions

/-- The `size` addresses from `base` on. -/
structure Region where
  base : ℕ
  size : ℕ
deriving DecidableEq

def Within (a b : Region) : Prop := b.base ≤ a.base ∧ a.base + a.size ≤ b.base + b.size

def Apart (a b : Region) : Prop := a.base + a.size ≤ b.base ∨ b.base + b.size ≤ a.base

instance (a b : Region) : Decidable (Within a b) := inferInstanceAs (Decidable (_ ∧ _))

instance (a b : Region) : Decidable (Apart a b) := inferInstanceAs (Decidable (_ ∨ _))

theorem Within.trans {a b c : Region} (hab : Within a b) (hbc : Within b c) : Within a c :=
  ⟨hbc.1.trans hab.1, hab.2.trans hbc.2⟩

theorem Apart.mono {a b c d : Region} (h : Apart b d) (hab : Within a b) (hcd : Within c d) :
    Apart a c := by
  unfold Apart Within at *
  omega

/-- The region without its first `header` bytes. -/
def Region.behind (region : Region) (header : ℕ) : Region :=
  ⟨region.base + header, region.size - header⟩

/-- The first `used` bytes behind the header of the region are given away. -/
structure Block where
  region : Region
  used : ℕ

structure Arena where
  blocks : List Block
  chunks : List Region

def Block.given (header : ℕ) (block : Block) : Region := ⟨block.region.base + header, block.used⟩

structure Sound (header : ℕ) (arena : Arena) : Prop where
  blocks_apart : arena.blocks.Pairwise fun a b => Apart a.region b.region
  fits : ∀ block ∈ arena.blocks, header + block.used ≤ block.region.size
  chunks_given : ∀ chunk ∈ arena.chunks, ∃ block ∈ arena.blocks, Within chunk (block.given header)
  chunks_apart : arena.chunks.Pairwise Apart

theorem sound_empty (header : ℕ) : Sound header ⟨[], []⟩ where
  blocks_apart := .nil
  fits := by simp
  chunks_given := by simp
  chunks_apart := .nil

section

variable {header : ℕ} {blocks : List Block} {chunks : List Region}

theorem Sound.grow (h : Sound header ⟨blocks, chunks⟩) {region : Region}
    (hfresh : ∀ block ∈ blocks, Apart region block.region) (hheader : header ≤ region.size) :
    Sound header ⟨⟨region, 0⟩ :: blocks, chunks⟩ where
  blocks_apart := List.pairwise_cons.mpr ⟨hfresh, h.blocks_apart⟩
  fits := List.forall_mem_cons.mpr ⟨hheader, h.fits⟩
  chunks_given := by
    intro chunk hchunk
    obtain ⟨block, hblock, hwithin⟩ := h.chunks_given chunk hchunk
    exact ⟨block, List.mem_cons_of_mem _ hblock, hwithin⟩
  chunks_apart := h.chunks_apart

theorem given_within {block : Block} (h : header + block.used ≤ block.region.size) :
    Within (block.given header) block.region := by
  unfold Within Block.given
  dsimp only
  omega

theorem Sound.carve {region : Region} {used size needed : ℕ}
    (h : Sound header ⟨⟨region, used⟩ :: blocks, chunks⟩) (hsize : size ≤ needed)
    (hroom : header + (used + needed) ≤ region.size) :
    Sound header ⟨⟨region, used + needed⟩ :: blocks,
      ⟨region.base + header + used, size⟩ :: chunks⟩ where
  blocks_apart := List.pairwise_cons.mpr (List.pairwise_cons.mp h.blocks_apart)
  fits := List.forall_mem_cons.mpr ⟨hroom, (List.forall_mem_cons.mp h.fits).2⟩
  chunks_given := by
    intro chunk hchunk
    rcases List.mem_cons.mp hchunk with rfl | hchunk
    · refine ⟨_, List.mem_cons_self, ?_⟩
      unfold Within Block.given
      dsimp only
      omega
    obtain ⟨block, hblock, hwithin⟩ := h.chunks_given chunk hchunk
    rcases List.mem_cons.mp hblock with rfl | hblock
    · refine ⟨_, List.mem_cons_self, hwithin.trans ?_⟩
      unfold Within Block.given
      dsimp only
      omega
    · exact ⟨block, List.mem_cons_of_mem _ hblock, hwithin⟩
  chunks_apart := by
    refine List.pairwise_cons.mpr ⟨fun chunk hchunk => ?_, h.chunks_apart⟩
    obtain ⟨block, hblock, hwithin⟩ := h.chunks_given chunk hchunk
    rcases List.mem_cons.mp hblock with rfl | hblock
    -- what the block gave away before ends where the new chunk begins
    · right
      exact hwithin.2
    · have hapart := (List.pairwise_cons.mp h.blocks_apart).1 block hblock
      have hgiven := given_within (h.fits block (List.mem_cons_of_mem _ hblock))
      apply hapart.mono _ (hwithin.trans hgiven)
      unfold Within
      dsimp only
      omega

theorem Sound.chunk_behind (h : Sound header ⟨blocks, chunks⟩) {chunk : Region}
    (hchunk : chunk ∈ chunks) :
    ∃ block ∈ blocks, Within chunk (block.region.behind header) := by
  obtain ⟨block, hblock, hwithin⟩ := h.chunks_given chunk hchunk
  have hfits := h.fits block hblock
  refine ⟨block, hblock, hwithin.trans ?_⟩
  unfold Within Block.given Region.behind
  dsimp only
  omega

end

end Yans.Library.Regions
