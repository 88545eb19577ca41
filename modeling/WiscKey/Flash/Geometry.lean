import Mathlib.Algebra.Order.Ring.Int
import WiscKey.Library.Counting

/-!
# Geometry of the simulated device

The parameters `InitializeFlashMemory` is given, the sizes it derives from them,
and the marks it keeps in its arrays. Sizes are `int`s in the source; the geometry
carries the bounds under which its initialisation divides by no zero, indexes no
empty array and overflows nowhere.
-/

namespace WiscKey.Flash

/-- `LBA_SIZE`: the bytes of a sector. -/
def lbaSize : Nat := 512

/-- `FBL_POINT_TO_NULL`: the link of the last free block. -/
def fblPointToNull : Int := -1

/-- `FBL_NOT_IN_LIST`: the link of a block that is not free. -/
def fblNotInList : Int := -2

/-- `FREE_PAGE`. -/
def freePage : Int := -1

/-- `INVALID_PAGE`. -/
def invalidPage : Int := -2

/-- `BAD_BLOCK`, kept in page 0 of a bad block. -/
def badBlock : Int := -3

/-- `FTL_POINT_TO_NULL`: the block number of a cluster that is not stored. -/
def ftlPointToNull : Int := -1

/-- The parameters of the device, in chips, megabytes, kilobytes and bytes. -/
structure Geometry where
  chipNumber : Nat
  chipSize : Nat
  blockSize : Nat
  pageSize : Nat
  chipNumber_pos : 0 < chipNumber
  blockSize_pos : 0 < blockSize
  /-- A chip has a block: `BlocksPerChip` is a divisor. -/
  block_le_chip : blockSize ≤ chipSize * 1024
  /-- Every block is a chip's: the chip's counter of free blocks is its number divided by
  `BlocksPerChip`. -/
  blocks_le_chips :
    chipNumber * chipSize * 1024 / blockSize ≤ chipNumber * (chipSize * 1024 / blockSize)
  /-- A page has a sector: `PageToLBARatio` is a divisor. -/
  lba_le_page : lbaSize ≤ pageSize
  /-- A block has a page: its page 0 is read for the bad-block mark. -/
  page_le_block : pageSize ≤ blockSize * 1024
  /-- The sectors of the device and of the reserve, and a block's bytes, fit an `int`. -/
  sectors_lt : (chipNumber * chipSize * 1024 + 64 * chipNumber * blockSize) * 2 < 2 ^ 31
  blockBytes_lt : blockSize * 1024 < 2 ^ 31

namespace Geometry

variable (g : Geometry)

/-- `FlashSize`, in megabytes. -/
def flashSize : Nat := g.chipNumber * g.chipSize

/-- `BlocksPerChip`. -/
def blocksPerChip : Nat := g.chipSize * 1024 / g.blockSize

/-- `MaxBlock`: the number of blocks. -/
def maxBlock : Nat := g.flashSize * 1024 / g.blockSize

/-- `MaxPage`: the number of pages of a block. -/
def maxPage : Nat := g.blockSize * 1024 / g.pageSize

/-- `MaxSubPage`: the number of sectors of a page. -/
def maxSubPage : Nat := g.pageSize / lbaSize

/-- `PageToLBARatio`. -/
def pageToLBARatio : Nat := g.pageSize / lbaSize

/-- `LeastFreeBlocksInFBL()`: the free blocks kept in reserve. -/
def leastFreeBlocksInFBL : Nat := 64 * g.chipNumber

/-- The block numbers. -/
def blocks : Finset Int := intRange g.maxBlock

/-- The page numbers of a block. -/
def pages : Finset Int := intRange g.maxPage

/-- `LogicalBlock = ClusterID / MaxPage`: the logical block of a cluster. -/
def logicalBlock (clusterID : Int) : Int := clusterID.tdiv g.maxPage

/-- `LogicalPage = ClusterID % MaxPage`: the page offset of a cluster in its logical block. -/
def logicalPage (clusterID : Int) : Int := clusterID.tmod g.maxPage

theorem pageSize_pos : 0 < g.pageSize := lt_of_lt_of_le (by decide) g.lba_le_page

theorem maxPage_pos : 0 < g.maxPage := Nat.div_pos g.page_le_block g.pageSize_pos

theorem pageToLBARatio_pos : 0 < g.pageToLBARatio := Nat.div_pos g.lba_le_page (by decide)

theorem blocksPerChip_pos : 0 < g.blocksPerChip := Nat.div_pos g.block_le_chip g.blockSize_pos

theorem leastFreeBlocksInFBL_pos : 0 < g.leastFreeBlocksInFBL :=
  Nat.mul_pos (by decide) g.chipNumber_pos

theorem leastFreeBlocksInFBL_ge : 64 ≤ g.leastFreeBlocksInFBL :=
  Nat.le_mul_of_pos_right _ g.chipNumber_pos

theorem maxBlock_pos : 0 < g.maxBlock := by
  apply Nat.div_pos _ g.blockSize_pos
  calc g.blockSize ≤ g.chipSize * 1024 := g.block_le_chip
    _ ≤ g.chipNumber * (g.chipSize * 1024) := Nat.le_mul_of_pos_left _ g.chipNumber_pos
    _ = g.flashSize * 1024 := by rw [flashSize, Nat.mul_assoc]

/-- The bytes of a page are an `int`. -/
theorem pageSize_lt : g.pageSize < 2 ^ 31 := lt_of_le_of_lt g.page_le_block g.blockBytes_lt

/-- The blocks of the device are those of its chips. -/
theorem maxBlock_eq : g.maxBlock = g.chipNumber * g.blocksPerChip := by
  refine le_antisymm g.blocks_le_chips ?_
  rw [blocksPerChip, maxBlock, flashSize, Nat.mul_assoc]
  exact Nat.mul_div_le_mul_div_assoc _ _ _

/-- A block has at most 2^22 pages, so that twice their number is still an `int`. -/
theorem maxPage_lt : g.maxPage < 2 ^ 22 := by
  apply Nat.div_lt_of_lt_mul
  calc g.blockSize * 1024 < 2 ^ 31 := g.blockBytes_lt
    _ = lbaSize * 2 ^ 22 := by decide
    _ ≤ g.pageSize * 2 ^ 22 := Nat.mul_le_mul_right _ g.lba_le_page

@[simp] theorem mem_blocks {b : Int} : b ∈ g.blocks ↔ 0 ≤ b ∧ b < g.maxBlock := mem_intRange

/-- The chip of a block. -/
theorem chip_lt {b : Int} (hb : b ∈ g.blocks) : b / g.blocksPerChip < g.chipNumber := by
  have hpos : (0 : Int) < g.blocksPerChip := by exact_mod_cast g.blocksPerChip_pos
  refine Int.ediv_lt_of_lt_mul hpos ?_
  have hlt := (g.mem_blocks.mp hb).2
  rw [g.maxBlock_eq] at hlt
  exact_mod_cast hlt

/-- No block has the number that marks a cluster as not stored. -/
theorem ne_null_of_mem_blocks {b : Int} (hb : b ∈ g.blocks) : b ≠ ftlPointToNull := by
  have hb0 := (g.mem_blocks.mp hb).1
  unfold ftlPointToNull
  omega

@[simp] theorem mem_pages {p : Int} : p ∈ g.pages ↔ 0 ≤ p ∧ p < g.maxPage := mem_intRange

theorem logicalBlock_nonneg {c : Int} (hc : 0 ≤ c) : 0 ≤ g.logicalBlock c :=
  Int.tdiv_nonneg hc (Int.natCast_nonneg _)

theorem logicalPage_mem {c : Int} (hc : 0 ≤ c) : g.logicalPage c ∈ g.pages :=
  g.mem_pages.mpr ⟨Int.tmod_nonneg _ hc, Int.tmod_lt_of_pos _ (by exact_mod_cast g.maxPage_pos)⟩

/-- A cluster is known by its logical block and its page offset. -/
theorem eq_of_logical {c c' : Int} (hblock : g.logicalBlock c = g.logicalBlock c')
    (hpage : g.logicalPage c = g.logicalPage c') : c = c' := by
  rw [← Int.tmod_add_mul_tdiv c g.maxPage, ← Int.tmod_add_mul_tdiv c' g.maxPage]
  unfold logicalBlock at hblock
  unfold logicalPage at hpage
  rw [hblock, hpage]

/-- Every page offset of every logical block is a cluster's. -/
theorem exists_cluster {block page : Int} (hblock : 0 ≤ block) (hpage : page ∈ g.pages) :
    ∃ c, 0 ≤ c ∧ g.logicalBlock c = block ∧ g.logicalPage c = page := by
  obtain ⟨hp0, hpm⟩ := g.mem_pages.mp hpage
  have hpos : (0 : Int) < g.maxPage := by exact_mod_cast g.maxPage_pos
  have hnonneg : 0 ≤ page + block * g.maxPage :=
    Int.add_nonneg hp0 (Int.mul_nonneg hblock hpos.le)
  refine ⟨page + block * g.maxPage, hnonneg, ?_, ?_⟩
  · rw [logicalBlock, Int.tdiv_eq_ediv_of_nonneg hnonneg, Int.add_mul_ediv_right _ _ hpos.ne',
      Int.ediv_eq_zero_of_lt hp0 hpm, Int.zero_add]
  · rw [logicalPage, Int.tmod_eq_emod_of_nonneg hnonneg, Int.add_mul_emod_self_right,
      Int.emod_eq_of_lt hp0 hpm]

@[simp] theorem card_blocks : g.blocks.card = g.maxBlock := by simp [blocks]

@[simp] theorem card_pages : g.pages.card = g.maxPage := by simp [pages]

end Geometry

/-- One chip of one megabyte in blocks of eight kilobytes with two pages each. -/
def megabyteGeometry : Geometry where
  chipNumber := 1
  chipSize := 1
  blockSize := 8
  pageSize := 4096
  chipNumber_pos := by decide
  blockSize_pos := by decide
  block_le_chip := by decide
  blocks_le_chips := by decide
  lba_le_page := by decide
  page_le_block := by decide
  sectors_lt := by decide
  blockBytes_lt := by decide

/-- Two chips of two blocks with one page each. -/
def twoChips : Geometry where
  chipNumber := 2
  chipSize := 1
  blockSize := 512
  pageSize := 524288
  chipNumber_pos := by decide
  blockSize_pos := by decide
  block_le_chip := by decide
  blocks_le_chips := by decide
  lba_le_page := by decide
  page_le_block := by decide
  sectors_lt := by decide
  blockBytes_lt := by decide

/-- Three chips of 128 blocks with one page each. -/
def threeChips : Geometry where
  chipNumber := 3
  chipSize := 1
  blockSize := 8
  pageSize := 8192
  chipNumber_pos := by decide
  blockSize_pos := by decide
  block_le_chip := by decide
  blocks_le_chips := by decide
  lba_le_page := by decide
  page_le_block := by decide
  sectors_lt := by decide
  blockBytes_lt := by decide

/-- One chip of 68 blocks of 15 kilobytes, with three pages of four kilobytes each. The last
four kilobytes of the chip and the last three of each block are unused. -/
def oddGeometry : Geometry where
  chipNumber := 1
  chipSize := 1
  blockSize := 15
  pageSize := 4096
  chipNumber_pos := by decide
  blockSize_pos := by decide
  block_le_chip := by decide
  blocks_le_chips := by decide
  lba_le_page := by decide
  page_le_block := by decide
  sectors_lt := by decide
  blockBytes_lt := by decide

/-- One chip of 68 blocks with two pages each. -/
def smallGeometry : Geometry where
  chipNumber := 1
  chipSize := 1
  blockSize := 15
  pageSize := 7680
  chipNumber_pos := by decide
  blockSize_pos := by decide
  block_le_chip := by decide
  blocks_le_chips := by decide
  lba_le_page := by decide
  page_le_block := by decide
  sectors_lt := by decide
  blockBytes_lt := by decide

/-- One chip of 68 blocks with thirty pages of one sector each. -/
def sectorGeometry : Geometry where
  chipNumber := 1
  chipSize := 1
  blockSize := 15
  pageSize := 512
  chipNumber_pos := by decide
  blockSize_pos := by decide
  block_le_chip := by decide
  blocks_le_chips := by decide
  lba_le_page := by decide
  page_le_block := by decide
  sectors_lt := by decide
  blockBytes_lt := by decide

/-- One chip of two blocks. -/
def twoBlocks : Geometry where
  chipNumber := 1
  chipSize := 1
  blockSize := 512
  pageSize := 524288
  chipNumber_pos := by decide
  blockSize_pos := by decide
  block_le_chip := by decide
  blocks_le_chips := by decide
  lba_le_page := by decide
  page_le_block := by decide
  sectors_lt := by decide
  blockBytes_lt := by decide

/-- One chip of 68 blocks with 131072 pages each. -/
def longBlocks : Geometry where
  chipNumber := 1
  chipSize := 8704
  blockSize := 131072
  pageSize := 1024
  chipNumber_pos := by decide
  blockSize_pos := by decide
  block_le_chip := by decide
  blocks_le_chips := by decide
  lba_le_page := by decide
  page_le_block := by decide
  sectors_lt := by decide
  blockBytes_lt := by decide

end WiscKey.Flash
