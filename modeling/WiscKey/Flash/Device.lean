import WiscKey.Flash.Geometry
import Mathlib.Logic.Equiv.Basic

/-!
# The flash device and its free block list

The global arrays of the device and the operations on them that every translation
layer shares. The free block list is threaded through the array `FreeBlockList`;
blocks leave it at the head and come back at the tail.
-/

namespace WiscKey.Flash

/-- How a call ends when it does not return. -/
inductive Fault
  /-- An integer division by zero. -/
  | divByZero
  /-- An access through a block number outside the device. -/
  | badIndex
  /-- A read through a pointer that was never set, or whose target is deleted. -/
  | badPointer
  /-- A call of `exit(1)`. -/
  | exit
  /-- The steps granted to a loop ran out. -/
  | outOfFuel
  deriving DecidableEq, Repr

/-- The global state of the device. -/
structure Device where
  /-- `FlashMemory[Block_ID][Page_ID]`: a cluster number or a page mark. -/
  flashMemory : Int → Int → Int
  freeBlockList : Int → Int
  freeBlockListHead : Int
  freeBlockListTail : Int
  blocksInFreeBlockList : Int
  blocksInFreeBlockListArray : Int → Int
  badBlockCnt : Nat
  blockEraseCnt : Int → Int
  maxBlockEraseCnt : Int
  invalidPageCnt : Int → Int
  validPageCnt : Int → Int
  freePageCnt : Int → Int
  invalidSubPageCnt : Int → Int
  validSubPageCnt : Int → Int
  freeSubPageCnt : Int → Int
  accessedLogicalPages : Int
  accessedLogicalPageMap : Int → Bool

variable (g : Geometry)

/-- The body the two branches of `GetFreeBlock` share: unlink the head of the list. -/
def takeFreeBlock (d : Device) : Except Fault (Int × Device) :=
  let block := d.freeBlockListHead
  if g.maxBlock < block ∨ block < 0 then .error .exit
  else .ok (block, { d with
    freeBlockListHead := d.freeBlockList block
    freeBlockList := Function.update d.freeBlockList block fblNotInList
    blocksInFreeBlockList := d.blocksInFreeBlockList - 1
    blocksInFreeBlockListArray := Function.update d.blocksInFreeBlockListArray
      (block / g.blocksPerChip) (d.blocksInFreeBlockListArray (block / g.blocksPerChip) - 1)
    freePageCnt := Function.update d.freePageCnt block g.maxPage
    invalidPageCnt := Function.update d.invalidPageCnt block 0
    validPageCnt := Function.update d.validPageCnt block 0
    freeSubPageCnt := Function.update d.freeSubPageCnt block (g.maxSubPage * g.maxPage)
    invalidSubPageCnt := Function.update d.invalidSubPageCnt block 0
    validSubPageCnt := Function.update d.validSubPageCnt block 0 })

/-- `GetFreeBlock`: -1 when a request from outside the collector would touch the reserve. -/
def getFreeBlock (fromGcRequest : Bool) (d : Device) : Except Fault (Int × Device) :=
  if fromGcRequest then takeFreeBlock g d
  else if (g.leastFreeBlocksInFBL : Int) < d.blocksInFreeBlockList then takeFreeBlock g d
  else .ok (-1, d)

/-- `CheckFreeBlock`. -/
def checkFreeBlock (d : Device) : Int :=
  if (g.leastFreeBlocksInFBL : Int) < d.blocksInFreeBlockList then d.freeBlockListHead else -1

/-- `PutFreeBlock`. -/
def putFreeBlock (d : Device) (blockID : Int) : Device :=
  { d with
    freeBlockList := Function.update
      (Function.update d.freeBlockList d.freeBlockListTail blockID) blockID fblPointToNull
    freeBlockListTail := blockID
    blocksInFreeBlockList := d.blocksInFreeBlockList + 1
    blocksInFreeBlockListArray := Function.update d.blocksInFreeBlockListArray
      (blockID / g.blocksPerChip) (d.blocksInFreeBlockListArray (blockID / g.blocksPerChip) + 1) }

/-- `FlashMemory[block][page] = content`. -/
def setPage (flashMemory : Int → Int → Int) (block page content : Int) : Int → Int → Int :=
  Function.update flashMemory block (Function.update (flashMemory block) page content)

/-- `ValidPageCnt[block] += n`. -/
def addValid (d : Device) (block n : Int) : Device :=
  { d with validPageCnt := Function.update d.validPageCnt block (d.validPageCnt block + n) }

/-- `FlashMemory[block][page] = INVALID_PAGE`, counted in `InvalidPageCnt`. -/
def markInvalid (d : Device) (block page : Int) : Device :=
  { d with
    flashMemory := setPage d.flashMemory block page invalidPage
    invalidPageCnt := Function.update d.invalidPageCnt block (d.invalidPageCnt block + 1) }

/-- A page of a new block gets a live page: `FlashMemory[block][page] = content`, counted in
`ValidPageCnt`. -/
def programPage (d : Device) (block page content : Int) : Except Fault Device :=
  if block < 0 ∨ g.maxBlock ≤ block then .error .badIndex
  else .ok (addValid { d with flashMemory := setPage d.flashMemory block page content } block 1)

/-- Page `i` of `block` is copied to page `target` of the new block and counts as invalid. -/
def copyPage (d : Device) (freeBlock target block i : Int) : Except Fault Device := do
  let d ← programPage g d freeBlock target (d.flashMemory block i)
  let d := addValid d block (-1)
  .ok { d with
    invalidPageCnt := Function.update d.invalidPageCnt block (d.invalidPageCnt block + 1) }

/-- A reclaimed block is clean and one erase older. -/
def eraseBlock (d : Device) (block : Int) : Device :=
  let eraseCnt := d.blockEraseCnt block + 1
  { d with
    invalidPageCnt := Function.update d.invalidPageCnt block 0
    validPageCnt := Function.update d.validPageCnt block 0
    flashMemory := Function.update d.flashMemory block fun p =>
      if 0 ≤ p ∧ p < g.maxPage then freePage else d.flashMemory block p
    blockEraseCnt := Function.update d.blockEraseCnt block eraseCnt
    maxBlockEraseCnt := if d.maxBlockEraseCnt < eraseCnt then eraseCnt else d.maxBlockEraseCnt }

/-- Every outcome of the `rand()` calls of `InitializeFlashMemory`, and of its `malloc`. -/
structure Draws where
  /-- The draw that selects the exchange partner of position `i - 1`. -/
  selectedItem : Nat → Nat
  /-- Whether the draw for position `i` falls below the bad-block threshold. -/
  isBad : Nat → Bool
  /-- What `FreeBlockList` holds before it is written. -/
  uninitialised : Int → Int

/-- `RandomFreeBlockOrder` after the exchanges for `i` from `n` down to 1. -/
def Draws.shuffle (draws : Draws) : Nat → Equiv.Perm Nat
  | 0 => Equiv.refl Nat
  | i + 1 => (draws.shuffle i).trans (Equiv.swap (draws.selectedItem (i + 1) % (i + 1)) i)

/-- `RandomFreeBlockOrder`, as a list. -/
def Draws.order (draws : Draws) : List Int :=
  (List.range g.maxBlock).map fun i => (draws.shuffle g.maxBlock i : Int)

/-- Mark the block at position `i` of the order as bad, if its draw says so. -/
def markBad (draws : Draws) (d : Device) (i : Nat) : Device :=
  if draws.isBad i then
    { d with
      flashMemory := setPage d.flashMemory (draws.shuffle g.maxBlock i) 0 badBlock
      badBlockCnt := d.badBlockCnt + 1 }
  else d

/-- Link the free block `current` to the next block that is not bad, and so on to the
end of the order; the last free block gets the null link and becomes the tail. -/
def linkFreeBlocks (flashMemory : Int → Int → Int) (d : Device) (current : Int) :
    List Int → Device
  | [] => { d with
      freeBlockList := Function.update d.freeBlockList current fblPointToNull
      freeBlockListTail := current }
  | b :: rest =>
    if flashMemory b 0 = badBlock then linkFreeBlocks flashMemory d current rest
    else linkFreeBlocks flashMemory
      { d with freeBlockList := Function.update d.freeBlockList current b } b rest

/-- The arrays as `malloc` and `memset` leave them. -/
def blankDevice (draws : Draws) : Device where
  flashMemory _ _ := freePage
  freeBlockList := draws.uninitialised
  freeBlockListHead := 0
  freeBlockListTail := 0
  blocksInFreeBlockList := 0
  blocksInFreeBlockListArray _ := g.blocksPerChip
  badBlockCnt := 0
  blockEraseCnt _ := 0
  maxBlockEraseCnt := 0
  invalidPageCnt _ := 0
  validPageCnt _ := 0
  freePageCnt _ := 0
  invalidSubPageCnt _ := 0
  validSubPageCnt _ := 0
  freeSubPageCnt _ := 0
  accessedLogicalPages := 0
  accessedLogicalPageMap _ := false

/-- `InitializeFlashMemory`. The first and the last block of the order stay good. -/
def initializeFlashMemory (draws : Draws) : Device :=
  let d := (List.range' 1 (g.maxBlock - 2)).foldl (markBad g draws) (blankDevice g draws)
  let order := draws.order g
  let head := order.headD 0
  let d := linkFreeBlocks d.flashMemory { d with freeBlockListHead := head } head order.tail
  { d with blocksInFreeBlockList := g.maxBlock - d.badBlockCnt }

/-- `MaxLBA`: the sectors outside the reserve and the bad blocks. -/
def maxLBA (badBlockCnt : Nat) : Int :=
  (g.flashSize * 1024 - (g.leastFreeBlocksInFBL + badBlockCnt) * g.blockSize) * (1024 / lbaSize)

/-- The sectors of the device are an `int`. -/
theorem maxLBA_lt (bad : Nat) : maxLBA g bad < 2 ^ 31 := by
  have hsectors : maxLBA g bad = (g.flashSize * 1024 : Nat) * 2 -
      (((g.leastFreeBlocksInFBL + bad) * g.blockSize : Nat) : Int) * 2 := by
    rw [← Int.sub_mul]
    unfold maxLBA
    push_cast
    rfl
  have hbound := g.sectors_lt
  have hsize : g.flashSize = g.chipNumber * g.chipSize := rfl
  rw [← hsize] at hbound
  omega

/-- `MaxCluster`. -/
def maxCluster (badBlockCnt : Nat) : Int := (maxLBA g badBlockCnt).tdiv g.pageToLBARatio

end WiscKey.Flash
