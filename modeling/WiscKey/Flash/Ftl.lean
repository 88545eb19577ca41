import WiscKey.Flash.Device

/-!
# The page-level translation layer

A table maps every stored cluster to a block and a page. Writes go to the next
page of the current block; a full block is replaced from the free list, and a
list at its reserve starts the garbage collector, which copies the live pages of
a victim to the current block and erases it.
-/

namespace WiscKey.Flash

/-- An entry of the translation table (`FTLElement_t`). -/
structure FTLElement where
  block : Int
  page : Int
  deriving DecidableEq, Repr

/-- The device with the translation layer's own variables. -/
structure Ftl where
  dev : Device
  ftlTable : Int → FTLElement
  currentFreeBlockID : Int
  currentFreePageID : Int
  /-- The two static variables of `FTLGarbageCollection`. -/
  currentScanningBlockID : Int
  invalidPage2ValidPageDivider : Int

variable (g : Geometry)

/-- `FTLReadOneCluster`. -/
def ftlReadOneCluster (s : Ftl) (clusterID : Int) : Bool :=
  (s.ftlTable clusterID).block ≠ ftlPointToNull

/-- The first half of `FTLWriteOneCluster`: an update invalidates the old page. -/
def ftlInvalidate (s : Ftl) (clusterID : Int) : Ftl :=
  let e := s.ftlTable clusterID
  if e.block ≠ ftlPointToNull then
    { s with dev := { s.dev with
      flashMemory := setPage s.dev.flashMemory e.block e.page invalidPage
      invalidPageCnt :=
        Function.update s.dev.invalidPageCnt e.block (s.dev.invalidPageCnt e.block + 1)
      validPageCnt := Function.update s.dev.validPageCnt e.block (s.dev.validPageCnt e.block - 1) } }
  else s

/-- The second half of `FTLWriteOneCluster`: the cluster goes to the current page. -/
def ftlProgram (s : Ftl) (clusterID : Int) : Ftl :=
  let block := s.currentFreeBlockID
  let page := s.currentFreePageID
  { s with
    ftlTable := Function.update s.ftlTable clusterID ⟨block, page⟩
    dev := { s.dev with
      flashMemory := setPage s.dev.flashMemory block page clusterID
      validPageCnt := Function.update s.dev.validPageCnt block (s.dev.validPageCnt block + 1) }
    currentFreePageID := page + 1 }

/-- `FTLWriteOneCluster`: it stores to the current block, which must be one. -/
def ftlWriteOneCluster (s : Ftl) (clusterID : Int) : Except Fault Ftl :=
  if s.currentFreeBlockID < 0 ∨ g.maxBlock ≤ s.currentFreeBlockID then .error .badIndex
  else .ok (ftlProgram (ftlInvalidate s clusterID) clusterID)

/-- `if (CurrentFreePageID >= MaxPage)` get a free block, as `FTLEraseOneBlock` does it:
without a look at the block number it gets. -/
def replaceFullBlock (s : Ftl) : Except Fault Ftl :=
  if g.maxPage ≤ s.currentFreePageID then do
    let (block, dev) ← getFreeBlock g false s.dev
    .ok { s with dev, currentFreeBlockID := block, currentFreePageID := 0 }
  else .ok s

/-- One round of the copying loop of `FTLEraseOneBlock`. -/
def copyLivePage (blockID : Int) (s : Ftl) (i : Nat) : Except Fault Ftl := do
  let s ← replaceFullBlock g s
  let content := s.dev.flashMemory blockID i
  if content ≠ invalidPage ∧ content ≠ freePage then ftlWriteOneCluster g s content else .ok s

/-- The end of `FTLEraseOneBlock`: the block is clean and one erase older. -/
def cleanBlock (s : Ftl) (blockID : Int) : Ftl :=
  let eraseCnt := s.dev.blockEraseCnt blockID + 1
  { s with dev := { s.dev with
    invalidPageCnt := Function.update s.dev.invalidPageCnt blockID 0
    validPageCnt := Function.update s.dev.validPageCnt blockID 0
    flashMemory := Function.update s.dev.flashMemory blockID fun p =>
      if 0 ≤ p ∧ p < g.maxPage then freePage else s.dev.flashMemory blockID p
    blockEraseCnt := Function.update s.dev.blockEraseCnt blockID eraseCnt
    maxBlockEraseCnt :=
      if s.dev.maxBlockEraseCnt < eraseCnt then eraseCnt else s.dev.maxBlockEraseCnt } }

/-- `FTLEraseOneBlock`: the block is on the free list while its pages are copied. -/
def ftlEraseOneBlock (s : Ftl) (blockID : Int) : Except Fault Ftl := do
  let s := { s with dev := putFreeBlock g s.dev blockID }
  let s ← (List.range g.maxPage).foldlM (copyLivePage g blockID) s
  let s ← replaceFullBlock g s
  .ok (cleanBlock g s blockID)

/-- The collector's test of the block it is scanning. -/
def isVictim (s : Ftl) : Bool :=
  let b := s.currentScanningBlockID
  (s.dev.validPageCnt b).tdiv s.invalidPage2ValidPageDivider < s.dev.invalidPageCnt b &&
    s.dev.freeBlockList b == fblNotInList && b != s.currentFreeBlockID

/-- The scan of `FTLGarbageCollection` over the next `n` blocks, and whether it found one. -/
def findVictim (s : Ftl) : Nat → Except Fault (Bool × Ftl)
  | 0 => .ok (false, s)
  | n + 1 =>
    let s := { s with currentScanningBlockID := (s.currentScanningBlockID + 1).tmod g.maxBlock }
    if s.invalidPage2ValidPageDivider = 0 then .error .divByZero
    else if isVictim s then .ok (true, s)
    else findVictim s n

/-- `InvalidPage2ValidPageDivider *= 2` on a 32-bit `int`. -/
def doubleDivider (s : Ftl) : Ftl :=
  { s with invalidPage2ValidPageDivider := (2 * s.invalidPage2ValidPageDivider).bmod (2 ^ 32) }

/-- `FTLGarbageCollection`, granted `fuel` rounds of its loop. -/
def ftlGarbageCollection : Nat → Ftl → Except Fault Ftl
  | 0, _ => .error .outOfFuel
  | fuel + 1, s =>
    if checkFreeBlock g s.dev ≠ -1 then .ok s
    else do
      let (found, s) ← findVictim g s g.maxBlock
      if found then
        let s ← ftlEraseOneBlock g s s.currentScanningBlockID
        ftlGarbageCollection fuel s
      else ftlGarbageCollection fuel (doubleDivider s)

/-- The loop `while (CurrentFreePageID >= MaxPage)` before and after a write. -/
def ensureFreePage : Nat → Ftl → Except Fault Ftl
  | 0, _ => .error .outOfFuel
  | fuel + 1, s =>
    if g.maxPage ≤ s.currentFreePageID then do
      let (block, dev) ← getFreeBlock g false s.dev
      let s := { s with dev, currentFreeBlockID := block }
      if block = -1 then
        let s ← ftlGarbageCollection g fuel s
        ensureFreePage fuel s
      else ensureFreePage fuel { s with currentFreePageID := 0 }
    else .ok s

/-- `SecureFTLWriteOneCluster`, with `fuel` rounds for each of its loops. -/
def secureFTLWriteOneCluster (fuel : Nat) (s : Ftl) (clusterID : Int) : Except Fault Ftl := do
  let s ← ensureFreePage g fuel s
  let s ← ftlWriteOneCluster g s clusterID
  ensureFreePage g fuel s

/-- The clusters `InitializeFTL` writes: all those of each block index whose draw selects it. -/
def initialClusters (badBlockCnt : Nat) (selected : Nat → Bool) : List Int :=
  ((List.range (g.maxBlock - g.leastFreeBlocksInFBL - badBlockCnt)).filter selected).flatMap
    fun i : Nat => (List.range g.maxPage).map fun j : Nat => ((i * g.maxPage + j : Nat) : Int)

/-- `InitializeFTL` up to its writes: an empty table and a first current block. -/
def openFTL (dev : Device) : Except Fault Ftl := do
  let (block, dev) ← getFreeBlock g false dev
  .ok {
    dev
    ftlTable := fun _ => ⟨ftlPointToNull, ftlPointToNull⟩
    currentFreeBlockID := block
    currentFreePageID := 0
    currentScanningBlockID := -1
    invalidPage2ValidPageDivider := 1 }

/-- A cluster that `InitializeFTL` has written counts as accessed. -/
def markAccessed (s : Ftl) (clusterID : Int) : Ftl :=
  { s with dev := { s.dev with
    accessedLogicalPages := s.dev.accessedLogicalPages + 1
    accessedLogicalPageMap := Function.update s.dev.accessedLogicalPageMap clusterID true } }

/-- `InitializeFTL`, for every outcome `selected` of its draws. -/
def initializeFTL (fuel : Nat) (selected : Nat → Bool) (dev : Device) : Except Fault Ftl := do
  let s ← openFTL g dev
  (initialClusters g dev.badBlockCnt selected).foldlM
    (fun s c => do
      let s ← secureFTLWriteOneCluster g fuel s c
      .ok (markAccessed s c)) s

end WiscKey.Flash
