import WiscKey.Flash.FtlRun
import WiscKey.Flash.LruList

/-!
# The demand-based translation layer

DFTL maps every cluster to a page of its own, keeps some blocks for the mapping table itself,
and remembers for each cluster its place in the LRU list of the cached mappings. A collection
copies the live pages of its victim to the current data block, which it replaces from the
reserve when it is full.
-/

namespace WiscKey.Flash

/-- `DFTL_POINT_TO_NULL`. -/
def dftlPointToNull : Int := -1

/-- `VALID_PAGE`: what the pages of the translation blocks hold. -/
def validPage : Int := -4

/-- `DFTLElement_t`. -/
structure DFTLElement where
  block : Int
  page : Int
  lruOffset : Int
  deriving DecidableEq, Repr

/-- `GTDElement_t`. -/
structure GTDElement where
  mvpn : Int
  mppn : Int
  deriving DecidableEq, Repr

/-- `TIME_READ_PAGE`, `TIME_WRITE_PAGE` and `TIME_ERASE_BLOCK`. -/
structure Timing where
  timeReadPage : Int
  timeWritePage : Int
  timeEraseBlock : Int

/-- What the layer counts in `AccessStatistics`. -/
structure AccessStatistics where
  totalReadRequestTime : Int
  totalReadPageCount : Int
  totalWriteRequestTime : Int
  totalWritePageCount : Int
  totalLivePageCopyings : Int
  totalBlockEraseCount : Int
  deriving DecidableEq, Repr

/-- The device with the translation layer's own variables. -/
structure Dftl where
  dev : Device
  dftlTable : Int → DFTLElement
  currentDataBlkNum : Int
  dataBlkCount : Int
  currentDataBlkPageNum : Int
  cmtLRUList : LRUListD
  gtd : Nat → GTDElement
  hitCnt : Nat
  missCnt : Nat
  accessStatistics : AccessStatistics

variable (g : Geometry) (t : Timing)

/-- The new block that `AllocateDataBlk` got. -/
def useDataBlk (s : Dftl) (newBlockNum : Int) : Dftl :=
  { s with
    currentDataBlkNum := newBlockNum
    dataBlkCount := s.dataBlkCount + 1
    currentDataBlkPageNum := 0 }

/-- There are pages left in the current block. -/
def hasDataPage (s : Dftl) : Prop :=
  s.currentDataBlkPageNum < g.maxPage ∧ s.currentDataBlkNum ≠ dftlPointToNull

instance (s : Dftl) : Decidable (hasDataPage g s) :=
  inferInstanceAs (Decidable (_ ∧ _))

/-- `AllocateDataBlk(True)`. `GetFreeBlock(True)` never returns -1, so its loop goes round once
and does not collect. -/
def allocateDataBlkInGc (s : Dftl) : Except Fault Dftl :=
  if hasDataPage g s then .ok s
  else do
    let (newBlockNum, dev) ← getFreeBlock g true s.dev
    .ok (useDataBlk { s with dev } newBlockNum)

/-- The cluster goes to the current page of the current block, in the table, on the flash and in
the counters. -/
def dftlProgram (s : Dftl) (clusterID : Int) : Except Fault Dftl := do
  let block := s.currentDataBlkNum
  let page := s.currentDataBlkPageNum
  let dev ← programPage g s.dev block page clusterID
  .ok { s with
    dev := { dev with
      freePageCnt := Function.update dev.freePageCnt block (dev.freePageCnt block - 1) }
    dftlTable := Function.update s.dftlTable clusterID
      { s.dftlTable clusterID with block := block, page := page }
    currentDataBlkPageNum := page + 1 }

/-- `DFTLTable[clusterID].LruOffset = lruOffset`. -/
def setLruOffset (s : Dftl) (clusterID lruOffset : Int) : Dftl :=
  { s with
    dftlTable := Function.update s.dftlTable clusterID
      { s.dftlTable clusterID with lruOffset := lruOffset } }

/-- The copied cluster is looked for in the list at `lruPos`, which is -1 there: the memory in
front of the array of elements. -/
def dropFromList (s : Dftl) (clusterID : Int) : Dftl :=
  if (s.dftlTable clusterID).lruOffset ≠ dftlPointToNull then
    { s with cmtLRUList := s.cmtLRUList.removeElemenetFromLRUListD clusterID (-1) }
  else s

/-- `if (currentDataBlkPageNum >= MaxPage) AllocateDataBlk(True)`. -/
def replaceFullDataBlkInGc (s : Dftl) : Except Fault Dftl :=
  if g.maxPage ≤ s.currentDataBlkPageNum then allocateDataBlkInGc g s else .ok s

/-- One round of the copying loop of `DFTLEraseOneBlock`. -/
def dftlCopyPage (blockID : Int) (s : Dftl) (i : Nat) : Except Fault Dftl := do
  let s ← replaceFullDataBlkInGc g s
  let content := s.dev.flashMemory blockID i
  if content ≠ invalidPage ∧ content ≠ freePage then do
    let s ← dftlProgram g (dropFromList s content) content
    .ok { s with accessStatistics := { s.accessStatistics with
      totalLivePageCopyings := s.accessStatistics.totalLivePageCopyings + 1
      totalWriteRequestTime :=
        s.accessStatistics.totalWriteRequestTime + (t.timeReadPage + t.timeWritePage) } }
  else .ok s

/-- The end of `DFTLEraseOneBlock`: the block is clean and goes to the free list. -/
def dftlCleanBlock (s : Dftl) (blockID : Int) : Dftl :=
  let dev := eraseBlock g s.dev blockID
  let dev := { dev with freePageCnt := Function.update dev.freePageCnt blockID g.maxPage }
  { s with
    dev := putFreeBlock g dev blockID
    accessStatistics := { s.accessStatistics with
      totalBlockEraseCount := s.accessStatistics.totalBlockEraseCount + 1
      totalWriteRequestTime := s.accessStatistics.totalWriteRequestTime + t.timeEraseBlock } }

/-- `DFTLEraseOneBlock`. -/
def dftlEraseOneBlock (s : Dftl) (blockID : Int) : Except Fault Dftl := do
  let s ← (List.range g.maxPage).foldlM (dftlCopyPage g t blockID) s
  .ok (dftlCleanBlock g t s blockID)

/-- The scan of `DFTLGarbageCollection` over the `n` blocks from `b` on: the largest number of
invalid pages so far and its block. -/
def dftlFindVictim (d : Device) : Nat → Int → Int × Int → Int × Int
  | 0, _, best => best
  | n + 1, b, best =>
    if d.flashMemory b 0 ≠ freePage ∧ d.flashMemory b 0 ≠ badBlock then
      if d.invalidPageCnt b = g.maxPage then (d.invalidPageCnt b, b)
      else if best.1 < d.invalidPageCnt b then dftlFindVictim d n (b + 1) (d.invalidPageCnt b, b)
      else dftlFindVictim d n (b + 1) best
    else dftlFindVictim d n (b + 1) best

/-- `DFTLGarbageCollection`, granted `fuel` rounds of its loop. -/
def dftlGarbageCollection : Nat → Dftl → Except Fault Dftl
  | 0, _ => .error .outOfFuel
  | fuel + 1, s =>
    if checkFreeBlock g s.dev ≠ -1 then .ok s
    else
      let blockWithMaxInvalidCnt := (dftlFindVictim g s.dev g.maxBlock 0 (0, -1)).2
      if blockWithMaxInvalidCnt = -1 then .error .exit
      else do
        let s ← dftlEraseOneBlock g t s blockWithMaxInvalidCnt
        dftlGarbageCollection fuel s

/-- The loop of `AllocateDataBlk(False)`. -/
def getDataBlk : Nat → Dftl → Except Fault Dftl
  | 0, _ => .error .outOfFuel
  | fuel + 1, s => do
    let (newBlockNum, dev) ← getFreeBlock g false s.dev
    let s := { s with dev }
    if newBlockNum = -1 then do
      let s ← dftlGarbageCollection g t fuel s
      getDataBlk fuel s
    else .ok (useDataBlk s newBlockNum)

/-- `AllocateDataBlk(False)`. -/
def allocateDataBlk (fuel : Nat) (s : Dftl) : Except Fault Dftl :=
  if hasDataPage g s then .ok s else getDataBlk g t fuel s

/-- A cached mapping moves to the head of the list. -/
def fetchMapping (s : Dftl) (clusterID : Int) : Dftl :=
  let list := s.cmtLRUList.moveElemenetToTheHeadofLRUListD clusterID
    (s.dftlTable clusterID).lruOffset
  { s with cmtLRUList := list }

/-- A mapping is put into the list: its position, and the time that the eviction took. -/
def insertMapping (fuel : Nat) (s : Dftl) (clusterID totalRequestTime : Int) :
    Except Fault (Int × Dftl × Int) :=
  match s.cmtLRUList.putElemenetToLRUListD t.timeWritePage clusterID fuel totalRequestTime with
  | none => .error .outOfFuel
  | some (lruPos, list, totalRequestTime) =>
    .ok (lruPos, { s with cmtLRUList := list }, totalRequestTime)

/-- `SetElementDirtyD` on the list of the layer. -/
def setMappingDirty (s : Dftl) (clusterID lruPos : Int) : Dftl :=
  { s with cmtLRUList := s.cmtLRUList.setElementDirtyD clusterID lruPos }

/-- The page of a cluster that is written again counts as invalid. -/
def invalidateMapped (s : Dftl) (clusterID : Int) : Dftl :=
  let e := s.dftlTable clusterID
  { s with dev := markInvalid s.dev e.block e.page }

/-- `DFTLReadOneCluster`. -/
def dftlReadOneCluster (fuel : Nat) (s : Dftl) (clusterID : Int) : Except Fault (Bool × Dftl) :=
  let e := s.dftlTable clusterID
  let count (s : Dftl) : Dftl := { s with accessStatistics := { s.accessStatistics with
    totalReadRequestTime := s.accessStatistics.totalReadRequestTime + t.timeReadPage
    totalReadPageCount := s.accessStatistics.totalReadPageCount + 1 } }
  if e.lruOffset ≠ dftlPointToNull then
    let s := fetchMapping s clusterID
    let s := setLruOffset s clusterID s.cmtLRUList.head
    .ok (true, count { s with hitCnt := s.hitCnt + 1 })
  else if e.block ≠ dftlPointToNull then do
    let (lruPos, s, time) ←
      insertMapping t fuel s clusterID s.accessStatistics.totalReadRequestTime
    let s := setLruOffset s clusterID lruPos
    .ok (true, count { s with
      missCnt := s.missCnt + 1
      accessStatistics := { s.accessStatistics with
        totalReadRequestTime := time + t.timeReadPage * 2 } })
  else .ok (false, s)

/-- The part of `DFTLWriteOneCluster` that brings the mapping into the list and invalidates the
old page. -/
def cacheForWrite (fuel : Nat) (s : Dftl) (clusterID : Int) : Except Fault Dftl :=
  let e := s.dftlTable clusterID
  if e.lruOffset ≠ dftlPointToNull then
    let s := fetchMapping s clusterID
    let s := setMappingDirty s clusterID e.lruOffset
    let s := invalidateMapped s clusterID
    let s := setLruOffset s clusterID s.cmtLRUList.head
    .ok { s with hitCnt := s.hitCnt + 1 }
  else do
    let (lruPos, s, time) ←
      insertMapping t fuel s clusterID s.accessStatistics.totalWriteRequestTime
    let s := setMappingDirty s clusterID lruPos
    if e.block ≠ dftlPointToNull then
      let s := invalidateMapped s clusterID
      let s := setLruOffset s clusterID lruPos
      .ok { s with
        missCnt := s.missCnt + 1
        accessStatistics := { s.accessStatistics with
          totalWriteRequestTime := time + t.timeReadPage * 2 } }
    else
      let s := setLruOffset s clusterID lruPos
      .ok { s with accessStatistics := { s.accessStatistics with totalWriteRequestTime := time } }

/-- `if (currentDataBlkPageNum >= MaxPage) AllocateDataBlk(False)`. -/
def replaceFullDataBlk (fuel : Nat) (s : Dftl) : Except Fault Dftl :=
  if g.maxPage ≤ s.currentDataBlkPageNum then allocateDataBlk g t fuel s else .ok s

/-- `DFTLWriteOneCluster`. -/
def dftlWriteOneCluster (fuel : Nat) (s : Dftl) (clusterID : Int) : Except Fault Dftl := do
  let s ← replaceFullDataBlk g t fuel s
  let s ← cacheForWrite t fuel s clusterID
  let s ← dftlProgram g s clusterID
  .ok { s with accessStatistics := { s.accessStatistics with
    totalWriteRequestTime := s.accessStatistics.totalWriteRequestTime + t.timeWritePage
    totalWritePageCount := s.accessStatistics.totalWritePageCount + 1 } }

section Initialisation

/-- `SramSizeLimitD`, on a 32-bit `int`. -/
def sramSizeLimitD (sramSize : Int) : Int := (sramSize * 1024 * 1024).bmod (2 ^ 32)

/-- `DFTLTableSize`, computed on 32-bit `int`s. -/
def dftlTableSize : Int :=
  ((g.flashSize * 1024 : Int) / (g.pageSize / 1024 : Int) * 8).bmod (2 ^ 32)

/-- `gmtBlkCount`: the table's size in blocks, rounded up. -/
def gmtBlkCount : Int := -(-dftlTableSize g / (g.blockSize * 1024))

/-- The lengths `cmtListLength` and `gtdListLength`. -/
def listLengths (sramSize : Int) : Int × Int :=
  let limit := sramSizeLimitD sramSize
  let cmtListLength := (limit.tdiv 2).tdiv 8
  let gtdListLength := (limit.tdiv 2).tdiv 8
  if gmtBlkCount g < gtdListLength then
    ((limit - 8 * gmtBlkCount g).tdiv 8, gmtBlkCount g)
  else (cmtListLength, gtdListLength)

/-- The state of `InitializeDFTL` before it allocates blocks, over what `malloc` finds where it
puts the list. -/
def openDftl (sramSize : Int) (memory : Int → LRUElementD) (dev : Device) : Dftl where
  dev := dev
  dftlTable _ := ⟨dftlPointToNull, dftlPointToNull, dftlPointToNull⟩
  currentDataBlkNum := dftlPointToNull
  dataBlkCount := 0
  currentDataBlkPageNum := 0
  cmtLRUList := createLRUListD memory (listLengths g sramSize).1
  gtd j := ⟨j, -1⟩
  hitCnt := 0
  missCnt := 0
  accessStatistics := ⟨0, 0, 0, 0, 0, 0⟩

/-- One round of the loop that allocates the translation blocks. -/
def allocateTranslationBlk (s : Dftl) (j : Nat) : Except Fault Dftl := do
  let (blkNum, dev) ← getFreeBlock g false s.dev
  if blkNum < 0 then .error .badIndex
  else .ok { s with
    dev := { dev with
      flashMemory := Function.update dev.flashMemory blkNum fun p =>
        if 0 ≤ p ∧ p < g.maxPage then validPage else dev.flashMemory blkNum p }
    gtd := Function.update s.gtd j { s.gtd j with mppn := blkNum } }

/-- The rounds of that loop, a `do` loop. -/
def translationBlkCount : Nat := (max (gmtBlkCount g) 1).toNat

/-- The translation blocks, as `GTD` has them. -/
def translationBlks (s : Dftl) : List Int :=
  (List.range (translationBlkCount g)).map fun j => (s.gtd j).mppn

/-- `InitializeDFTL`, on the device of `InitializeFlashMemory`. A negative length is more than
`malloc` can give, and `CreateLRUListD` stores through what it gets. -/
def initializeDFTL (fuel : Nat) (sramSize : Int) (memory : Int → LRUElementD) (dev : Device) :
    Except Fault Dftl :=
  if g.pageSize / 1024 = 0 then .error .divByZero
  else if (listLengths g sramSize).1 < 0 then .error .badPointer
  else if dev.blocksInFreeBlockList - (gmtBlkCount g + g.leastFreeBlocksInFBL) < 0 then
    .error .exit
  else do
    let s ← (List.range (translationBlkCount g)).foldlM (allocateTranslationBlk g)
      (openDftl g sramSize memory dev)
    allocateDataBlk g t fuel s

end Initialisation

/-- A call from outside. -/
inductive DftlCall
  | write (clusterID : Int)
  | read (clusterID : Int)
  deriving DecidableEq, Repr

/-- The cluster of a call. -/
def DftlCall.clusterID : DftlCall → Int
  | write c => c
  | read c => c

/-- The call returns, with enough steps for its loops. -/
def DftlReturns (s : Dftl) (call : DftlCall) (s' : Dftl) : Prop :=
  match call with
  | .write c => ∃ fuel, dftlWriteOneCluster g t fuel s c = .ok s'
  | .read c => ∃ fuel found, dftlReadOneCluster t fuel s c = .ok (found, s')

/-- Returning calls, one after the other. -/
abbrev DftlRun : Dftl → List DftlCall → Dftl → Prop := Run (DftlReturns g t)

/-- `InitializeFlashMemory` and `InitializeDFTL` return, in the state `s`. -/
def DftlInitialised (draws : Draws) (sramSize : Int) (memory : Int → LRUElementD) (s : Dftl) :
    Prop :=
  ∃ fuel, initializeDFTL g t fuel sramSize memory (initializeFlashMemory g draws) = .ok s

end WiscKey.Flash
