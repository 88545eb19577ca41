import WiscKey.Flash.ChipList
import WiscKey.Flash.LruList
import WiscKey.Library.BubblePass

/-!
# The striping translation layer

Clusters are written to all chips at once, one page of each chip's current block. The static
method fixes the chip of a cluster, the dynamic one places hot clusters on the chips with the
fewest erases and cold ones on those with the most. A chip without free blocks starts its
collector, whose erase copies live pages with the same writes and may so start it again.
-/

namespace WiscKey.Flash

/-- `STRIPE_POINT_TO_NULL`. -/
def stripePointToNull : Int := -1

/-- `NO_CLUSTER_CACHED`. -/
def noClusterCached : Int := -1

/-- `HOTLIST_LENGTH`. -/
def hotListLength : Int := 8

/-- `CANDIDATELIST_LENGTH`. -/
def candidateListLength : Int := 16

/-- The two values of `FTLMethod` that start this layer. -/
inductive StripeMethod
  | stripeStatic
  | stripeDynamic
  deriving DecidableEq, Repr

/-- `DataType_t`. -/
inductive DataType
  | hotData
  | coldData
  deriving DecidableEq, Repr

/-- `StripeElement_t`: where a cluster is stored. -/
structure StripeElement where
  chip : Int
  block : Int
  page : Int
  deriving DecidableEq, Repr

/-- `StripeFreeBlockElement_t`: a current block and its next page. -/
structure StripeFreeBlockElement where
  block : Int
  page : Int
  deriving DecidableEq, Repr

/-- The device with the variables of the striping layer. -/
structure Stripe where
  dev : Device
  stripeTable : Int → StripeElement
  currentFreeBlock : Int → StripeFreeBlockElement
  currentFreeBlockForHotData : Int → StripeFreeBlockElement
  cachedClusters : Int → Int
  numCachedClusters : Int
  cachedClustersDataType : Int → DataType
  chipEraseCnt : Int → Int
  sortedOrder : Int → Int
  hotList : LRUList
  candidateList : LRUList
  /-- The two static arrays of `StripeGarbageCollection`. -/
  currentScanningBlockID : Int → Int
  invalidPage2ValidPageDivider : Int → Int
  /-- The blocks whose erases have been counted, in that order. No function reads it. -/
  eraseLog : List Int

variable (g : Geometry) (ftlMethod : StripeMethod)

/-- `Chip*BlocksPerChip+Block`. -/
def StripeElement.blockID (e : StripeElement) : Int := e.chip * g.blocksPerChip + e.block

/-- The current block of a chip for the data. -/
def Stripe.freeBlock (s : Stripe) : DataType → Int → StripeFreeBlockElement
  | .coldData => s.currentFreeBlock
  | .hotData => s.currentFreeBlockForHotData

/-- Another current block, or another page of it. -/
def Stripe.setFreeBlock (s : Stripe) (data : DataType) (chip : Int) (e : StripeFreeBlockElement) :
    Stripe :=
  match data with
  | .coldData => { s with currentFreeBlock := Function.update s.currentFreeBlock chip e }
  | .hotData =>
    { s with currentFreeBlockForHotData := Function.update s.currentFreeBlockForHotData chip e }

/-- `CLEAR_CACHEDCLUSTERS`. -/
def clearCachedClusters (s : Stripe) : Stripe :=
  { s with
    cachedClusters := fun i =>
      if 0 ≤ i ∧ i < g.chipNumber then noClusterCached else s.cachedClusters i
    numCachedClusters := 0 }

/-- An update invalidates the old page of its cluster. -/
def stripeInvalidate (s : Stripe) (cluster : Int) : Stripe :=
  let e := s.stripeTable cluster
  if e.chip ≠ stripePointToNull then
    { s with dev := addValid (markInvalid s.dev (e.blockID g) e.page) (e.blockID g) (-1) }
  else s

/-- The cluster goes to the next page of a current block. -/
def storeCluster (data : DataType) (chip cluster : Int) (s : Stripe) : Except Fault Stripe :=
  let free := s.freeBlock data chip
  if free.block < 0 ∨ g.maxBlock ≤ free.block then .error .badIndex
  else
    let e : StripeElement :=
      ⟨free.block / g.blocksPerChip, free.block % g.blocksPerChip, free.page⟩
    let dev := addValid s.dev free.block 1
    let s := { s with
      stripeTable := Function.update s.stripeTable cluster e
      dev := { dev with flashMemory := setPage dev.flashMemory (e.blockID g) e.page cluster } }
    .ok (s.setFreeBlock data chip { free with page := free.page + 1 })

/-- One round of `StripeWriteOneClusterSet`. -/
def writeCachedCluster (s : Stripe) (i : Nat) : Except Fault Stripe :=
  let cluster := s.cachedClusters i
  if cluster = noClusterCached then .ok s
  else if cluster < 0 ∨ maxCluster g s.dev.badBlockCnt ≤ cluster then .error .badIndex
  else
    let s := stripeInvalidate g s cluster
    match ftlMethod with
    | .stripeStatic => storeCluster g .coldData (cluster.tmod g.chipNumber) cluster s
    | .stripeDynamic => storeCluster g (s.cachedClustersDataType i) i cluster s

/-- `StripeWriteOneClusterSet`. -/
def stripeWriteOneClusterSet (s : Stripe) : Except Fault Stripe :=
  (List.range g.chipNumber).foldlM (writeCachedCluster g ftlMethod) s

/-- `CheckFreeBlockFromChip`. -/
def checkFreeBlockFromChip (chip : Int) (d : Device) : Int :=
  if ((g.leastFreeBlocksInFBL / g.chipNumber : Nat) : Int) < d.blocksInFreeBlockListArray chip then
    d.freeBlockListHead
  else -1

/-- The collector's test of the block of the chip that it is scanning. -/
def stripeIsVictim (chip : Int) (s : Stripe) : Bool :=
  let block := chip * g.blocksPerChip + s.currentScanningBlockID chip
  (s.dev.validPageCnt block).tdiv (s.invalidPage2ValidPageDivider chip) <
      s.dev.invalidPageCnt block &&
    s.dev.freeBlockList block == fblNotInList && block.tdiv g.blocksPerChip == chip &&
    block != (s.currentFreeBlock chip).block &&
    (ftlMethod == .stripeStatic || block != (s.currentFreeBlockForHotData chip).block)

/-- The scan of `StripeGarbageCollection` over the next `n` blocks of the chip, and whether it
found one. -/
def stripeFindVictim (chip : Int) (s : Stripe) : Nat → Except Fault (Bool × Stripe)
  | 0 => .ok (false, s)
  | n + 1 =>
    let scanning := (s.currentScanningBlockID chip + 1).tmod g.blocksPerChip
    let s := { s with
      currentScanningBlockID := Function.update s.currentScanningBlockID chip scanning }
    if s.invalidPage2ValidPageDivider chip = 0 then .error .divByZero
    else if stripeIsVictim g ftlMethod chip s then .ok (true, s)
    else stripeFindVictim chip s n

/-- `InvalidPage2ValidPageDivider[chip] *= 2` on a 32-bit `int`. -/
def stripeDoubleDivider (s : Stripe) (chip : Int) : Stripe :=
  let divider := (2 * s.invalidPage2ValidPageDivider chip).bmod (2 ^ 32)
  { s with
    invalidPage2ValidPageDivider :=
      Function.update s.invalidPage2ValidPageDivider chip divider }

/-- `StripeGarbageCollection`, granted `fuel` rounds of its loop; `erase` is
`StripeEraseOneBlock`. -/
def stripeGarbageCollection (erase : Stripe → Int → Except Fault Stripe) (chip : Int) :
    Nat → Stripe → Except Fault Stripe
  | 0, _ => .error .outOfFuel
  | fuel + 1, s =>
    if checkFreeBlockFromChip g chip s.dev ≠ -1 then .ok s
    else do
      let (found, s) ← stripeFindVictim g ftlMethod chip s g.blocksPerChip
      if found then
        let s ← erase s (chip * g.blocksPerChip + s.currentScanningBlockID chip)
        stripeGarbageCollection erase chip fuel s
      else stripeGarbageCollection erase chip fuel (stripeDoubleDivider s chip)

/-- The loop of `EnsureFreeSpaceInFreeBlock` on one chip. -/
def ensureFreePageOfChip (erase : Stripe → Int → Except Fault Stripe) (data : DataType)
    (chip : Int) : Nat → Stripe → Except Fault Stripe
  | 0, _ => .error .outOfFuel
  | fuel + 1, s =>
    if g.maxPage ≤ (s.freeBlock data chip).page then
      if checkFreeBlockFromChip g chip s.dev = -1 then do
        let s ← stripeGarbageCollection g ftlMethod erase chip fuel s
        ensureFreePageOfChip erase data chip fuel s
      else do
        let (block, dev) ← getFreeBlockFromChip g chip s.dev
        ensureFreePageOfChip erase data chip fuel
          (Stripe.setFreeBlock { s with dev } data chip ⟨block, 0⟩)
    else .ok s

/-- `EnsureFreeSpaceInFreeBlock`. -/
def ensureFreeSpaceInFreeBlock (erase : Stripe → Int → Except Fault Stripe) (fuel : Nat)
    (s : Stripe) : Except Fault Stripe := do
  let fill (data : DataType) (s : Stripe) (i : Nat) :=
    ensureFreePageOfChip g ftlMethod erase data i fuel s
  let s ← (List.range g.chipNumber).foldlM (fill .coldData) s
  match ftlMethod with
  | .stripeStatic => .ok s
  | .stripeDynamic => (List.range g.chipNumber).foldlM (fill .hotData) s

/-- `CurrentChipOfHotData` and `CurrentChipOfColdData`: the ranks of the chips that the next
hot and the next cold cluster go to. -/
structure ChipCursor where
  hot : Int
  cold : Int
  deriving DecidableEq, Repr

/-- Hot data start at the chip with the fewest erases, cold data at the one with the most. -/
def resetCursor : ChipCursor := ⟨g.chipNumber - 1, 0⟩

/-- The cluster is cached for the chip of its rank. -/
def cacheCluster (data : DataType) (cluster : Int) (s : Stripe) (cursor : ChipCursor) :
    Stripe × ChipCursor :=
  let chip := s.sortedOrder (match data with
    | .hotData => cursor.hot
    | .coldData => cursor.cold)
  ({ s with
      cachedClusters := Function.update s.cachedClusters chip cluster
      cachedClustersDataType := Function.update s.cachedClustersDataType chip data },
    match data with
    | .hotData => { cursor with hot := cursor.hot - 1 }
    | .coldData => { cursor with cold := cursor.cold + 1 })

/-- Flush the cached clusters: write them, make room and clear the cache. -/
def flushCachedClusters (ensure : Stripe → Except Fault Stripe) (s : Stripe) :
    Except Fault Stripe := do
  let s ← stripeWriteOneClusterSet g ftlMethod s
  let s ← ensure s
  .ok (clearCachedClusters g s)

/-- A flush, when the cache has no room. -/
def flushIf (p : Prop) [Decidable p] (ensure : Stripe → Except Fault Stripe) (s : Stripe) :
    Except Fault Stripe :=
  if p then flushCachedClusters g ftlMethod ensure s else .ok s

/-- The live page `i` of the block is cached, after a flush if there is no room for it. -/
def cacheLivePage (ensure : Stripe → Except Fault Stripe) (blockID : Int) (i : Nat) (s : Stripe)
    (cursor : ChipCursor) : Except Fault (Stripe × ChipCursor) :=
  match ftlMethod with
  | .stripeStatic => do
    let s ← flushIf g ftlMethod
      (s.cachedClusters ((s.dev.flashMemory blockID i).tmod g.chipNumber) ≠ noClusterCached)
      ensure s
    let cluster := s.dev.flashMemory blockID i
    .ok ({ s with
      cachedClusters := Function.update s.cachedClusters (cluster.tmod g.chipNumber) cluster },
      cursor)
  | .stripeDynamic => do
    let cursor := if s.numCachedClusters = g.chipNumber then resetCursor g else cursor
    let s ← flushIf g ftlMethod (s.numCachedClusters = g.chipNumber) ensure s
    let cluster := s.dev.flashMemory blockID i
    let data := if (s.hotList.isElemenetInLRUList cluster).isSome then .hotData else .coldData
    .ok (cacheCluster data cluster s cursor)

/-- One round of the copying loop of `StripeEraseOneBlock`. -/
def stripeCopyLivePage (ensure : Stripe → Except Fault Stripe) (blockID : Int)
    (st : Stripe × ChipCursor) (i : Nat) : Except Fault (Stripe × ChipCursor) :=
  let content := st.1.dev.flashMemory blockID i
  if content ≠ invalidPage ∧ content ≠ freePage then do
    let (s, cursor) ← cacheLivePage g ftlMethod ensure blockID i st.1 st.2
    .ok ({ s with numCachedClusters := s.numCachedClusters + 1 }, cursor)
  else .ok st

/-- The end of `StripeEraseOneBlock`: the block is clean and one erase older, and one pass
over the chips sorts them by their erases. -/
def stripeCleanBlock (s : Stripe) (blockID : Int) : Stripe :=
  let chip := blockID.tmod g.chipNumber
  let chipEraseCnt := Function.update s.chipEraseCnt chip (s.chipEraseCnt chip + 1)
  { s with
    dev := eraseBlock g s.dev blockID
    chipEraseCnt
    sortedOrder := bubblePass chipEraseCnt g.chipNumber s.sortedOrder
    eraseLog := s.eraseLog ++ [blockID] }

/-- The body of `StripeEraseOneBlock`: the block is on the free list while its pages are
copied. -/
def stripeReclaim (ensure : Stripe → Except Fault Stripe) (s : Stripe) (blockID : Int) :
    Except Fault Stripe := do
  let s ← ensure { s with dev := putFreeBlock g s.dev blockID }
  let (s, _) ← (List.range g.maxPage).foldlM (stripeCopyLivePage g ftlMethod ensure blockID)
    (clearCachedClusters g s, resetCursor g)
  let s ← flushIf g ftlMethod (0 < s.numCachedClusters) ensure s
  .ok (stripeCleanBlock g s blockID)

/-- `StripeEraseOneBlock`, granted `fuel` nested calls and as many rounds of each loop. -/
def stripeEraseOneBlock : Nat → Stripe → Int → Except Fault Stripe
  | 0, _, _ => .error .outOfFuel
  | fuel + 1, s, blockID =>
    stripeReclaim g ftlMethod
      (ensureFreeSpaceInFreeBlock g ftlMethod (stripeEraseOneBlock fuel) fuel) s blockID

/-- The rest of a write request, from the cluster `start` on. -/
structure StripeRequest where
  startCluster : Int
  length : Int
  deriving DecidableEq, Repr

/-- A round of `SecureStripeWriteOneRequest` under the static method: one cluster for each
chip, as long as there are enough of them. -/
def writeStaticRound (ensure : Stripe → Except Fault Stripe) (request : StripeRequest)
    (s : Stripe) : Except Fault (Stripe × StripeRequest) := do
  let num := if (g.chipNumber : Int) ≤ request.length then (g.chipNumber : Int) else request.length
  let cachedClusters := (List.range num.toNat).foldl (fun cached (i : Nat) =>
    let cluster := request.startCluster + i
    Function.update cached (cluster.tmod g.chipNumber) cluster) s.cachedClusters
  let s ← flushCachedClusters g ftlMethod ensure { s with cachedClusters, numCachedClusters := num }
  .ok (s, ⟨request.startCluster + num, request.length - num⟩)

/-- The cluster is looked up in the two lists and put into one of them: it is hot if the hot
list has it already. -/
def classifyCluster (fuel : Nat) (cluster : Int) (s : Stripe) : Except Fault (DataType × Stripe) :=
  match s.hotList.isElemenetInLRUList cluster with
  | some pos =>
    match (s.hotList.removeElemenetFromLRUList cluster pos).putElemenetToLRUList fuel cluster with
    | none => .error .outOfFuel
    | some (_, hotList) => .ok (.hotData, { s with hotList })
  | none =>
    match s.candidateList.isElemenetInLRUList cluster with
    | some pos =>
      let candidateList := s.candidateList.removeElemenetFromLRUList cluster pos
      match s.hotList.putElemenetToLRUList fuel cluster with
      | none => .error .outOfFuel
      | some (_, hotList) => .ok (.coldData, { s with candidateList, hotList })
    | none =>
      match s.candidateList.putElemenetToLRUList fuel cluster with
      | none => .error .outOfFuel
      | some (_, candidateList) => .ok (.coldData, { s with candidateList })

/-- A round of `SecureStripeWriteOneRequest` under the dynamic method: one cluster, and a flush
when every chip has one or the request ends. -/
def writeDynamicRound (ensure : Stripe → Except Fault Stripe) (fuel : Nat)
    (request : StripeRequest) (s : Stripe) (cursor : ChipCursor) :
    Except Fault (Stripe × ChipCursor × StripeRequest) := do
  let (data, s) ← classifyCluster fuel request.startCluster s
  let (s, cursor) := cacheCluster data request.startCluster s cursor
  let s : Stripe := { s with numCachedClusters := s.numCachedClusters + 1 }
  let request : StripeRequest := ⟨request.startCluster + 1, request.length - 1⟩
  if s.numCachedClusters = g.chipNumber ∨ request.length = 0 then
    let s ← flushCachedClusters g ftlMethod ensure s
    .ok (s, resetCursor g, request)
  else .ok (s, cursor, request)

/-- The loop of `SecureStripeWriteOneRequest`, granted `rounds` rounds. -/
def writeRounds (ensure : Stripe → Except Fault Stripe) (fuel : Nat) :
    Nat → StripeRequest → ChipCursor → Stripe → Except Fault Stripe
  | 0, _, _, _ => .error .outOfFuel
  | rounds + 1, request, cursor, s =>
    if request.length ≤ 0 then .ok s
    else do
      let s ← ensure s
      match ftlMethod with
      | .stripeStatic =>
        let (s, request) ← writeStaticRound g ftlMethod ensure request s
        let s ← ensure s
        writeRounds ensure fuel rounds request cursor s
      | .stripeDynamic =>
        let (s, cursor, request) ← writeDynamicRound g ftlMethod ensure fuel request s cursor
        let s ← ensure s
        writeRounds ensure fuel rounds request cursor s

/-- `SecureStripeWriteOneRequest`, with `fuel` rounds for each of its loops. -/
def secureStripeWriteOneRequest (fuel : Nat) (s : Stripe) (request : StripeRequest) :
    Except Fault Stripe := do
  let ensure := ensureFreeSpaceInFreeBlock g ftlMethod (stripeEraseOneBlock g ftlMethod fuel) fuel
  let s ← ensure s
  writeRounds g ftlMethod ensure fuel fuel request (resetCursor g) (clearCachedClusters g s)

/-- What `malloc` finds in memory. -/
structure StripeMemory where
  cachedClusters : Int → Int
  cachedClustersDataType : Int → DataType
  hotList : Int → LRUElement
  candidateList : Int → LRUElement

/-- A free block of the chip becomes its current block. -/
def fetchFreeBlock (data : DataType) (s : Stripe) (i : Nat) : Except Fault Stripe := do
  let (block, dev) ← getFreeBlockFromChip g i s.dev
  .ok (Stripe.setFreeBlock { s with dev } data i ⟨block, 0⟩)

/-- `StripeSimulation` up to its first write. -/
def openStripe (memory : StripeMemory) (dev : Device) : Except Fault Stripe :=
  (List.range g.chipNumber).foldlM (fetchFreeBlock g .coldData) {
    dev
    stripeTable := fun _ => ⟨stripePointToNull, stripePointToNull, stripePointToNull⟩
    currentFreeBlock := fun _ => ⟨stripePointToNull, stripePointToNull⟩
    currentFreeBlockForHotData := fun _ => ⟨stripePointToNull, stripePointToNull⟩
    cachedClusters := memory.cachedClusters
    numCachedClusters := 0
    cachedClustersDataType := memory.cachedClustersDataType
    chipEraseCnt := fun _ => 0
    sortedOrder := fun i => i
    hotList := createLRUList memory.hotList hotListLength
    candidateList := createLRUList memory.candidateList candidateListLength
    currentScanningBlockID := fun _ => -1
    invalidPage2ValidPageDivider := fun _ => 1
    eraseLog := [] }

end WiscKey.Flash
