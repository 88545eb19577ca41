import WiscKey.Flash.FtlRun
import WiscKey.Library.Traced

/-!
# The block-level mapping

A logical block is stored in one physical block, its clusters at their own offsets. An
update goes to a new block, together with the live pages of the old one, which is on the
free list by then and is erased afterwards. The simulation collects the written clusters of
one logical block before it updates the block.
-/

namespace WiscKey.Flash

/-- `BL_POINT_TO_NULL`. -/
def blPointToNull : Int := -1

/-- The device with the block table `BLTable`. -/
structure Bl where
  dev : Device
  blTable : Int → Int

variable (g : Geometry)

/-- `BLReadOneCluster`. -/
def blReadOneCluster (s : Bl) (clusterID : Int) : Except Fault Bool :=
  let logicalBlock := g.logicalBlock clusterID
  if logicalBlock < 0 ∨ g.maxBlock ≤ logicalBlock then .error .badIndex
  else if s.blTable logicalBlock = blPointToNull then .ok false
  else
    .ok (s.dev.flashMemory (s.blTable logicalBlock) (g.logicalPage clusterID) == clusterID)

/-- One round of the loop of `BLUpdateOneBlock`: page `i` of the new block gets the updated
cluster, or the live page of the block `old`, if there is one. -/
def blUpdatePage (freeBlock old : Int) (updatedClusters : Int → Int) (d : Device) (i : Nat) :
    Except Fault Device :=
  if updatedClusters i ≠ blPointToNull then programPage g d freeBlock i (updatedClusters i)
  else if old ≠ blPointToNull then
    let content := d.flashMemory old i
    if content ≠ invalidPage ∧ content ≠ freePage then programPage g d freeBlock i content
    else .ok d
  else .ok d

/-- `BLUpdateOneBlock`. The old block keeps its count of valid pages. -/
def blUpdateOneBlock (s : Bl) (logicalBlock : Int) (updatedClusters : Int → Int) :
    Except Fault Bl := do
  if logicalBlock < 0 ∨ g.maxBlock ≤ logicalBlock then .error .badIndex
  else
    let old := s.blTable logicalBlock
    let d := if old ≠ blPointToNull then putFreeBlock g s.dev old else s.dev
    let (freeBlock, d) ← getFreeBlock g false d
    if freeBlock = -1 then .error .exit
    else
      let d ← (List.range g.maxPage).foldlM (blUpdatePage g freeBlock old updatedClusters) d
      let d :=
        if old ≠ blPointToNull then { eraseBlock g d old with validPageCnt := d.validPageCnt }
        else d
      .ok { dev := d, blTable := Function.update s.blTable logicalBlock freeBlock }

/-- An empty block table. -/
def openBl (d : Device) : Bl where
  dev := d
  blTable _ := blPointToNull

/-- The first loop of `BLSimulation`, for every outcome `selected` of its draws: the selected
logical blocks are written as a whole. -/
def blInitialData (selected : Nat → Bool) (d : Device) : Except Fault Bl :=
  ((List.range (g.maxBlock - g.leastFreeBlocksInFBL - d.badBlockCnt)).filter selected).foldlM
    (fun (s : Bl) (i : Nat) => do
      let s ← blUpdateOneBlock g s i fun j => i * g.maxPage + j
      .ok { s with dev := { s.dev with
        accessedLogicalPages := s.dev.accessedLogicalPages + g.maxPage
        accessedLogicalPageMap := fun c =>
          s.dev.accessedLogicalPageMap c ||
            (decide (i * g.maxPage ≤ c) && decide (c < (i + 1) * g.maxPage)) } })
    (openBl d)

/-- `AccessType_t`. -/
inductive AccessType
  | read
  | write
  deriving DecidableEq, Repr

/-- A request of the trace, as `GetOneOperation` returns it. -/
structure OneRequest where
  accessType : AccessType
  startCluster : Int
  length : Nat

/-- The variables of `BLSimulation`. -/
structure BlSim where
  bl : Bl
  updatedClusters : Int → Int
  /-- The logical block of the collected clusters, or -1. -/
  currentAccessedBlock : Int

/-- `UpdatedClusters` after its `memset`. -/
def noUpdatedClusters : Int → Int := fun _ => blPointToNull

/-- The first `if` in the loop of `BLSimulation`: another block or a read flushes the
collected clusters. -/
def blFlush (sim : BlSim) (accessType : AccessType) (currentCluster : Int) : Except Fault BlSim :=
  if sim.currentAccessedBlock ≠ -1 ∧
      (sim.currentAccessedBlock ≠ g.logicalBlock currentCluster ∨ accessType ≠ .write) then do
    let bl ← blUpdateOneBlock g sim.bl sim.currentAccessedBlock sim.updatedClusters
    .ok { bl, updatedClusters := noUpdatedClusters, currentAccessedBlock := -1 }
  else .ok sim

/-- The loop of `BLSimulation` over the `n` clusters of a request from `currentCluster` on.
The answers are those of `BLReadOneCluster`. -/
def blAccessClusters (accessType : AccessType) :
    Nat → Int → BlSim → Traced Bool Fault BlSim
  | 0, _, sim => pure sim
  | n + 1, currentCluster, sim => do
    let sim ← Traced.lift (blFlush g sim accessType currentCluster)
    match accessType with
    | .write =>
      blAccessClusters accessType n (currentCluster + 1) {
        sim with
        updatedClusters :=
          Function.update sim.updatedClusters (g.logicalPage currentCluster) currentCluster
        currentAccessedBlock := g.logicalBlock currentCluster }
    | .read =>
      let found ← Traced.answer (blReadOneCluster g sim.bl currentCluster)
      if found then blAccessClusters accessType n (currentCluster + 1) sim else pure sim

/-- `BLSimulation` after its initialisation, up to the release of its memory. -/
def blSimulation (requests : List OneRequest) (s : Bl) : Traced Bool Fault Bl := do
  let sim ← requests.foldlM
    (fun sim r => blAccessClusters g r.accessType r.length r.startCluster sim)
    { bl := s, updatedClusters := noUpdatedClusters, currentAccessedBlock := -1 }
  if sim.currentAccessedBlock ≠ -1 then
    Traced.lift (blUpdateOneBlock g sim.bl sim.currentAccessedBlock sim.updatedClusters)
  else pure sim.bl

end WiscKey.Flash
