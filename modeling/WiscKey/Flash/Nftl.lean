import WiscKey.Flash.Device

/-!
# The block-level translation layer

NFTL gives every logical block a primary block, whose pages hold the clusters at their
own offsets in ascending order, and a replacement block for the updates, filled from its
first page. A full replacement block is merged with its primary block into a third one.
-/

namespace WiscKey.Flash

/-- `NFTL_POINT_TO_NULL`. -/
def nftlPointToNull : Int := -1

/-- An entry of the table of block sets (`NFTLElement_t`). -/
structure NFTLElement where
  primaryBlock : Int
  currentFreePageIDinPB : Int
  replacementBlock : Int
  currentFreePageIDinRB : Int
  deriving DecidableEq, Repr

/-- The device with the translation layer's own variables. -/
structure Nftl where
  dev : Device
  nftlTable : Int → NFTLElement
  /-- The two static variables of `NFTLGarbageCollection`. -/
  currentScanningBlockSetID : Int
  invalidPage2ValidPageDivider : Int

variable (g : Geometry)

/-- The loops `for(i=CurrentFreePageIDinRB-1; i>=0; i--)`: the last page below `n` of the
block that holds the cluster. -/
def searchReplacementBlock (fm : Int → Int → Int) (block clusterID : Int) : Nat → Option Nat
  | 0 => none
  | n + 1 =>
    if fm block n = clusterID then some n else searchReplacementBlock fm block clusterID n

/-- `NFTLReadOneCluster`: the replacement block from its last page, then the primary block. -/
def nftlReadOneCluster (s : Nftl) (clusterID : Int) : Except Fault Bool :=
  let logicalBlock := g.logicalBlock clusterID
  let logicalPage := g.logicalPage clusterID
  if logicalBlock < 0 ∨ g.maxBlock ≤ logicalBlock then .error .badIndex
  else
    let e := s.nftlTable logicalBlock
    if e.primaryBlock = nftlPointToNull then .ok false
    else
      let found :=
        if e.replacementBlock ≠ nftlPointToNull then
          searchReplacementBlock s.dev.flashMemory e.replacementBlock clusterID
            e.currentFreePageIDinRB.toNat
        else none
      match found with
      | some _ => .ok true
      | none => .ok (s.dev.flashMemory e.primaryBlock logicalPage == clusterID)

/-- One of the two moves of the merging loop: page `i` of `block`, if it is live, goes to
page `target` of the new block, and the first free page after it moves up. -/
def movePage (freeBlock block : Int) (i : Nat) (target : Int) (st : Device × Int) :
    Except Fault (Device × Int) :=
  let (d, currentFreePageIDinPB) := st
  let content := d.flashMemory block i
  if content ≠ invalidPage ∧ content ≠ freePage then do
    let d ← copyPage g d freeBlock target block i
    .ok (d, if currentFreePageIDinPB ≤ target then target + 1 else currentFreePageIDinPB)
  else .ok st

/-- One round of the merging loop: page `i` of the primary and of the replacement block. -/
def mergePage (e : NFTLElement) (freeBlock : Int) (st : Device × Int) (i : Nat) :
    Except Fault (Device × Int) := do
  let st ← movePage g freeBlock e.primaryBlock i i st
  let target := g.logicalPage (st.1.flashMemory e.replacementBlock i)
  movePage g freeBlock e.replacementBlock i target st

/-- `NFTLMergeBlocks`: both blocks are on the free list before their pages are copied. -/
def nftlMergeBlocks (s : Nftl) (mergeBlockSet : Int) : Except Fault Nftl := do
  let e := s.nftlTable mergeBlockSet
  let d := putFreeBlock g (putFreeBlock g s.dev e.primaryBlock) e.replacementBlock
  let (freeBlock, d) ← getFreeBlock g false d
  let (d, currentFreePageIDinPB) ← (List.range g.maxPage).foldlM (mergePage g e freeBlock) (d, 0)
  .ok { s with
    dev := eraseBlock g (eraseBlock g d e.primaryBlock) e.replacementBlock
    nftlTable := Function.update s.nftlTable mergeBlockSet {
      primaryBlock := freeBlock
      currentFreePageIDinPB
      replacementBlock := nftlPointToNull
      currentFreePageIDinRB := nftlPointToNull } }

/-- The collector's test of the block set it is scanning. -/
def isVictimSet (s : Nftl) (notToReclaimBlockSet : Int) : Bool :=
  let e := s.nftlTable s.currentScanningBlockSetID
  let wasted (b : Int) : Bool :=
    (s.dev.validPageCnt b).tdiv s.invalidPage2ValidPageDivider < s.dev.invalidPageCnt b
  (wasted e.primaryBlock || wasted e.replacementBlock) && e.primaryBlock != nftlPointToNull &&
    e.replacementBlock != nftlPointToNull && s.currentScanningBlockSetID != notToReclaimBlockSet

/-- The scan of `NFTLGarbageCollection` over the next `n` sets, and whether it found one. -/
def findVictimSet (notToReclaimBlockSet : Int) : Nat → Nftl → Except Fault (Bool × Nftl)
  | 0, s => .ok (false, s)
  | n + 1, s =>
    let s := { s with
      currentScanningBlockSetID := (s.currentScanningBlockSetID + 1).tmod g.maxBlock }
    if s.invalidPage2ValidPageDivider = 0 then .error .divByZero
    else if isVictimSet s notToReclaimBlockSet then .ok (true, s)
    else findVictimSet notToReclaimBlockSet n s

/-- `NFTLGarbageCollection`: one scan, then a merge or a doubled divider. -/
def nftlGarbageCollection (s : Nftl) (notToReclaimBlockSet : Int) : Except Fault Nftl := do
  let (found, s) ← findVictimSet g notToReclaimBlockSet g.maxBlock s
  if found then nftlMergeBlocks g s s.currentScanningBlockSetID
  else .ok { s with
    invalidPage2ValidPageDivider := (2 * s.invalidPage2ValidPageDivider).bmod (2 ^ 32) }

/-- The loops `while((FreeBlock=GetFreeBlock(False)) == -1)`, granted `fuel` rounds. -/
def nftlAllocate (logicalBlock : Int) : Nat → Nftl → Except Fault (Int × Nftl)
  | 0, _ => .error .outOfFuel
  | fuel + 1, s => do
    let (freeBlock, dev) ← getFreeBlock g false s.dev
    let s := { s with dev }
    if freeBlock = -1 then
      let s ← nftlGarbageCollection g s logicalBlock
      nftlAllocate logicalBlock fuel s
    else .ok (freeBlock, s)

/-- The first step of a write: the logical block has a primary block. -/
def ensurePrimaryBlock (fuel : Nat) (s : Nftl) (logicalBlock : Int) : Except Fault Nftl :=
  if (s.nftlTable logicalBlock).primaryBlock = nftlPointToNull then do
    let (freeBlock, s) ← nftlAllocate g logicalBlock fuel s
    let e := { s.nftlTable logicalBlock with
      primaryBlock := freeBlock
      currentFreePageIDinPB := 0 }
    .ok { s with nftlTable := Function.update s.nftlTable logicalBlock e }
  else .ok s

/-- The first half of the loop `while(1)`: the logical block has a replacement block. -/
def allocateReplacementBlock (fuel : Nat) (s : Nftl) (logicalBlock : Int) : Except Fault Nftl :=
  if (s.nftlTable logicalBlock).replacementBlock = nftlPointToNull then do
    let (freeBlock, s) ← nftlAllocate g logicalBlock fuel s
    let e := { s.nftlTable logicalBlock with
      replacementBlock := freeBlock
      currentFreePageIDinRB := 0 }
    .ok { s with nftlTable := Function.update s.nftlTable logicalBlock e }
  else .ok s

/-- The loop `while(1)`: a full replacement block is merged, until there is one with room. -/
def ensureReplacementPage (logicalBlock : Int) : Nat → Nftl → Except Fault Nftl
  | 0, _ => .error .outOfFuel
  | fuel + 1, s => do
    let s ← allocateReplacementBlock g fuel s logicalBlock
    let page := (s.nftlTable logicalBlock).currentFreePageIDinRB
    if g.maxPage ≤ page then
      if g.maxPage < page then .error .exit
      else
        let s ← nftlMergeBlocks g s logicalBlock
        ensureReplacementPage logicalBlock fuel s
    else .ok s

/-- The test of CASE 1: the page is free and no later one of the primary block is written. -/
def fitsPrimaryBlock (s : Nftl) (clusterID : Int) : Bool :=
  let e := s.nftlTable (g.logicalBlock clusterID)
  s.dev.flashMemory e.primaryBlock (g.logicalPage clusterID) == freePage &&
    e.currentFreePageIDinPB ≤ g.logicalPage clusterID

/-- CASE 1: the cluster goes to its page of the primary block. -/
def storePrimary (s : Nftl) (clusterID : Int) : Nftl :=
  let logicalBlock := g.logicalBlock clusterID
  let logicalPage := g.logicalPage clusterID
  let e := s.nftlTable logicalBlock
  let dev := { s.dev with
    flashMemory := setPage s.dev.flashMemory e.primaryBlock logicalPage clusterID }
  { s with
    dev := addValid dev e.primaryBlock 1
    nftlTable := Function.update s.nftlTable logicalBlock
      { e with currentFreePageIDinPB := logicalPage + 1 } }

/-- CASE 2 to CASE 4 of a write. -/
inductive UpdateCase
  /-- CASE 2: the cluster is in the primary block. -/
  | inPrimary
  /-- CASE 3: its page of the primary block is invalid. -/
  | inReplacement
  /-- CASE 4: its page of the primary block is free, but a later one is written. -/
  | outOfOrder
  deriving DecidableEq, Repr

/-- The `if` chain of a write to the replacement block; it has no last `else`. -/
def updateCase (s : Nftl) (clusterID : Int) : Option UpdateCase :=
  let e := s.nftlTable (g.logicalBlock clusterID)
  let content := s.dev.flashMemory e.primaryBlock (g.logicalPage clusterID)
  if content = clusterID then some .inPrimary
  else if content = invalidPage then some .inReplacement
  else if content = freePage ∧ g.logicalPage clusterID < e.currentFreePageIDinPB then
    some .outOfOrder
  else none

/-- The cluster goes to the first free page of the replacement block. -/
def appendReplacement (s : Nftl) (logicalBlock clusterID : Int) : Nftl :=
  let e := s.nftlTable logicalBlock
  let flashMemory :=
    setPage s.dev.flashMemory e.replacementBlock e.currentFreePageIDinRB clusterID
  { s with
    dev := { s.dev with flashMemory }
    nftlTable := Function.update s.nftlTable logicalBlock
      { e with currentFreePageIDinRB := e.currentFreePageIDinRB + 1 } }

/-- The bodies of CASE 2 to CASE 4. -/
def storeUpdate (s : Nftl) (clusterID : Int) : UpdateCase → Except Fault Nftl
  | .inPrimary =>
    let logicalBlock := g.logicalBlock clusterID
    let e := s.nftlTable logicalBlock
    let dev := addValid (markInvalid s.dev e.primaryBlock (g.logicalPage clusterID))
      e.primaryBlock (-1)
    let s := { s with dev := addValid dev e.replacementBlock 1 }
    .ok (appendReplacement s logicalBlock clusterID)
  | .inReplacement =>
    let logicalBlock := g.logicalBlock clusterID
    let e := s.nftlTable logicalBlock
    match searchReplacementBlock s.dev.flashMemory e.replacementBlock clusterID
        e.currentFreePageIDinRB.toNat with
    | none => .error .exit
    | some i =>
      -- one page of the block becomes invalid and one valid, so `ValidPageCnt` stays
      let s := { s with dev := markInvalid s.dev e.replacementBlock i }
      .ok (appendReplacement s logicalBlock clusterID)
  | .outOfOrder =>
    let logicalBlock := g.logicalBlock clusterID
    let e := s.nftlTable logicalBlock
    let dev :=
      match searchReplacementBlock s.dev.flashMemory e.replacementBlock clusterID
        e.currentFreePageIDinRB.toNat with
      | none => s.dev
      | some i => addValid (markInvalid s.dev e.replacementBlock i) e.replacementBlock (-1)
    let s := { s with dev := addValid dev e.replacementBlock 1 }
    .ok (appendReplacement s logicalBlock clusterID)

/-- `NFTLWriteOneCluster`, with `fuel` rounds for each of its loops. A write whose case is
none returns without having stored the cluster. -/
def nftlWriteOneCluster (fuel : Nat) (s : Nftl) (clusterID : Int) : Except Fault Nftl :=
  let logicalBlock := g.logicalBlock clusterID
  if logicalBlock < 0 ∨ g.maxBlock ≤ logicalBlock then .error .badIndex
  else do
    let s ← ensurePrimaryBlock g fuel s logicalBlock
    if fitsPrimaryBlock g s clusterID then .ok (storePrimary g s clusterID)
    else
      let s ← ensureReplacementPage g logicalBlock fuel s
      match updateCase g s clusterID with
      | some k => storeUpdate g s clusterID k
      | none => .ok s

/-- `NFTLSimulation` up to its writes: an empty table. -/
def openNFTL (dev : Device) : Nftl where
  dev := dev
  nftlTable _ := ⟨nftlPointToNull, nftlPointToNull, nftlPointToNull, nftlPointToNull⟩
  currentScanningBlockSetID := -1
  invalidPage2ValidPageDivider := 1

end WiscKey.Flash
