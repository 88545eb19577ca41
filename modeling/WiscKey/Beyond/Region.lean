import WiscKey.Library.TreePath
import Mathlib

/-!
# The tree of a virtual region

A virtual region keeps where its LBAs were last written in a binary search tree of intervals. The
nodes are in memory, and the tree is a tree of pointers to them. Of the translation layer, the
model has what `CreateMrMNode` reads and writes; its numbers are of type `int`. The states of the
sub-pages of the flash memory are compiled in only with a macro that the build leaves undefined.
-/

namespace WiscKey.Beyond

/-- `LBA_SIZE`, and the sizes of a `blockLinkedList`, a `treeNode` and an `int`. -/
def lbaSize : Int := 512

def sizeofBlockLinkedList : Int := 16

def sizeofTreeNode : Int := 48

def sizeofInt : Int := 4

/-- A pointer to a node. -/
abbrev Pointer := Nat

/-- The interval of LBAs of a node, and where it is written. -/
structure Extent where
  lba : Int
  length : Int
  chipAddr : Int
  blockAddr : Int
  pageAddr : Int
  subPageOff : Int
  deriving DecidableEq, Repr

/-- `treeNode`, without the pointers to the children. -/
structure TreeNode extends Extent where
  cacheStatus : Bool
  deriving DecidableEq, Repr

/-- Why a call does not return: it dereferences NULL, it makes the list of the regions in SRAM evict
one of them, or the steps granted to it ran out. -/
inductive Stop
  | nullNode
  | eviction
  | outOfFuel
  deriving DecidableEq, Repr

/-- `virtualRegion` with the memory of the nodes, the counters of the blocks, and the free size and
the sizes of the elements of the list of the regions in SRAM. The region has a current block. -/
structure VirtualRegion where
  mrmTreeRoot : BinaryTree Pointer
  memory : Pointer → TreeNode
  usedPageBuffer : Int
  cachedTreeNodeList : List Pointer
  cachedTreeNodeCount : Int
  /-- `currBlock->blockNum`. -/
  currBlock : Int
  blockCount : Int
  nodeCount : Int
  size : Int
  validSubPage : Int
  freeSubPageCnt : Int → Int
  validSubPageCnt : Int → Int
  invalidSubPageCnt : Int → Int
  freeSize : Int
  elementSize : Int → Int

/-- `MaxSubPage` and `MaxPage`. -/
structure FlashSize where
  maxSubPage : Int
  maxPage : Int

namespace VirtualRegion

/-- `malloc`: a pointer that is not in use. The memory of a freed node can come back. -/
def malloc (s : VirtualRegion) : Pointer := (inorder s.mrmTreeRoot).foldr max 0 + 1

section CachedNodes

/-- `ChangeCacheTreeNodeCnt`. -/
def changeCacheTreeNodeCnt (s : VirtualRegion) (num : Int) : VirtualRegion :=
  { s with cachedTreeNodeCount := s.cachedTreeNodeCount + num }

/-- `AddToCachedNodeList`. -/
def addToCachedNodeList (s : VirtualRegion) (node : Pointer) : VirtualRegion :=
  { s with cachedTreeNodeList := node :: s.cachedTreeNodeList }

/-- The comparison of `SearchInCachedNodeList`. -/
def sameInterval (s : VirtualRegion) (node ptr : Pointer) : Bool :=
  (s.memory ptr).lba = (s.memory node).lba ∧ (s.memory ptr).length = (s.memory node).length

/-- Set `cacheStatus` of a node. -/
def setCacheStatus (s : VirtualRegion) (node : Pointer) (status : Bool) : VirtualRegion :=
  { s with memory := Function.update s.memory node { s.memory node with cacheStatus := status } }

/-- `DeleteCachedNodeFromList`. -/
def deleteCachedNodeFromList (s : VirtualRegion) (node : Pointer) : VirtualRegion :=
  match s.cachedTreeNodeList.find? (s.sameInterval node) with
  | none => s
  | some del =>
    { s.setCacheStatus del false with
      cachedTreeNodeList := s.cachedTreeNodeList.eraseP (s.sameInterval node) }

end CachedNodes

section SearchTree

/-- `FindMin`. -/
def findMin : BinaryTree Pointer → Option Pointer
  | .nil => none
  | .node p .nil _ => some p
  | .node _ (.node q l r) _ => findMin (.node q l r)

/-- `Insert`, of a node that is allocated at a pointer: the tree, and `insertedNode`. -/
def insert (memory : Pointer → TreeNode) (node : Pointer) (lba : Int) :
    BinaryTree Pointer → BinaryTree Pointer × Option Pointer
  | .nil => (.node node .nil .nil, some node)
  | .node p l r =>
    if (memory p).lba < lba then
      let (r, inserted) := insert memory node lba r
      (.node p l r, inserted)
    else if lba < (memory p).lba then
      let (l, inserted) := insert memory node lba l
      (.node p l r, inserted)
    else (.node p l r, none)

/-- The steps of `Delete` that overwrite a node with the least node behind it. -/
def overwrite (s : VirtualRegion) (node temp : Pointer) : VirtualRegion :=
  let status := (s.memory node).cacheStatus
  let moved : TreeNode := { s.memory temp with cacheStatus := status }
  let s := { s with memory := Function.update s.memory node moved }
  let s :=
    if status = false ∧ (s.memory temp).cacheStatus = true then
      (s.deleteCachedNodeFromList temp).addToCachedNodeList node
    else if status = true ∧ (s.memory temp).cacheStatus = false then
      (s.changeCacheTreeNodeCnt (-1)).deleteCachedNodeFromList node
    else s
  s.setCacheStatus node (s.memory temp).cacheStatus

/-- `Delete`. -/
def delete (s : VirtualRegion) (data : Int) :
    BinaryTree Pointer → VirtualRegion × BinaryTree Pointer
  | .nil => (s, .nil)
  | .node node l r =>
    if data < (s.memory node).lba then
      let (s, l) := delete s data l
      (s, .node node l r)
    else if (s.memory node).lba < data then
      let (s, r) := delete s data r
      (s, .node node l r)
    else
      match findMin r with
      | none => (s, l)
      | some temp =>
        if l = .nil then (s, r)
        else
          let s := s.overwrite node temp
          let (s, r) := delete s (s.memory temp).lba r
          (s, .node node l r)

/-- `Find`. -/
def find (memory : Pointer → TreeNode) (data : Int) : BinaryTree Pointer → Option Pointer
  | .nil => none
  | .node node l r =>
    if (memory node).lba < data then find memory data r
    else if data < (memory node).lba then find memory data l
    else some node

end SearchTree

/-- `currentRegion->mrmTreeRoot`, as a pointer. -/
def root (s : VirtualRegion) : Option Pointer := rootOf s.mrmTreeRoot

/-- `node->left`. -/
def leftChild (s : VirtualRegion) (node : Pointer) : Option Pointer :=
  rootOf (subtreeAt node s.mrmTreeRoot).left

/-- `node->right`. -/
def rightChild (s : VirtualRegion) (node : Pointer) : Option Pointer :=
  rootOf (subtreeAt node s.mrmTreeRoot).right

section Counters

/-- `ChangeVaildSubPageCnt`. -/
def changeVaildSubPageCnt (s : VirtualRegion) (num : Int) : VirtualRegion :=
  { s with validSubPage := s.validSubPage + num }

/-- `ChangeUsedBuffer`. -/
def changeUsedBuffer (s : VirtualRegion) (length : Int) : VirtualRegion :=
  { s with usedPageBuffer := s.usedPageBuffer + length }

/-- `VirtualRegionSizeUpdate`. -/
def virtualRegionSizeUpdate (s : VirtualRegion) : VirtualRegion :=
  { s with size := s.usedPageBuffer * lbaSize + sizeofBlockLinkedList * s.blockCount +
      sizeofTreeNode * s.nodeCount + sizeofInt * 5 }

/-- `UpdateLruItemSize`. -/
def updateLruItemSize (s : VirtualRegion) (pos newSize : Int) : Except Stop VirtualRegion :=
  if newSize < s.elementSize pos then
    .ok { s with
      freeSize := s.freeSize + (s.elementSize pos - newSize)
      elementSize := Function.update s.elementSize pos newSize }
  else if s.elementSize pos < newSize then
    if s.freeSize < newSize - s.elementSize pos then .error .eviction
    else
      .ok { s with
        freeSize := s.freeSize - (newSize - s.elementSize pos)
        elementSize := Function.update s.elementSize pos newSize }
  else .ok { s with elementSize := Function.update s.elementSize pos newSize }

/-- `FreeSubPageCount`. -/
def freeSubPageCount (s : VirtualRegion) (blockNum num : Int) : VirtualRegion :=
  { s with freeSubPageCnt :=
      Function.update s.freeSubPageCnt blockNum (s.freeSubPageCnt blockNum + num) }

/-- `VaildSubPageCount`. -/
def vaildSubPageCount (s : VirtualRegion) (blockNum num : Int) : VirtualRegion :=
  { s with validSubPageCnt :=
      Function.update s.validSubPageCnt blockNum (s.validSubPageCnt blockNum + num) }

/-- `InvaildSubPageCount`. -/
def invaildSubPageCount (s : VirtualRegion) (blockNum num : Int) : VirtualRegion :=
  { s with invalidSubPageCnt :=
      Function.update s.invalidSubPageCnt blockNum (s.invalidSubPageCnt blockNum + num) }

/-- `InvalidateSupPage`, outside of a garbage collection. -/
def invalidateSupPage (s : VirtualRegion) (len : Int) (res : Pointer) (lruPos : Int) :
    Except Stop VirtualRegion :=
  let n := s.memory res
  if s.currBlock = n.blockAddr ∧ s.usedPageBuffer ≠ 0 ∧ n.cacheStatus = true then do
    let s := (s.changeUsedBuffer (len * -1)).virtualRegionSizeUpdate
    let s ← s.updateLruItemSize lruPos s.size
    .ok (s.freeSubPageCount n.blockAddr len)
  else .ok ((s.vaildSubPageCount n.blockAddr (len * -1)).invaildSubPageCount n.blockAddr len)

end Counters

end VirtualRegion

/-- The extent behind the first LBAs of an extent, with a page and an offset that fit. -/
def Extent.drop (maxSubPage : Int) (e : Extent) (n : Int) : Extent :=
  let subPageOffN := e.subPageOff + n
  let add := if maxSubPage < subPageOffN then subPageOffN / maxSubPage else 0
  { e with
    lba := e.lba + n
    length := e.length - n
    pageAddr := e.pageAddr + add
    subPageOff := subPageOffN - maxSubPage * add }

/-- The first LBAs of an extent. -/
def Extent.take (e : Extent) (n : Int) : Extent := { e with length := n }

namespace VirtualRegion

variable (g : FlashSize)

/-- The steps that remove a cached node from the list. -/
def uncache (s : VirtualRegion) (node : Pointer) : VirtualRegion :=
  if (s.memory node).cacheStatus = true then
    (s.changeCacheTreeNodeCnt (-1)).deleteCachedNodeFromList node
  else s

/-- The steps that delete a node of the tree and count it. -/
def deleteNode (s : VirtualRegion) (data : Int) : VirtualRegion :=
  let (s, root) := s.delete data s.mrmTreeRoot
  { s with mrmTreeRoot := root, nodeCount := s.nodeCount - 1 }

/-- The steps that insert a node into the tree, count it, and put it into the list of cached nodes.
An extent without LBAs is not inserted. -/
def insertNode (s : VirtualRegion) (e : Extent) (allCached : Bool) : Except Stop VirtualRegion :=
  let (root, insertedNode) :=
    if e.length = 0 then (s.mrmTreeRoot, none) else insert s.memory s.malloc e.lba s.mrmTreeRoot
  let memory :=
    match insertedNode with
    | none => s.memory
    | some node => Function.update s.memory node ⟨e, allCached⟩
  let s := { s with mrmTreeRoot := root, memory := memory, nodeCount := s.nodeCount + 1 }
  if allCached = true then
    match insertedNode with
    | none => .error .nullNode
    | some node => .ok ((s.changeCacheTreeNodeCnt 1).addToCachedNodeList node)
  else .ok s

/-- A step for a child that is not NULL. -/
def ifNotNull (child : Option Pointer) (s : VirtualRegion)
    (step : Pointer → Except Stop VirtualRegion) : Except Stop VirtualRegion :=
  match child with
  | none => .ok s
  | some child => step child

/-- `RemoveOverlapped`. -/
def removeOverlapped : Nat → VirtualRegion → Option Pointer → Int → Int → Int →
    Except Stop VirtualRegion
  | 0, _, _, _, _, _ => .error .outOfFuel
  | _ + 1, _, none, _, _, _ => .error .nullNode
  | fuel + 1, s, some node, lba, len, pos =>
    let below (s : VirtualRegion) (child : Option Pointer) : Except Stop VirtualRegion :=
      ifNotNull child s fun child => removeOverlapped fuel s (some child) lba len pos
    let n := s.memory node
    if lba < n.lba ∧ n.lba ≤ lba + len - 1 ∧ lba + len - 1 ≤ n.lba + n.length - 1 then do
      -- overlapped on the left hand side
      let s ← below s (s.leftChild node)
      let n := s.memory node
      let overlappedLen := lba + len - n.lba
      let s ← s.invalidateSupPage overlappedLen node pos
      let rest := n.toExtent.drop g.maxSubPage overlappedLen
      let s := s.changeVaildSubPageCnt (-overlappedLen)
      let s := (s.uncache node).deleteNode n.lba
      if 0 < rest.length then do
        let s ← removeOverlapped fuel s s.root rest.lba rest.length pos
        s.insertNode rest n.cacheStatus
      else .ok s
    else if n.lba < lba ∧ lba ≤ n.lba + n.length - 1 ∧ n.lba + n.length - 1 ≤ lba + len - 1 then do
      -- overlapped on the right hand side
      let s ← below s (s.rightChild node)
      let n := s.memory node
      let overlappedLen := n.lba + n.length - lba
      let s ← s.invalidateSupPage overlappedLen node pos
      let cut : TreeNode := { s.memory node with length := (s.memory node).length - overlappedLen }
      let s := { s with memory := Function.update s.memory node cut }
      .ok (s.changeVaildSubPageCnt (-overlappedLen))
    else if n.lba < lba ∧ lba < n.lba + n.length - 1 ∧ lba + len - 1 ≤ n.lba + n.length - 1 then do
      -- wrapped by the node
      let rest := n.toExtent.drop g.maxSubPage (lba + len - n.lba)
      let s := { s with memory := Function.update s.memory node { n with length := lba - n.lba } }
      let s ← s.invalidateSupPage len node pos
      let s ← removeOverlapped fuel s s.root rest.lba rest.length pos
      let s ← s.insertNode rest n.cacheStatus
      .ok (s.changeVaildSubPageCnt (-len))
    else if lba ≤ n.lba ∧ lba < lba + len - 1 ∧ n.lba + n.length - 1 ≤ lba + len - 1 then do
      -- wraps the node
      let s ← below s (s.rightChild node)
      let s ← below s (s.leftChild node)
      let n := s.memory node
      let s ← s.invalidateSupPage n.length node pos
      let s := s.changeVaildSubPageCnt (-n.length)
      .ok ((s.uncache node).deleteNode n.lba)
    else if lba + len - 1 < n.lba then below s (s.leftChild node)
    else if n.lba + n.length - 1 < lba then below s (s.rightChild node)
    else .ok s

/-- The steps granted to a call of `RemoveOverlapped`: it goes down the tree, and from where it is
once more from the root. -/
def fuel (s : VirtualRegion) : Nat := 2 * s.mrmTreeRoot.numNodes + 1

/-- The removal of an interval from the whole tree. -/
def removeFromRoot (s : VirtualRegion) (lba len pos : Int) : Except Stop VirtualRegion :=
  removeOverlapped g s.fuel s s.root lba len pos

end VirtualRegion

/-- The arguments of `CreateMrMNode`. -/
structure Call where
  extent : Extent
  skipChecking : Bool
  lruPos : Int
  allCached : Bool

namespace VirtualRegion

variable (g : FlashSize)

/-- `CreateMrMNode`. -/
def createMrMNode (s : VirtualRegion) (c : Call) : Except Stop VirtualRegion :=
  let lba := c.extent.lba
  let len := c.extent.length
  if len = 0 then .ok s
  else if g.maxPage < c.extent.pageAddr + len.tdiv g.maxSubPage then .ok s
  else if 256 < c.extent.pageAddr ∨ c.extent.pageAddr < 0 then .ok s
  else if 32 < c.extent.subPageOff ∨ c.extent.subPageOff < 0 then .ok s
  else if s.root ≠ none ∧ s.nodeCount ≠ 0 then
    if c.skipChecking = true then .ok s
    else
      match find s.memory lba s.mrmTreeRoot with
      | some res =>
        let n := s.memory res
        if len = n.length then do
          let s ← s.invalidateSupPage len res c.lruPos
          let moved : Extent := { c.extent with lba := n.lba, length := n.length }
          let s := { s with memory := Function.update s.memory res ⟨moved, n.cacheStatus⟩ }
          let s :=
            if n.cacheStatus = false ∧ c.allCached = true then
              (s.changeCacheTreeNodeCnt 1).addToCachedNodeList res
            else if n.cacheStatus = true ∧ c.allCached = false then
              (s.changeCacheTreeNodeCnt (-1)).deleteCachedNodeFromList res
            else s
          .ok (s.setCacheStatus res c.allCached)
        else if len < n.length then do
          let s ← s.invalidateSupPage len res c.lruPos
          let rest := n.toExtent.drop g.maxSubPage len
          let s := ((s.uncache res).deleteNode n.lba).changeVaildSubPageCnt (-len)
          if rest.length = 0 then .ok s
          else do
            let s ← s.removeFromRoot g rest.lba rest.length c.lruPos
            let s ← s.insertNode rest n.cacheStatus
            let s ← s.removeFromRoot g lba len c.lruPos
            let s ← s.insertNode c.extent c.allCached
            .ok (s.changeVaildSubPageCnt len)
        else do
          let s ← ifNotNull (s.rightChild res) s fun right =>
            removeOverlapped g s.fuel s (some right) lba len c.lruPos
          let n := s.memory res
          let s ← s.invalidateSupPage n.length res c.lruPos
          let s := s.changeVaildSubPageCnt (-n.length)
          let s := (s.uncache res).deleteNode n.lba
          let s ← s.removeFromRoot g lba len c.lruPos
          let s ← s.insertNode c.extent c.allCached
          .ok (s.changeVaildSubPageCnt len)
      | none => do
        let s ← s.removeFromRoot g lba len c.lruPos
        let s ← s.insertNode c.extent c.allCached
        .ok (s.changeVaildSubPageCnt len)
  else do
    let s ← s.insertNode c.extent c.allCached
    .ok (s.changeVaildSubPageCnt len)

/-- A region without nodes, as `InitializeVirtualRegions` leaves it, that has got a current block. -/
def init (usedPageBuffer currBlock blockCount : Int)
    (freeSubPageCnt validSubPageCnt invalidSubPageCnt : Int → Int) (freeSize : Int)
    (elementSize : Int → Int) : VirtualRegion where
  mrmTreeRoot := .nil
  memory _ := ⟨⟨0, 0, 0, 0, 0, 0⟩, false⟩
  usedPageBuffer := usedPageBuffer
  cachedTreeNodeList := []
  cachedTreeNodeCount := 0
  currBlock := currBlock
  blockCount := blockCount
  nodeCount := 0
  size := 0
  validSubPage := 0
  freeSubPageCnt := freeSubPageCnt
  validSubPageCnt := validSubPageCnt
  invalidSubPageCnt := invalidSubPageCnt
  freeSize := freeSize
  elementSize := elementSize

/-- A sequence of calls. -/
def run (s : VirtualRegion) (calls : List Call) : Except Stop VirtualRegion :=
  calls.foldlM (createMrMNode g) s

end VirtualRegion

end WiscKey.Beyond
