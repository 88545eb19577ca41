import Mathlib.Algebra.Order.BigOperators.Group.List
import Mathlib.Algebra.Order.Ring.Rat
import Mathlib.Data.List.Nodup
import Mathlib.Tactic.NormNum
import WiscKey.Beyond.Region
import WiscKey.Library.ZeroMinimum

/-!
# The block that the collection frees

`GarbageCollection` takes the region with the least ratio of valid sub-pages to blocks, counts in
its tree the valid sub-pages of all blocks but the last one, which is its current block, and
frees a block with the least count. A region without blocks has no ratio, and one with a single
block has nothing to free.
-/

namespace WiscKey.Beyond

/-- A quotient of two `double`s, the finite ones by their value. -/
inductive Double
  | nan
  | inf (negative : Bool)
  | finite (value : ℚ)
  deriving DecidableEq

namespace Double

/-- `a < b`. -/
def lt : Double → Double → Bool
  | nan, _ | _, nan => false
  | inf negative, inf negative' => negative && !negative'
  | inf negative, finite _ => negative
  | finite _, inf negative => !negative
  | finite a, finite b => a < b

/-- `a == 0`. -/
def isZero : Double → Bool
  | finite a => a = 0
  | nan | inf _ => false

/-- The quotient of two `int`s as `double`s. `round` takes a number to the nearest `double`. -/
def quotient (round : ℚ → ℚ) (a b : Int) : Double :=
  if b = 0 then if a = 0 then nan else inf (a < 0) else finite (round (a / b))

end Double

/-- What the collection reads of a `virtualRegion`; the lists and the tree are those that the
pointers lead to. -/
structure BlockRegion where
  /-- The numbers from `allocatedBlockListHead` on. -/
  allocatedBlockList : List Int
  mrmTreeRoot : BinaryTree Extent
  /-- `currBlock->blockNum`, if there is a current block. -/
  currBlock : Option Int
  blockCount : Int
  validSubPage : Int

/-- Why the selection has no result: it dereferences NULL, it asks for an array of no elements or
fewer, or it writes behind the end of one. -/
inductive SelectionFault
  | nullPointer
  | emptyArray
  | outOfBounds
  deriving DecidableEq, Repr

/-- `find_minimum`. -/
def findMinimum (a : List Double) : Nat := zeroMinimum Double.isZero Double.lt a

/-- `find_minimum_int`. -/
def findMinimumInt (a : List Int) : Nat := zeroMinimum (fun x => x = 0) (fun x y => x < y) a

/-- `ConvertBlkNumToIndex`: the index, if the block is found. -/
def convertBlkNumToIndex (blockAddr : Int) : Nat → List Int → Option Nat
  | _, [] => none
  | res, blockNum :: next =>
    if blockNum = blockAddr then some res else convertBlkNumToIndex blockAddr (res + 1) next

/-- `ConvertIndexToBlkNum`; its loop ends before it looks at the last element, unless that is the
first one too, behind which it dereferences NULL. -/
def convertIndexToBlkNum (index : Nat) : Nat → List Int → Except SelectionFault Int
  | _, [] => .error .nullPointer
  | at', blockNum :: next =>
    if at' = index then .ok blockNum
    else
      match next with
      | [] => .error .nullPointer
      | [last] => .ok last
      | next => convertIndexToBlkNum index (at' + 1) next

/-- What `MrMTreeTravse` does for one node. The array has `size` elements. -/
def BlockRegion.countNode (r : BlockRegion) (skipCurBlk : Bool) (size : Nat) (node : Extent)
    (vaildSubPageCount : Nat → Int) : Except SelectionFault (Nat → Int) :=
  if 0 < node.length then
    match convertBlkNumToIndex node.blockAddr 0 r.allocatedBlockList with
    | none => .ok vaildSubPageCount
    | some index =>
      if skipCurBlk ∧ some node.blockAddr = r.currBlock then .ok vaildSubPageCount
      else if index < size then
        .ok (Function.update vaildSubPageCount index (vaildSubPageCount index + node.length))
      else .error .outOfBounds
  else .ok vaildSubPageCount

/-- `MrMTreeTravse` of a child, if there is one. -/
def BlockRegion.countTree (r : BlockRegion) (skipCurBlk : Bool) (size : Nat) :
    BinaryTree Extent → (Nat → Int) → Except SelectionFault (Nat → Int)
  | .nil, vaildSubPageCount => .ok vaildSubPageCount
  | .node node left right, vaildSubPageCount => do
    let vaildSubPageCount ← r.countNode skipCurBlk size node vaildSubPageCount
    let vaildSubPageCount ← r.countTree skipCurBlk size right vaildSubPageCount
    r.countTree skipCurBlk size left vaildSubPageCount

/-- `MrMTreeTravse`. -/
def BlockRegion.mrmTreeTravse (r : BlockRegion) (skipCurBlk : Bool) (size : Nat)
    (node : BinaryTree Extent) (vaildSubPageCount : Nat → Int) :
    Except SelectionFault (Nat → Int) :=
  match node with
  | .nil => .error .nullPointer
  | node => r.countTree skipCurBlk size node vaildSubPageCount

/-- What `GarbageCollection` selects: the region and the block, with the indices, and the count of
its valid sub-pages. -/
structure Selected where
  index : Nat
  selectedBlockIndex : Nat
  selectedBlockNum : Int
  validSubpageCountTree : Int

/-- The first three steps of `GarbageCollection`. -/
def selectVictim (round : ℚ → ℚ) (virtualRegionList : List BlockRegion) :
    Except SelectionFault Selected := do
  let costEff := virtualRegionList.map fun r => Double.quotient round r.validSubPage r.blockCount
  let index := findMinimum costEff
  match virtualRegionList[index]? with
  | none => .error .outOfBounds
  | some gcVirtualRegion =>
    let size := gcVirtualRegion.blockCount - 1
    if size ≤ 0 then .error .emptyArray
    else
      let vaildSubPageCount ← gcVirtualRegion.mrmTreeTravse true size.toNat
        gcVirtualRegion.mrmTreeRoot fun _ => 0
      let selectedBlockIndex := findMinimumInt ((List.range size.toNat).map vaildSubPageCount)
      let selectedBlockNum ← convertIndexToBlkNum selectedBlockIndex 0
        gcVirtualRegion.allocatedBlockList
      .ok ⟨index, selectedBlockIndex, selectedBlockNum, vaildSubPageCount selectedBlockIndex⟩

/-- `AddToList` at the end, and the count of the blocks. -/
def BlockRegion.addBlock (r : BlockRegion) (val : Int) : BlockRegion :=
  { r with
    allocatedBlockList := r.allocatedBlockList ++ [val]
    currBlock := some val
    blockCount := r.blockCount + 1 }

/-- `DeleteFromList` of a block other than the current one, and the count of the blocks. -/
def BlockRegion.deleteBlock (r : BlockRegion) (val : Int) : BlockRegion :=
  { r with
    allocatedBlockList := r.allocatedBlockList.erase val
    blockCount := r.blockCount - 1 }

/-- What holds of a region: its last block is the current one, its blocks are counted, and without
blocks it has no valid sub-pages. -/
structure BlockRegion.WellFormed (r : BlockRegion) : Prop where
  nodup : r.allocatedBlockList.Nodup
  current : r.currBlock = r.allocatedBlockList.getLast?
  count : r.blockCount = r.allocatedBlockList.length
  noBlocks : r.allocatedBlockList = [] → r.validSubPage = 0

/-- The valid sub-pages that a node has in a block. -/
def Extent.validIn (blockNum : Int) (node : Extent) : Int :=
  if node.blockAddr = blockNum ∧ 0 < node.length then node.length else 0

/-- The valid sub-pages of a block according to a tree. -/
def validIn (t : BinaryTree Extent) (blockNum : Int) : Int :=
  ((inorder t).map (Extent.validIn blockNum)).sum

/-- The selection divides no zero by zero and returns a region of at least two blocks and, of its
blocks other than the current one, one with the fewest valid sub-pages. -/
def SafeSelection (round : ℚ → ℚ) (virtualRegionList : List BlockRegion) : Prop :=
  (∀ r ∈ virtualRegionList, ¬ (r.validSubPage = 0 ∧ r.blockCount = 0)) ∧
    ∃ s r, selectVictim round virtualRegionList = .ok s ∧ virtualRegionList[s.index]? = some r ∧
      2 ≤ r.blockCount ∧ r.allocatedBlockList[s.selectedBlockIndex]? = some s.selectedBlockNum ∧
      some s.selectedBlockNum ≠ r.currBlock ∧
      s.validSubpageCountTree = validIn r.mrmTreeRoot s.selectedBlockNum ∧
      ∀ b ∈ r.allocatedBlockList, some b ≠ r.currBlock →
        validIn r.mrmTreeRoot s.selectedBlockNum ≤ validIn r.mrmTreeRoot b

/-- The ratio of a region that has blocks. -/
def BlockRegion.ratio (round : ℚ → ℚ) (r : BlockRegion) : ℚ :=
  round (r.validSubPage / r.blockCount)

/-- Every region has a block; and the region with the first ratio of zero behind the first region,
or else with the first of the least ratios, has two blocks, and a tree. -/
def LeastOwnsTwo (round : ℚ → ℚ) (virtualRegionList : List BlockRegion) : Prop :=
  (∀ r ∈ virtualRegionList, r.blockCount ≠ 0) ∧
    ∃ i r m, virtualRegionList[i]? = some r ∧
      IsZeroMinimum (virtualRegionList.map (BlockRegion.ratio round)) i m ∧
      2 ≤ r.blockCount ∧ r.mrmTreeRoot ≠ .nil

section Blocks

variable {r : BlockRegion} {val : Int}

/-- A new block becomes the current one. -/
theorem BlockRegion.WellFormed.addBlock (h : r.WellFormed) (hval : val ∉ r.allocatedBlockList) :
    (r.addBlock val).WellFormed where
  nodup := List.nodup_append.mpr ⟨h.nodup, List.nodup_singleton val, by
    rintro a ha b hb rfl
    exact hval (List.mem_singleton.mp hb ▸ ha)⟩
  current := List.getLast?_concat.symm
  count := by
    change r.blockCount + 1 = _
    rw [h.count]
    simp [BlockRegion.addBlock]
  noBlocks := fun hnil => absurd hnil (by simp [BlockRegion.addBlock])

/-- A block other than the current one is given back. -/
theorem BlockRegion.WellFormed.deleteBlock (h : r.WellFormed) (hval : val ∈ r.allocatedBlockList)
    (hne : some val ≠ r.currBlock) : (r.deleteBlock val).WellFormed := by
  obtain ⟨front, cur, hlist⟩ := List.eq_nil_or_concat r.allocatedBlockList |>.resolve_left
    (List.ne_nil_of_mem hval)
  have hcurrent : r.currBlock = some cur := by
    rw [h.current, hlist, List.concat_eq_append, List.getLast?_concat]
  rw [List.concat_eq_append] at hlist
  have hfront : val ∈ front := by
    rw [hlist] at hval
    rcases List.mem_append.mp hval with hm | hm
    · exact hm
    · exact absurd (hcurrent.trans (congrArg some (List.mem_singleton.mp hm).symm)).symm hne
  have herase : r.allocatedBlockList.erase val = front.erase val ++ [cur] := by
    rw [hlist, List.erase_append_left _ hfront]
  refine ⟨h.nodup.erase val, ?_, ?_, fun hnil => ?_⟩
  · change r.currBlock = (r.allocatedBlockList.erase val).getLast?
    rw [herase, List.getLast?_concat, hcurrent]
  · change r.blockCount - 1 = ((r.allocatedBlockList.erase val).length : Int)
    have hpos := List.length_pos_of_mem hval
    rw [List.length_erase_of_mem hval, h.count]
    omega
  · change r.allocatedBlockList.erase val = [] at hnil
    rw [herase] at hnil
    exact absurd hnil (by simp)

end Blocks

section Counts

variable {front : List Int} {cur : Int} {r : BlockRegion}

/-- The search returns the first index. -/
theorem convertBlkNumToIndex_eq (blockAddr : Int) (res : Nat) (l : List Int) :
    convertBlkNumToIndex blockAddr res l =
      if blockAddr ∈ l then some (res + l.idxOf blockAddr) else none := by
  induction l generalizing res with
  | nil => rfl
  | cons b l ih =>
    rw [convertBlkNumToIndex, ih]
    by_cases hb : b = blockAddr
    · subst b
      simp
    · have hne : blockAddr ≠ b := Ne.symm hb
      rw [if_neg hb, List.idxOf_cons_ne _ hb]
      by_cases hm : blockAddr ∈ l
      · rw [if_pos hm, if_pos (List.mem_cons_of_mem _ hm)]
        congr 1
        omega
      · rw [if_neg hm, if_neg (by simp [hne, hm])]

/-- An index of the list is converted to its block. -/
theorem convertIndexToBlkNum_eq {l : List Int} {i b : Nat} {blockNum : Int}
    (h : l[i]? = some blockNum) : convertIndexToBlkNum (b + i) b l = .ok blockNum := by
  induction l generalizing i b with
  | nil => cases h
  | cons first next ih =>
    unfold convertIndexToBlkNum
    cases i with
    | zero =>
      rw [if_pos (Nat.add_zero b).symm]
      exact congrArg _ (Option.some.inj h)
    | succ i =>
      rw [if_neg (by omega)]
      have hnext : next[i]? = some blockNum := h
      rcases next with _ | ⟨second, _ | ⟨third, rest⟩⟩
      · cases hnext
      · cases i with
        | zero => exact congrArg _ (Option.some.inj hnext)
        | succ i => cases hnext
      · have hrest := @ih i (b + 1) hnext
        rwa [Nat.add_assoc, Nat.add_comm 1] at hrest

theorem validIn_nonneg (t : BinaryTree Extent) (blockNum : Int) : 0 ≤ validIn t blockNum := by
  refine List.sum_nonneg fun n hn => ?_
  obtain ⟨node, -, rfl⟩ := List.mem_map.mp hn
  unfold Extent.validIn
  split <;> omega

/-- What a node adds to the counts of the blocks but the last. -/
theorem countNode_eq (hlist : r.allocatedBlockList = front ++ [cur])
    (hnodup : (front ++ [cur]).Nodup) (hcurrent : r.currBlock = some cur) (node : Extent)
    (counts : Nat → Int) : r.countNode true front.length node counts =
      .ok fun i => counts i + (front[i]?).elim 0 fun b => node.validIn b := by
  have hcur : cur ∉ front := fun hm =>
    (List.nodup_append.mp hnodup).2.2 cur hm cur (List.mem_singleton_self cur) rfl
  have hsame : (∀ b ∈ front, node.validIn b = 0) →
      (counts = fun i => counts i + (front[i]?).elim 0 fun b => node.validIn b) := by
    intro hzero
    ext i
    cases hi : front[i]? with
    | none => exact (Int.add_zero _).symm
    | some b => rw [Option.elim_some, hzero b (List.mem_of_getElem? hi), Int.add_zero]
  unfold BlockRegion.countNode
  rw [convertBlkNumToIndex_eq, hlist, hcurrent]
  by_cases hlength : 0 < node.length
  · rw [if_pos hlength]
    by_cases hmem : node.blockAddr ∈ front
    · have hne : node.blockAddr ≠ cur := fun he => hcur (he ▸ hmem)
      have hidx : (front ++ [cur]).idxOf node.blockAddr = front.idxOf node.blockAddr :=
        List.idxOf_append_of_mem hmem
      have hlt := List.idxOf_lt_length_iff.mpr hmem
      rw [if_pos (List.mem_append_left _ hmem), hidx, Nat.zero_add]
      simp only [Option.some.injEq, hne, and_false, if_false, if_pos hlt]
      congr 1
      ext i
      by_cases hi : i = front.idxOf node.blockAddr
      · subst i
        have hget : front[front.idxOf node.blockAddr]? = some node.blockAddr := by
          rw [List.getElem?_eq_getElem hlt, List.getElem_idxOf]
        rw [Function.update_self, hget, Option.elim_some, Extent.validIn, if_pos ⟨rfl, hlength⟩]
      · rw [Function.update_of_ne hi]
        cases hget : front[i]? with
        | none => exact (Int.add_zero _).symm
        | some b =>
          have hb : node.blockAddr ≠ b := by
            rintro rfl
            obtain ⟨hilt, hib⟩ := List.getElem?_eq_some_iff.mp hget
            refine hi ?_
            rw [← hib]
            exact ((List.nodup_append.mp hnodup).1.idxOf_getElem i hilt).symm
          rw [Option.elim_some, Extent.validIn, if_neg fun h => hb h.1, Int.add_zero]
    · have hzero : ∀ b ∈ front, node.validIn b = 0 := by
        intro b hb
        rw [Extent.validIn, if_neg]
        rintro ⟨rfl, -⟩
        exact hmem hb
      rw [← hsame hzero]
      by_cases he : node.blockAddr = cur
      · rw [if_pos (by simp [he])]
        simp [he]
      · rw [if_neg (by simp [hmem, he])]
  · rw [if_neg hlength, ← hsame fun b _ => if_neg fun h => hlength h.2]

/-- What a tree adds to the counts of the blocks but the last. -/
theorem countTree_eq (hlist : r.allocatedBlockList = front ++ [cur])
    (hnodup : (front ++ [cur]).Nodup) (hcurrent : r.currBlock = some cur)
    (t : BinaryTree Extent) (counts : Nat → Int) : r.countTree true front.length t counts =
      .ok fun i => counts i + (front[i]?).elim 0 (validIn t) := by
  induction t generalizing counts with
  | nil =>
    rw [BlockRegion.countTree]
    congr 1
    ext i
    cases front[i]? with
    | none => exact (Int.add_zero _).symm
    | some b => exact (Int.add_zero _).symm
  | node node left right ihl ihr =>
    have hok : ∀ {f : Nat → Int} {k : (Nat → Int) → Except SelectionFault (Nat → Int)},
        (Except.ok f >>= k) = k f := rfl
    rw [BlockRegion.countTree, countNode_eq hlist hnodup hcurrent, hok, ihr, hok, ihl]
    congr 1
    ext i
    cases front[i]? with
    | none => simp
    | some b =>
      simp only [Option.elim_some, validIn, inorder, List.map_append, List.map_cons,
        List.sum_append, List.sum_cons]
      omega

end Counts

variable {round : ℚ → ℚ} {virtualRegionList : List BlockRegion} {r : BlockRegion}

/-- The region that is taken, if all have blocks. -/
theorem findMinimum_eq_iff (hblocks : ∀ r ∈ virtualRegionList, r.blockCount ≠ 0)
    (hne : virtualRegionList ≠ []) (i : Nat) :
    findMinimum (virtualRegionList.map fun r =>
        Double.quotient round r.validSubPage r.blockCount) = i ↔
      ∃ m, IsZeroMinimum (virtualRegionList.map (BlockRegion.ratio round)) i m := by
  have hfinite : (virtualRegionList.map fun r =>
      Double.quotient round r.validSubPage r.blockCount) =
        (virtualRegionList.map (BlockRegion.ratio round)).map Double.finite := by
    rw [List.map_map]
    exact List.map_congr_left fun r hr => if_neg (hblocks r hr)
  rw [findMinimum, hfinite, zeroMinimum_map]
  exact zeroMinimum_eq_iff (by simpa using hne)

/-- The block that is taken of a region with two blocks. -/
theorem BlockRegion.WellFormed.selects (h : r.WellFormed) (htwo : 2 ≤ r.blockCount)
    (htree : r.mrmTreeRoot ≠ .nil) : ∃ counts i b,
    r.mrmTreeTravse true (r.blockCount - 1).toNat r.mrmTreeRoot (fun _ => 0) = .ok counts ∧
      findMinimumInt ((List.range (r.blockCount - 1).toNat).map counts) = i ∧
      convertIndexToBlkNum i 0 r.allocatedBlockList = .ok b ∧
      r.allocatedBlockList[i]? = some b ∧ some b ≠ r.currBlock ∧
      counts i = validIn r.mrmTreeRoot b ∧
      ∀ b' ∈ r.allocatedBlockList, some b' ≠ r.currBlock →
        validIn r.mrmTreeRoot b ≤ validIn r.mrmTreeRoot b' := by
  have hcount := h.count
  have hnil : r.allocatedBlockList ≠ [] := by
    intro hnil
    rw [hnil, List.length_nil] at hcount
    omega
  obtain ⟨front, cur, hlist⟩ := (List.eq_nil_or_concat _).resolve_left hnil
  rw [List.concat_eq_append] at hlist
  have hnodup := h.nodup
  have hcurrent := h.current
  rw [hlist] at hnodup
  rw [hlist, List.getLast?_concat] at hcurrent
  rw [hlist, List.length_append, List.length_singleton] at hcount
  have hsize : (r.blockCount - 1).toNat = front.length := by omega
  have hcur : cur ∉ front := fun hm =>
    (List.nodup_append.mp hnodup).2.2 cur hm cur (List.mem_singleton_self cur) rfl
  rw [hsize]
  have htravse : r.mrmTreeTravse true front.length r.mrmTreeRoot (fun _ => 0) =
      .ok fun i => 0 + (front[i]?).elim 0 (validIn r.mrmTreeRoot) := by
    obtain ⟨node, left, right, hroot⟩ : ∃ node left right,
        r.mrmTreeRoot = .node node left right := by
      cases hroot : r.mrmTreeRoot with
      | nil => exact absurd hroot htree
      | node node left right => exact ⟨node, left, right, rfl⟩
    rw [← countTree_eq hlist hnodup hcurrent r.mrmTreeRoot fun _ => 0, hroot]
    rfl
  have hmap : (List.range front.length).map
      (fun i => 0 + (front[i]?).elim 0 (validIn r.mrmTreeRoot)) =
        front.map (validIn r.mrmTreeRoot) := by
    refine List.ext_getElem (by simp) fun i hi hi' => ?_
    rw [List.length_map] at hi'
    simp [List.getElem?_eq_getElem hi']
  have hfront : front.map (validIn r.mrmTreeRoot) ≠ [] := by
    intro hnil
    rw [List.map_eq_nil_iff.mp hnil, List.length_nil] at hcount
    omega
  obtain ⟨m, hm⟩ := (zeroMinimum_eq_iff hfront).mp rfl
  have hvalue : (front.map (validIn r.mrmTreeRoot))[zeroMinimum (fun x => x = 0)
      (fun x y => x < y) (front.map (validIn r.mrmTreeRoot))]? = some m := by
    rcases hm with hm | hm
    · exact hm.value_at
    · exact hm.value_at
  rw [List.getElem?_map, Option.map_eq_some_iff] at hvalue
  obtain ⟨b, hb, rfl⟩ := hvalue
  have hmem : b ∈ front := List.mem_of_getElem? hb
  have hget : r.allocatedBlockList[zeroMinimum (fun x => x = 0) (fun x y => x < y)
      (front.map (validIn r.mrmTreeRoot))]? = some b := by
    rw [hlist, List.getElem?_append_left (List.getElem?_eq_some_iff.mp hb).1]
    exact hb
  have hle := hm.le fun y hy => by
    obtain ⟨b', -, rfl⟩ := List.mem_map.mp hy
    exact validIn_nonneg _ b'
  refine ⟨_, _, b, htravse, rfl, ?_, ?_, ?_, ?_, ?_⟩
  · rw [hmap]
    have hconvert := @convertIndexToBlkNum_eq _ _ 0 _ hget
    rwa [Nat.zero_add] at hconvert
  · rw [hmap]
    exact hget
  · rw [hcurrent]
    rintro ⟨⟩
    exact hcur hmem
  · rw [hmap]
    have hbi : front[findMinimumInt (front.map (validIn r.mrmTreeRoot))]? = some b := hb
    rw [hbi, Option.elim_some, Int.zero_add]
  · intro b' hb' hne
    refine hle _ (List.mem_map_of_mem ?_)
    rw [hlist] at hb'
    rcases List.mem_append.mp hb' with hm' | hm'
    · exact hm'
    · exact absurd (hcurrent.trans (congrArg some (List.mem_singleton.mp hm').symm)).symm hne

/-- A selection that returns has taken a region with a tree. -/
theorem selectVictim_ok {s : Selected} (h : selectVictim round virtualRegionList = .ok s) :
    s.index = findMinimum (virtualRegionList.map fun r =>
        Double.quotient round r.validSubPage r.blockCount) ∧
      ∀ r, virtualRegionList[s.index]? = some r → r.mrmTreeRoot ≠ .nil := by
  unfold selectVictim at h
  simp only at h
  generalize findMinimum (virtualRegionList.map fun r =>
    Double.quotient round r.validSubPage r.blockCount) = index at h ⊢
  cases hregion : virtualRegionList[index]? with
  | none =>
    rw [hregion] at h
    cases h
  | some gcVirtualRegion =>
    rw [hregion] at h
    simp only at h
    split at h
    · cases h
    · cases htravse : gcVirtualRegion.mrmTreeTravse true (gcVirtualRegion.blockCount - 1).toNat
        gcVirtualRegion.mrmTreeRoot fun _ => 0 with
      | error fault =>
        rw [htravse] at h
        cases h
      | ok counts =>
        rw [htravse] at h
        cases hconvert : convertIndexToBlkNum
            (findMinimumInt ((List.range (gcVirtualRegion.blockCount - 1).toNat).map counts)) 0
              gcVirtualRegion.allocatedBlockList with
        | error fault =>
          change (Except.bind (convertIndexToBlkNum _ 0 _) _) = _ at h
          rw [hconvert] at h
          cases h
        | ok selectedBlockNum =>
          change (Except.bind (convertIndexToBlkNum _ 0 _) _) = _ at h
          rw [hconvert] at h
          obtain rfl := Except.ok.inj h
          refine ⟨rfl, fun r hr hnil => ?_⟩
          obtain rfl := Option.some.inj (hregion.symm.trans hr)
          rw [hnil] at htravse
          cases htravse

/-- The selection is safe exactly when every region has a block and the region of the least ratio
has two. -/
theorem selectVictim_safe_iff (round : ℚ → ℚ) {virtualRegionList : List BlockRegion}
    (hwf : ∀ r ∈ virtualRegionList, r.WellFormed)
    (htwo : ∃ r ∈ virtualRegionList, 2 ≤ r.blockCount) :
    SafeSelection round virtualRegionList ↔ LeastOwnsTwo round virtualRegionList := by
  obtain ⟨owner, howner, -⟩ := htwo
  have hne : virtualRegionList ≠ [] := List.ne_nil_of_mem howner
  constructor
  · rintro ⟨hdivides, s, r, hselect, hr, hlarge, -⟩
    have hblocks : ∀ r ∈ virtualRegionList, r.blockCount ≠ 0 := by
      intro r hr hzero
      have hcount := (hwf r hr).count
      have hnil : r.allocatedBlockList = [] := List.eq_nil_of_length_eq_zero (by omega)
      exact hdivides r hr ⟨(hwf r hr).noBlocks hnil, hzero⟩
    obtain ⟨hindex, htree⟩ := selectVictim_ok hselect
    obtain ⟨m, hm⟩ := (findMinimum_eq_iff hblocks hne _).mp hindex.symm
    exact ⟨hblocks, s.index, r, m, hr, hm, hlarge, htree r hr⟩
  · rintro ⟨hblocks, i, r, m, hr, hm, hlarge, htree⟩
    refine ⟨fun r hr hzero => hblocks r hr hzero.2, ?_⟩
    obtain ⟨counts, j, b, htravse, rfl, hconvert, hget, hcurrent, hcount, hle⟩ :=
      (hwf r (List.mem_of_getElem? hr)).selects hlarge htree
    refine ⟨⟨i, _, b, _⟩, r, ?_, hr, hlarge, hget, hcurrent, hcount, hle⟩
    unfold selectVictim
    simp only [(findMinimum_eq_iff hblocks hne i).mpr ⟨m, hm⟩, hr]
    rw [if_neg (by omega), htravse]
    change Except.bind (convertIndexToBlkNum _ 0 _) _ = _
    rw [hconvert]
    rfl

/-- A region with a full block 5 and a current block 6. -/
def twoBlockRegion : BlockRegion where
  allocatedBlockList := [5, 6]
  mrmTreeRoot := .node ⟨0, 4, 0, 5, 0, 0⟩ .nil .nil
  currBlock := some 6
  blockCount := 2
  validSubPage := 4

theorem twoBlockRegion_wellFormed : twoBlockRegion.WellFormed :=
  ⟨by decide, rfl, rfl, fun hnil => nomatch hnil⟩

theorem ratio_twoBlockRegion (round : ℚ → ℚ) : twoBlockRegion.ratio round = round 2 := by
  rw [BlockRegion.ratio, twoBlockRegion]
  norm_num

/-- A region with the full blocks 8 and 9, in which two sub-pages and one are valid, and a current
block 7. -/
def threeBlockRegion : BlockRegion where
  allocatedBlockList := [8, 9, 7]
  mrmTreeRoot := .node ⟨64, 2, 0, 8, 0, 0⟩ .nil (.node ⟨80, 1, 0, 9, 0, 0⟩ .nil .nil)
  currBlock := some 7
  blockCount := 3
  validSubPage := 3

theorem ratio_threeBlockRegion (round : ℚ → ℚ) : threeBlockRegion.ratio round = round 1 := by
  rw [BlockRegion.ratio, threeBlockRegion]
  norm_num

/-- Of two regions the second one has the lesser ratio, and two blocks that are not the current
one. -/
theorem selectVictim_safe_pair : SafeSelection id [twoBlockRegion, threeBlockRegion] := by
  have hwf : ∀ r ∈ [twoBlockRegion, threeBlockRegion], r.WellFormed := by
    intro r hr
    rcases List.mem_pair.mp hr with rfl | rfl
    · exact twoBlockRegion_wellFormed
    · exact ⟨by decide, rfl, rfl, fun hnil => nomatch hnil⟩
  have hblocks : ∀ r ∈ [twoBlockRegion, threeBlockRegion], r.blockCount ≠ 0 := by
    simp [twoBlockRegion, threeBlockRegion]
  refine (selectVictim_safe_iff id hwf ⟨twoBlockRegion, by simp, by decide⟩).mpr
    ⟨hblocks, 1, threeBlockRegion, 1, rfl, .inr ?_, by decide, fun hnil => nomatch hnil⟩
  simp only [List.map_cons, List.map_nil, ratio_twoBlockRegion, ratio_threeBlockRegion, id_eq]
  refine ⟨rfl, fun j y hj hy => ?_, fun j y hj hy => ?_, fun j y hy => ?_⟩
  · match j, hj, hy with
    | 1, _, hy => exact Option.some.inj hy ▸ one_ne_zero
  · match j, hj, hy with
    | 0, _, hy => exact Option.some.inj hy ▸ one_lt_two
  · match j, hy with
    | 0, hy => exact Option.some.inj hy ▸ one_le_two
    | 1, hy => exact (Option.some.inj hy).le

/-- A region that no request has been for yet: its ratio is zero by zero. -/
def unusedRegion : BlockRegion := ⟨[], .nil, none, 0, 0⟩

/-- A region with a single block, in which one sub-page is valid. -/
def oneBlockRegion : BlockRegion := ⟨[7], .node ⟨64, 1, 0, 7, 0, 0⟩ .nil .nil, some 7, 1, 1⟩

/-- Beside a region with two blocks, a region without blocks is divided zero by zero, and one with
a single block and a lesser ratio is taken, with an array of no elements. -/
theorem selectVictim_faults :
    (∀ round, ¬ SafeSelection round [twoBlockRegion, unusedRegion]) ∧
      ∀ round : ℚ → ℚ, 0 < round 1 → round 1 < round 2 →
        selectVictim round [twoBlockRegion, oneBlockRegion] = .error .emptyArray := by
  constructor
  · rintro round ⟨hdivides, -⟩
    exact hdivides unusedRegion (by simp) ⟨rfl, rfl⟩
  · intro round hpos hless
    have hratio : oneBlockRegion.ratio round = round 1 := by
      rw [BlockRegion.ratio, oneBlockRegion]
      norm_num
    have hblocks : ∀ r ∈ [twoBlockRegion, oneBlockRegion], r.blockCount ≠ 0 := by
      simp [twoBlockRegion, oneBlockRegion]
    have hminimum : IsZeroMinimum
        ([twoBlockRegion, oneBlockRegion].map (BlockRegion.ratio round)) 1 (round 1) := by
      simp only [List.map_cons, List.map_nil, ratio_twoBlockRegion, hratio]
      refine .inr ⟨rfl, fun j y hj hy => ?_, fun j y hj hy => ?_, fun j y hy => ?_⟩
      · match j, hj, hy with
        | 1, _, hy => exact Option.some.inj hy ▸ hpos.ne'
      · match j, hj, hy with
        | 0, _, hy => exact Option.some.inj hy ▸ hless
      · match j, hy with
        | 0, hy => exact Option.some.inj hy ▸ hless.le
        | 1, hy => exact Option.some.inj hy ▸ le_rfl
    unfold selectVictim
    simp only [(findMinimum_eq_iff hblocks (by simp) 1).mpr ⟨_, hminimum⟩]
    rfl

end WiscKey.Beyond
