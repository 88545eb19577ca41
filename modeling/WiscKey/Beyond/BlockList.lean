import WiscKey.Library.Ring
import WiscKey.Beyond.Region

/-!
# The block list of a region

The blocks of a virtual region are in a list of nodes, of which the region has the first one and the
last. A call that reads or writes a node that is not allocated has no value.
-/

namespace WiscKey.Beyond

/-- `NULL`. -/
def nullPointer : Pointer := 0

/-- The memory of the nodes of type `blockLinkedList`, and the two nodes that `virtualRegion`
points to. -/
structure BlockList where
  blockNum : Pointer → Int
  next : Pointer → Pointer
  allocated : Pointer → Bool
  allocatedBlockListHead : Pointer
  currBlock : Pointer

namespace BlockList

/-- The fields of a new node. -/
def store (l : BlockList) (ptr : Pointer) (val : Int) : BlockList :=
  { l with
    blockNum := Function.update l.blockNum ptr val
    next := Function.update l.next ptr nullPointer
    allocated := Function.update l.allocated ptr true }

/-- `CreateList`, with what `malloc` gives. -/
def createList (l : BlockList) (ptr : Pointer) (val : Int) : BlockList :=
  if ptr = nullPointer then l else l.store ptr val

/-- `AddToList`, with what `malloc` gives. -/
def addToList (l : BlockList) (val : Int) (addToEnd : Bool) (ptr : Pointer) : Option BlockList :=
  if l.allocatedBlockListHead = nullPointer then
    some { l.createList ptr val with allocatedBlockListHead := ptr, currBlock := ptr }
  else if ptr = nullPointer then some l
  else
    let l := l.store ptr val
    if addToEnd then
      if l.allocated l.currBlock then
        some { l with next := Function.update l.next l.currBlock ptr, currBlock := ptr }
      else none
    else
      some { l with
        next := Function.update l.next ptr l.allocatedBlockListHead
        allocatedBlockListHead := ptr }

/-- The loop of `SearchInList`: the node in front of the one found, and the one found. -/
def searchLoop (l : BlockList) (val : Int) :
    Nat → Pointer → Pointer → Option (Option (Pointer × Pointer))
  | 0, _, _ => none
  | rounds + 1, ptr, tmp =>
    if ptr = nullPointer then some none
    else if l.allocated ptr then
      if l.blockNum ptr = val then some (some (tmp, ptr))
      else searchLoop l val rounds (l.next ptr) ptr
    else none

/-- `SearchInList`, with rounds granted to its loop. -/
def searchInList (l : BlockList) (rounds : Nat) (val : Int) :
    Option (Option (Pointer × Pointer)) :=
  l.searchLoop val rounds l.allocatedBlockListHead nullPointer

/-- The rest of `DeleteFromList`, of the node found and of the one in front of it, which the search
has read. -/
def removeNode (l : BlockList) (prev del : Pointer) : BlockList :=
  let l :=
    if prev ≠ nullPointer then { l with next := Function.update l.next prev (l.next del) } else l
  let l :=
    if del = l.currBlock then { l with currBlock := prev }
    else if del = l.allocatedBlockListHead then { l with allocatedBlockListHead := l.next del }
    else l
  { l with allocated := Function.update l.allocated del false }

/-- `DeleteFromList`. -/
def deleteFromList (l : BlockList) (rounds : Nat) (val : Int) : Option (Int × BlockList) :=
  (l.searchInList rounds val).map fun
    | none => (-1, l)
    | some (prev, del) => (0, l.removeNode prev del)

/-- The nodes that the region has, in order: the first one is the head and the last one the current
block, and all are allocated. -/
structure Lists (l : BlockList) (nodes : List Pointer) : Prop where
  linked : Linked l.next nullPointer nodes
  head : l.allocatedBlockListHead = nodes.headD nullPointer
  last : l.currBlock = nodes.getLastD nullPointer
  nodup : nodes.Nodup
  allocated : ∀ p ∈ nodes, l.allocated p = true
  null : l.allocated nullPointer = false

/-- The region has a list of these blocks. -/
def HasBlocks (l : BlockList) (blocks : List Int) : Prop :=
  ∃ nodes, l.Lists nodes ∧ nodes.map l.blockNum = blocks

/-- The lists that calls of `AddToList` build, from the empty one. `malloc` gives NULL, or a node
that is not allocated. -/
inductive Built : BlockList → List Int → Prop
  | empty {l : BlockList} (hhead : l.allocatedBlockListHead = nullPointer)
    (hcurr : l.currBlock = nullPointer) (hnull : l.allocated nullPointer = false) : Built l []
  | add {l l' : BlockList} {blocks : List Int} (h : Built l blocks) (val : Int) (addToEnd : Bool)
    (ptr : Pointer) (hfresh : l.allocated ptr = false)
    (hadd : l.addToList val addToEnd ptr = some l') :
    Built l' (if ptr = nullPointer then blocks else if addToEnd then blocks ++ [val]
      else val :: blocks)

variable {l l' : BlockList} {nodes front back : List Pointer} {blocks : List Int} {val : Int}
  {ptr del : Pointer}

theorem Lists.ne_null (h : l.Lists nodes) {p : Pointer} (hp : p ∈ nodes) : p ≠ nullPointer := by
  rintro rfl
  exact Bool.noConfusion ((h.allocated _ hp).symm.trans h.null)

theorem Lists.head_eq_null_iff (h : l.Lists nodes) :
    l.allocatedBlockListHead = nullPointer ↔ nodes = [] := by
  rw [h.head]
  cases nodes with
  | nil => exact iff_of_true rfl rfl
  | cons p nodes => exact iff_of_false (h.ne_null List.mem_cons_self) (List.cons_ne_nil _ _)

/-- A new node is not one of the list. -/
theorem Lists.not_mem (h : l.Lists nodes) (hfresh : l.allocated ptr = false) : ptr ∉ nodes := by
  intro hmem
  exact Bool.noConfusion ((h.allocated _ hmem).symm.trans hfresh)

/-- The memory with a new node still has the list. -/
theorem Lists.store (h : l.Lists nodes) (hfresh : l.allocated ptr = false)
    (hptr : ptr ≠ nullPointer) (val : Int) : (l.store ptr val).Lists nodes ∧
      nodes.map (l.store ptr val).blockNum = nodes.map l.blockNum := by
  have hnot := h.not_mem hfresh
  refine ⟨⟨h.linked.update hnot _, h.head, h.last, h.nodup, fun p hp => ?_, ?_⟩, ?_⟩
  · have hne : p ≠ ptr := fun he => hnot (he ▸ hp)
    exact (Function.update_of_ne hne _ _).trans (h.allocated p hp)
  · exact (Function.update_of_ne hptr.symm _ _).trans h.null
  · refine List.map_congr_left fun p hp => ?_
    have hne : p ≠ ptr := fun he => hnot (he ▸ hp)
    exact Function.update_of_ne hne _ _

/-- The first node of an empty list. -/
theorem Lists.first (h : l.Lists []) (hptr : ptr ≠ nullPointer) (val : Int) :
    HasBlocks { l.store ptr val with allocatedBlockListHead := ptr, currBlock := ptr } [val] := by
  refine ⟨[ptr], ⟨Function.update_self .., rfl, rfl, List.nodup_singleton _, fun p hp => ?_, ?_⟩,
    ?_⟩
  · rw [List.mem_singleton.mp hp]
    exact Function.update_self ..
  · exact (Function.update_of_ne hptr.symm _ _).trans h.null
  · exact congrArg (fun v => [v]) (Function.update_self ..)

/-- A node behind the current block. -/
theorem Lists.addToEnd (h : l.Lists nodes) (hne : nodes ≠ []) (hfresh : l.allocated ptr = false)
    (hptr : ptr ≠ nullPointer) (val : Int) :
    HasBlocks { l.store ptr val with
      next := Function.update (l.store ptr val).next l.currBlock ptr, currBlock := ptr }
      (nodes.map l.blockNum ++ [val]) := by
  have hnot := h.not_mem hfresh
  obtain ⟨hstore, hblocks⟩ := h.store hfresh hptr val
  have hlast : nodes.getLast? = some l.currBlock := by
    rw [h.last, List.getLastD_eq_getLast?, List.getLast?_eq_some_getLast hne, Option.getD_some]
  have hcurr : l.currBlock ≠ ptr := fun he => hnot (he ▸ List.mem_of_getLast? hlast)
  refine ⟨nodes ++ [ptr], ⟨?_, ?_, ?_, ?_, fun p hp => ?_, hstore.null⟩, ?_⟩
  · have hlinked := h.linked.append h.nodup hlast hnot
    rw [Function.update_comm hcurr] at hlinked
    exact hlinked
  · obtain ⟨p, nodes, rfl⟩ := List.exists_cons_of_ne_nil hne
    exact hstore.head
  · exact List.getLastD_concat.symm
  · exact h.nodup.append (List.nodup_singleton _) (List.disjoint_singleton.mpr hnot)
  · rcases List.mem_append.mp hp with hp | hp
    · exact hstore.allocated p hp
    · rw [List.mem_singleton.mp hp]
      exact Function.update_self ..
  · rw [List.map_append, ← hblocks]
    exact congrArg (fun v => _ ++ [v]) (Function.update_self ..)

/-- A node in front of the head. -/
theorem Lists.addToFront (h : l.Lists nodes) (hne : nodes ≠ []) (hfresh : l.allocated ptr = false)
    (hptr : ptr ≠ nullPointer) (val : Int) :
    HasBlocks { l.store ptr val with
      next := Function.update (l.store ptr val).next ptr l.allocatedBlockListHead
      allocatedBlockListHead := ptr } (val :: nodes.map l.blockNum) := by
  have hnot := h.not_mem hfresh
  obtain ⟨hstore, hblocks⟩ := h.store hfresh hptr val
  obtain ⟨p, nodes, rfl⟩ := List.exists_cons_of_ne_nil hne
  refine ⟨ptr :: p :: nodes, ⟨⟨?_, ?_⟩, rfl, ?_, List.nodup_cons.mpr ⟨hnot, h.nodup⟩,
    fun q hq => ?_, hstore.null⟩, ?_⟩
  · exact (Function.update_self ..).trans h.head
  · exact hstore.linked.update hnot _
  · rw [List.getLastD_cons, List.getLastD_cons]
    exact h.last.trans List.getLastD_cons
  · rcases List.mem_cons.mp hq with rfl | hq
    · exact Function.update_self ..
    · exact hstore.allocated q hq
  · rw [← hblocks, List.map_cons]
    exact congrArg (fun v => v :: _) (Function.update_self ..)

/-- `AddToList` returns, and adds the block at the end or at the beginning. -/
theorem HasBlocks.addToList (h : l.HasBlocks blocks) (val : Int) (addToEnd : Bool)
    (hfresh : l.allocated ptr = false) :
    ∃ l', l.addToList val addToEnd ptr = some l' ∧ l'.HasBlocks
      (if ptr = nullPointer then blocks else if addToEnd then blocks ++ [val]
        else val :: blocks) := by
  obtain ⟨nodes, hlists, rfl⟩ := h
  rw [BlockList.addToList]
  by_cases hempty : nodes = []
  · subst hempty
    rw [if_pos (hlists.head_eq_null_iff.mpr rfl), createList]
    by_cases hptr : ptr = nullPointer
    · rw [if_pos hptr, if_pos hptr]
      exact ⟨_, rfl, [], ⟨trivial, hptr, hptr, hlists.nodup, hlists.allocated, hlists.null⟩, rfl⟩
    · rw [if_neg hptr, if_neg hptr]
      refine ⟨_, rfl, ?_⟩
      cases addToEnd with
      | true => exact hlists.first hptr val
      | false => exact hlists.first hptr val
  · rw [if_neg (mt hlists.head_eq_null_iff.mp hempty)]
    by_cases hptr : ptr = nullPointer
    · rw [if_pos hptr, if_pos hptr]
      exact ⟨l, rfl, nodes, hlists, rfl⟩
    · rw [if_neg hptr, if_neg hptr]
      cases addToEnd with
      | true =>
        have hcurr : (l.store ptr val).allocated l.currBlock = true := by
          refine (hlists.store hfresh hptr val).1.allocated _ ?_
          rw [hlists.last, List.getLastD_eq_getLast?, List.getLast?_eq_some_getLast hempty]
          exact List.getLast_mem hempty
        simp only [if_true]
        exact ⟨_, if_pos hcurr, hlists.addToEnd hempty hfresh hptr val⟩
      | false => exact ⟨_, rfl, hlists.addToFront hempty hfresh hptr val⟩

theorem Built.hasBlocks (h : Built l blocks) : l.HasBlocks blocks := by
  induction h with
  | empty hhead hcurr hnull =>
    exact ⟨[], ⟨trivial, hhead, hcurr, List.nodup_nil, fun p hp => absurd hp List.not_mem_nil,
      hnull⟩, rfl⟩
  | add h val addToEnd ptr hfresh hadd ih =>
    obtain ⟨l', hadd', hblocks⟩ := ih.addToList val addToEnd hfresh
    rw [hadd, Option.some.injEq] at hadd'
    rwa [hadd']

section Delete

variable {rounds : Nat} {tmp : Pointer}

/-- The search goes past nodes of other blocks. -/
theorem searchLoop_spec (hlinked : Linked l.next nullPointer (front ++ del :: back))
    (hread : ∀ p ∈ front ++ del :: back, p ≠ nullPointer ∧ l.allocated p = true)
    (hother : ∀ p ∈ front, l.blockNum p ≠ val) (hdel : l.blockNum del = val)
    (hrounds : front.length < rounds) :
    l.searchLoop val rounds ((front ++ del :: back).headD nullPointer) tmp =
      some (some (front.getLastD tmp, del)) := by
  induction front generalizing rounds tmp with
  | nil =>
    obtain ⟨rounds, rfl⟩ := Nat.exists_eq_add_of_lt hrounds
    obtain ⟨hne, hallocated⟩ := hread del List.mem_cons_self
    rw [List.nil_append, List.headD_cons, searchLoop, if_neg hne, if_pos hallocated, if_pos hdel]
    rfl
  | cons p front ih =>
    rw [List.length_cons] at hrounds
    obtain ⟨rounds, rfl⟩ := Nat.exists_eq_succ_of_ne_zero (Nat.ne_zero_of_lt hrounds)
    obtain ⟨hne, hallocated⟩ := hread p List.mem_cons_self
    have hnext : l.next p = (front ++ del :: back).headD nullPointer := by
      cases front with
      | nil => exact hlinked.1
      | cons q front => exact hlinked.1
    rw [List.cons_append, List.headD_cons, searchLoop, if_neg hne, if_pos hallocated,
      if_neg (hother p List.mem_cons_self), hnext, ih hlinked.of_cons
        (fun q hq => hread q (List.mem_cons_of_mem _ hq))
        (fun q hq => hother q (List.mem_cons_of_mem _ hq)) (Nat.lt_of_succ_lt_succ hrounds),
      List.getLastD_cons]

/-- The first node of a block, in a list of nodes. -/
theorem exists_split_of_mem (blockNum : Pointer → Int) (h : val ∈ nodes.map blockNum) :
    ∃ front del back, nodes = front ++ del :: back ∧ (∀ p ∈ front, blockNum p ≠ val) ∧
      blockNum del = val ∧ (nodes.map blockNum).erase val = (front ++ back).map blockNum := by
  induction nodes with
  | nil => exact absurd h List.not_mem_nil
  | cons p nodes ih =>
    by_cases hp : blockNum p = val
    · refine ⟨[], p, nodes, rfl, fun q hq => absurd hq List.not_mem_nil, hp, ?_⟩
      rw [List.map_cons, hp, List.erase_cons_head, List.nil_append]
    · rw [List.map_cons, List.mem_cons] at h
      obtain ⟨front, del, back, rfl, hother, hdel, herase⟩ := ih (h.resolve_left (Ne.symm hp))
      refine ⟨p :: front, del, back, rfl, List.forall_mem_cons.mpr ⟨hp, hother⟩, hdel, ?_⟩
      rw [List.map_cons, List.erase_cons_tail (by simpa using hp), herase]
      rfl

/-- The nodes that are left are allocated, and NULL is not. -/
theorem Lists.allocated_update (h : l.Lists (front ++ del :: back)) :
    (∀ p ∈ front ++ back, Function.update l.allocated del false p = true) ∧
      Function.update l.allocated del false nullPointer = false := by
  have hnot : del ∉ front ++ back := (List.nodup_middle.mp h.nodup).notMem
  refine ⟨fun p hp => ?_, ?_⟩
  · have hne : p ≠ del := fun he => hnot (he ▸ hp)
    rw [Function.update_of_ne hne]
    refine h.allocated p ?_
    rcases List.mem_append.mp hp with hp | hp
    · exact List.mem_append_left _ hp
    · exact List.mem_append_right _ (List.mem_cons_of_mem _ hp)
  · rw [Function.update_of_ne (h.ne_null (by simp)).symm]
    exact h.null

/-- A node is the current block only where no node is behind it. -/
theorem Lists.eq_currBlock_iff (h : l.Lists (front ++ del :: back)) :
    del = l.currBlock ↔ back = [] := by
  have hlast := h.last
  rcases List.eq_nil_or_concat back with rfl | ⟨back, last, rfl⟩
  · rw [List.getLastD_concat] at hlast
    exact iff_of_true hlast.symm rfl
  · rw [List.concat_eq_append, ← List.cons_append, ← List.append_assoc, List.getLastD_concat]
      at hlast
    refine iff_of_false ?_ (by simp)
    rw [hlast]
    rintro rfl
    have hnot := (List.nodup_middle.mp h.nodup).notMem
    simp at hnot

/-- The head goes, and there are more nodes behind it. -/
theorem Lists.removeHead (h : l.Lists (del :: back)) (hmore : back ≠ []) :
    (l.removeNode nullPointer del).Lists back := by
  have hcurr : del ≠ l.currBlock := mt (@Lists.eq_currBlock_iff _ [] _ _ h).mp hmore
  have hhead : del = l.allocatedBlockListHead := h.head.symm
  obtain ⟨hallocated, hnull⟩ := @Lists.allocated_update _ [] _ _ h
  obtain ⟨p, back, rfl⟩ := List.exists_cons_of_ne_nil hmore
  rw [removeNode, if_neg (not_not.mpr rfl), if_neg hcurr, if_pos hhead]
  refine ⟨h.linked.of_cons, h.linked.1, ?_, (List.nodup_cons.mp h.nodup).2, hallocated, hnull⟩
  have hlast := h.last
  rw [List.getLastD_cons, List.getLastD_cons] at hlast
  rw [List.getLastD_cons]
  exact hlast

/-- A node behind another one goes. -/
theorem Lists.removeBehind {prev : Pointer} (h : l.Lists ((front ++ [prev]) ++ del :: back)) :
    (l.removeNode prev del).Lists ((front ++ [prev]) ++ back) := by
  have hprev : prev ≠ nullPointer := h.ne_null (by simp)
  have hcurr := h.eq_currBlock_iff
  have hnodup := List.nodup_middle.mp h.nodup
  have hhead : del ≠ l.allocatedBlockListHead := by
    rintro rfl
    have hnot := hnodup.notMem
    rw [h.head] at hnot
    refine hnot (List.mem_append_left _ ?_)
    cases front with
    | nil => exact List.mem_cons_self
    | cons p front => exact List.mem_cons_self
  have hheadD : ((front ++ [prev]) ++ del :: back).headD nullPointer =
      ((front ++ [prev]) ++ back).headD nullPointer := by
    cases front with
    | nil => rfl
    | cons p front => rfl
  obtain ⟨hallocated, hnull⟩ := h.allocated_update
  have hlinked : Linked (Function.update l.next prev (l.next del)) nullPointer
      ((front ++ [prev]) ++ back) := by
    have hlinked := h.linked
    have hdistinct := hnodup.of_cons
    rw [List.append_assoc, List.singleton_append] at hlinked hdistinct ⊢
    have hnot := (List.nodup_middle.mp hdistinct).notMem
    exact hlinked.unlink (fun hp => hnot (List.mem_append_left _ hp))
      fun hp => hnot (List.mem_append_right _ hp)
  rw [removeNode, if_pos hprev]
  simp only
  by_cases hback : back = []
  · subst hback
    rw [if_pos (hcurr.mpr rfl)]
    refine ⟨hlinked, h.head.trans hheadD, ?_, hnodup.of_cons, hallocated, hnull⟩
    rw [List.append_nil, List.getLastD_concat]
  · rw [if_neg (mt hcurr.mp hback), if_neg hhead]
    refine ⟨hlinked, h.head.trans hheadD, ?_, hnodup.of_cons, hallocated, hnull⟩
    have hlast := h.last
    rcases List.eq_nil_or_concat back with rfl | ⟨back, last, rfl⟩
    · exact absurd rfl hback
    · rw [List.concat_eq_append] at hlast ⊢
      rw [← List.cons_append, ← List.append_assoc, List.getLastD_concat] at hlast
      rw [← List.append_assoc, List.getLastD_concat]
      exact hlast

/-- The only node goes, and the region still points to it. -/
theorem Lists.removeOnly (h : l.Lists [del]) :
    (l.removeNode nullPointer del).allocatedBlockListHead = del ∧
      (l.removeNode nullPointer del).allocated del = false ∧
      (l.removeNode nullPointer del).currBlock = nullPointer := by
  have hcurr : del = l.currBlock := h.last.symm
  rw [removeNode, if_neg (not_not.mpr rfl), if_pos hcurr]
  exact ⟨h.head, Function.update_self .., rfl⟩

theorem blockNum_removeNode (l : BlockList) (prev del : Pointer) :
    (l.removeNode prev del).blockNum = l.blockNum := by
  simp only [removeNode]
  split_ifs
  all_goals rfl

/-- `DeleteFromList` finds the first node of a block, and takes it out. -/
theorem Lists.deleteFromList (h : l.Lists (front ++ del :: back))
    (hother : ∀ p ∈ front, l.blockNum p ≠ val) (hdel : l.blockNum del = val)
    (hrounds : front.length < rounds) : l.deleteFromList rounds val =
      some (0, l.removeNode (front.getLastD nullPointer) del) := by
  rw [BlockList.deleteFromList, searchInList, h.head,
    searchLoop_spec h.linked (fun p hp => ⟨h.ne_null hp, h.allocated p hp⟩) hother hdel hrounds]
  rfl

/-- `DeleteFromList` leaves a list of the other blocks in order, with its head and its current
block, exactly when the list has another node. -/
theorem deleteFromList_right_iff (h : Built l blocks) (hval : val ∈ blocks)
    (hrounds : blocks.length ≤ rounds) : ∃ l', l.deleteFromList rounds val = some (0, l') ∧
      (l'.HasBlocks (blocks.erase val) ↔ 2 ≤ blocks.length) := by
  obtain ⟨nodes, hlists, rfl⟩ := h.hasBlocks
  obtain ⟨front, del, back, rfl, hother, hdel, herase⟩ := exists_split_of_mem l.blockNum hval
  rw [List.length_map, List.length_append, List.length_cons] at hrounds
  refine ⟨_, hlists.deleteFromList hother hdel (by omega), ?_⟩
  rw [herase, List.length_map, List.length_append, List.length_cons]
  have hblocks := blockNum_removeNode l (front.getLastD nullPointer) del
  rcases List.eq_nil_or_concat front with rfl | ⟨front, prev, rfl⟩
  · by_cases hback : back = []
    · -- the only node
      subst hback
      refine iff_of_false ?_ (by decide)
      rintro ⟨nodes, hleft, hnone⟩
      have hnil : nodes = [] := List.map_eq_nil_iff.mp hnone
      have hhead := hleft.head_eq_null_iff.mpr hnil
      rw [show List.getLastD [] nullPointer = nullPointer from rfl, hlists.removeOnly.1] at hhead
      exact hlists.ne_null List.mem_cons_self hhead
    · have hpos := List.length_pos_iff.mpr hback
      refine iff_of_true ⟨back, hlists.removeHead hback, ?_⟩ (by omega)
      rw [hblocks, List.nil_append]
  · rw [List.concat_eq_append] at hlists hblocks ⊢
    rw [List.getLastD_concat] at hblocks ⊢
    refine iff_of_true ⟨_, hlists.removeBehind, ?_⟩ ?_
    · rw [hblocks]
    · rw [List.length_append, List.length_singleton]
      omega

/-- A region without blocks. -/
def noBlocks : BlockList := ⟨fun _ => 0, fun _ => 0, fun _ => false, nullPointer, nullPointer⟩

/-- A region with one block, number 7. -/
def oneBlock : BlockList :=
  { noBlocks.store 1 7 with allocatedBlockListHead := 1, currBlock := 1 }

theorem built_oneBlock : Built oneBlock [7] :=
  .add (@Built.empty noBlocks rfl rfl rfl) 7 true 1 rfl rfl

/-- Block 9 is added behind block 7, and block 8 in front of both. -/
theorem exists_built_three : ∃ l, Built l [8, 7, 9] := by
  have h₂ : ∃ l, oneBlock.addToList 9 true 2 = some l ∧ l.allocated 3 = false ∧
      l.addToList 8 false 3 ≠ none := ⟨_, rfl, rfl, nofun⟩
  obtain ⟨l, hadd, hfresh, hnone⟩ := h₂
  obtain ⟨l', hadd'⟩ := Option.ne_none_iff_exists'.mp hnone
  exact ⟨l', .add (.add built_oneBlock 9 true 2 rfl hadd) 8 false 3 hfresh hadd'⟩

/-- The block in the middle of three is deleted. -/
theorem deleteFromList_right_iff_threeBlocks :
    ∃ l l', Built l [8, 7, 9] ∧ l.deleteFromList 3 7 = some (0, l') ∧ l'.HasBlocks [8, 9] := by
  obtain ⟨l, hbuilt⟩ := exists_built_three
  have hmem : (7 : Int) ∈ [(8 : Int), 7, 9] := by decide
  obtain ⟨l', hdelete, hiff⟩ := deleteFromList_right_iff hbuilt hmem (Nat.le_refl 3)
  exact ⟨l, l', hbuilt, hdelete, hiff.mpr (by decide)⟩

end Delete

end BlockList

/-- A list of one block is built, and the block is deleted. The head is still its node, which is
free, and the current block is NULL: the next call of `AddToList` reads a node that is not there. -/
theorem BlockList.only_block_stays :
    ∃ l l' : BlockList, Built l [7] ∧ l.deleteFromList 1 7 = some (0, l') ∧
      ¬ l'.HasBlocks ([7].erase 7) ∧ l'.allocatedBlockListHead = 1 ∧ l'.allocated 1 = false ∧
      l'.currBlock = nullPointer ∧ l'.addToList 8 true 2 = none := by
  have hlists : oneBlock.Lists [1] :=
    ⟨rfl, rfl, rfl, List.nodup_singleton 1, fun p hp => by rw [List.mem_singleton.mp hp]; rfl, rfl⟩
  obtain ⟨hhead, hallocated, hcurr⟩ := hlists.removeOnly
  refine ⟨oneBlock, oneBlock.removeNode nullPointer 1, built_oneBlock, rfl, ?_, hhead, hallocated,
    hcurr, rfl⟩
  rintro ⟨nodes, hleft, hnone⟩
  have hnull := hleft.head_eq_null_iff.mpr (List.map_eq_nil_iff.mp hnone)
  rw [hhead] at hnull
  exact absurd hnull (by decide)

end WiscKey.Beyond
