import WiscKey.Flash.LruListRun

/-!
# The list of the regions in SRAM

The list of the mapping table with a size for each element. The sizes of the listed elements and
the free size add up to the SRAM; a loop evicts from the tail until there is room, and self checks
walk the list and leave the program when the numbers do not agree. `FlushVirtualRegion` leaves the
list alone here, and the time counters are left out.
-/

namespace WiscKey.Flash

/-- `LRUSRAMList_t`, with the elements of type `LRUSRAMElement_t`. The sizes of the elements are
an array of their own, beside that of the links, the keys and the flags. -/
structure LRUSRAMList extends LRUListD where
  size : Int → Int
  freeSize : Int

/-- The number of elements of `CreateLRUListS`. -/
def lruListSLength (sramSizeLimit basedUnitSize len : Int) : Int :=
  if len = 0 ∨ sramSizeLimit < len * basedUnitSize then sramSizeLimit.tdiv basedUnitSize else len

/-- `CreateLRUListS`, over what `malloc` finds in memory. -/
def createLRUListS (memory : Int → LRUElementD) (sizes : Int → Int)
    (sramSizeLimit basedUnitSize len : Int) : LRUSRAMList :=
  let len := lruListSLength sramSizeLimit basedUnitSize len
  { createLRUListD memory len with
    size := fun i => if 0 ≤ i ∧ i < len then 0 else sizes i
    freeSize := sramSizeLimit }

/-- The elements that the loops of the self checks visit, in the rounds that they are granted. -/
def LRUListD.visits (l : LRUListD) : Nat → Int → Option (List Int)
  | 0, _ => none
  | fuel + 1, pos =>
    if pos = lruElementPointToNull then some []
    else (l.visits fuel (l.element pos).next).map (pos :: ·)

/-- The statements with which `RemoveTheTailElemenetFromLRUListS` takes the tail out of the
list. -/
def LRUListD.unlinkTail (l : LRUListD) (pos : Int) : LRUListD :=
  let l := { l with len := l.len - 1 }
  if 0 < l.len then
    let l := { l with tail := (l.element pos).previous }
    l.setNext l.tail lruElementPointToNull
  else { l with head := lruElementPointToNull, tail := lruElementPointToNull }

namespace LRUSRAMList

variable (sramSizeLimit : Int) (fuel : Nat)

/-- `SelfCheckSize`: no list, if it calls `exit`. -/
def selfCheckSize (l : LRUSRAMList) : Option LRUSRAMList :=
  (l.visits fuel l.head).bind fun visited =>
    if (visited.map l.size).sum + l.freeSize ≠ sramSizeLimit then none else some l

/-- `SelfCheck`: no list, if it calls `exit`. -/
def selfCheck (l : LRUSRAMList) : Option LRUSRAMList :=
  (l.visits fuel l.head).bind fun visited =>
    if (visited.length : Int) ≠ l.len then none else some l

/-- The search loop of `IsElemenetInLRUListS`. -/
def findElementS (l : LRUSRAMList) (key : Int) : Nat → Int → Option Int
  | 0, _ => none
  | rounds + 1, ptr =>
    if (l.element ptr).key = key ∧ ptr ≠ lruElementPointToNull then some ptr
    else l.findElementS key rounds (l.element ptr).next

/-- `IsElemenetInLRUListS`: the element's position, if the key is found. -/
def isElemenetInLRUListS (l : LRUSRAMList) (key : Int) : Option Int :=
  l.findElementS key l.len.toNat l.head

/-- `MoveElemenetToTheHeadofLRUListS`. -/
def moveElemenetToTheHeadofLRUListS (l : LRUSRAMList) (key pos : Int) : Option LRUSRAMList :=
  if (l.element pos).key ≠ key then some l
  else if pos ≠ lruElementPointToNull ∧ 1 < l.len ∧ (l.element l.head).key ≠ key then
    selfCheck fuel { l with toLRUListD := (l.unlinkElement pos).linkHead pos }
  else selfCheck fuel l

/-- `PutElementToFreeElementListS`. -/
def putElementToFreeElementListS (l : LRUSRAMList) (pos : Int) : Option LRUSRAMList :=
  selfCheckSize sramSizeLimit fuel
    { (l.putElementToFreeElementListD pos).setDirty pos false with
      size := Function.update l.size pos 0
      freeSize := l.freeSize + l.size pos }

/-- The self checks at the end of several functions. -/
def selfChecks (l : LRUSRAMList) : Option LRUSRAMList :=
  (selfCheck fuel l).bind (selfCheckSize sramSizeLimit fuel)

/-- `RemoveTheTailElemenetFromLRUListS`: the key and the position, if there is an element. -/
def removeTheTailElemenetFromLRUListS (l : LRUSRAMList) :
    Option (Option (Int × Int) × LRUSRAMList) :=
  if l.len = 0 then some (none, l)
  else
    let key := (l.element l.tail).key
    let pos := l.tail
    let removed :=
      if (pos = l.tail ∧ pos ≠ l.head) ∨ (pos = l.tail ∧ l.head = l.tail ∧ l.len = 1) then
        putElementToFreeElementListS sramSizeLimit fuel
          { l with toLRUListD := l.unlinkTail pos } pos
      else some l
    (removed.bind (selfChecks sramSizeLimit fuel)).map fun l => (some (key, pos), l)

/-- The loop of `UpdateLruItemSize` that evicts until the element has room. -/
def makeRoom (pos newSize : Int) : Nat → LRUSRAMList → Option LRUSRAMList
  | 0, _ => none
  | rounds + 1, l =>
    if l.freeSize < newSize - l.size pos then
      (removeTheTailElemenetFromLRUListS sramSizeLimit fuel l).bind fun r =>
        makeRoom pos newSize rounds r.2
    else some l

/-- `UpdateLruItemSize`. -/
def updateLruItemSize (l : LRUSRAMList) (pos newSize : Int) : Option LRUSRAMList :=
  if newSize < l.size pos then
    selfCheckSize sramSizeLimit fuel { l with
      size := Function.update l.size pos newSize
      freeSize := l.freeSize + (l.size pos - newSize) }
  else if l.size pos < newSize then
    (makeRoom sramSizeLimit fuel pos newSize fuel l).bind fun l =>
      selfCheckSize sramSizeLimit fuel { l with
        size := Function.update l.size pos newSize
        freeSize := l.freeSize - (newSize - l.size pos) }
  else selfCheckSize sramSizeLimit fuel { l with size := Function.update l.size pos newSize }

/-- `IsLRUListFullS`, which `GetFreeElementFromFreeList` checks too. -/
def isLRUListFullS (l : LRUSRAMList) (size : Int) : Bool := l.freeLen = 0 ∨ l.freeSize < size

/-- `PutElementToTheHeadOfLRUListS`: no element, if the list is full. The links, the keys and
the lengths change as in the list of the mapping table. -/
def putElementToTheHeadOfLRUListS (l : LRUSRAMList) (key size : Int) :
    Option (Option (Int × LRUSRAMList)) :=
  if l.isLRUListFullS size then some none
  else
    match l.putElementToTheHeadOfLRUListD key with
    | none => some none
    | some (pos, links) =>
      (selfChecks sramSizeLimit fuel { links with
        size := Function.update l.size pos size
        freeSize := l.freeSize - size }).map fun l => some (pos, l)

/-- The loop of `AddElemenetToTheHeadOfLRUListS`. -/
def addRounds (key size : Int) : Nat → LRUSRAMList → Option (Int × LRUSRAMList)
  | 0, _ => none
  | rounds + 1, l =>
    (putElementToTheHeadOfLRUListS sramSizeLimit fuel l key size).bind fun
      | some r => some r
      | none =>
        (removeTheTailElemenetFromLRUListS sramSizeLimit fuel l).bind fun r =>
          addRounds key size rounds r.2

/-- `AddElemenetToTheHeadOfLRUListS`: the element's position and the list. -/
def addElemenetToTheHeadOfLRUListS (l : LRUSRAMList) (key size : Int) :
    Option (Int × LRUSRAMList) :=
  (addRounds sramSizeLimit fuel key size fuel l).bind fun r =>
    (selfCheck fuel r.2).map fun l => (r.1, l)

end LRUSRAMList

variable {capacity fuel : Nat} {used unused l₁ l₂ : List Int} {pos key size : Int}
  {sramSizeLimit : Int}

/-- The loops of the self checks visit what the links lead to, in one round more. -/
theorem LRUListD.visits_eq {l : LRUListD} {a : Int} {visited : List Int}
    (h : Visits l.nexts lruElementPointToNull a visited)
    (hnull : lruElementPointToNull ∉ visited) (fuel : Nat) :
    l.visits fuel a = if visited.length < fuel then some visited else none := by
  induction fuel generalizing a visited with
  | zero => rfl
  | succ fuel ih =>
    cases visited with
    | nil =>
      obtain rfl : a = lruElementPointToNull := h
      rw [visits, if_pos rfl]
      exact (if_pos (Nat.succ_pos fuel)).symm
    | cons b rest =>
      obtain ⟨rfl, hrest⟩ := h
      rw [List.mem_cons, not_or] at hnull
      have hnext : l.visits fuel (l.element a).next =
          if rest.length < fuel then some rest else none := ih hrest hnull.2
      rw [visits, if_neg (Ne.symm hnull.1), hnext, List.length_cons]
      by_cases hlt : rest.length < fuel
      · rw [if_pos hlt, if_pos (Nat.succ_lt_succ hlt)]
        rfl
      · rw [if_neg hlt, if_neg fun hs => hlt (Nat.lt_of_succ_lt_succ hs)]
        rfl

/-- What the list keeps: the slots are on the two lists, unused ones have no size, and the sizes of
the others and the free size make up the SRAM. An empty list ends at its head, or still has the
head that it was created with. -/
structure SramOk (sramSizeLimit : Int) (capacity : Nat) (used unused : List Int)
    (l : LRUSRAMList) : Prop where
  whole : LruWhole capacity used unused l.toLRUListD
  sizes : ∀ p ∈ used, 0 ≤ l.size p
  unusedSizes : ∀ p ∈ unused, l.size p = 0
  total : l.freeSize + (used.map l.size).sum = sramSizeLimit
  freeSize : 0 ≤ l.freeSize
  emptyHead : used = [] → l.head = lruElementPointToNull ∨ l.head = l.freeHead ∧ unused ≠ []

/-- The list after an eviction or an insertion: an empty one ends at its head. -/
structure SramWalked (sramSizeLimit : Int) (capacity : Nat) (used unused : List Int)
    (l : LRUSRAMList) : Prop extends SramOk sramSizeLimit capacity used unused l where
  head : used = [] → l.head = lruElementPointToNull

section Checks

variable {l : LRUSRAMList}

theorem SramOk.null_notMem (h : SramOk sramSizeLimit capacity used unused l) :
    lruElementPointToNull ∉ used ++ unused := by
  intro hm
  have hnonneg := h.whole.rep.nonneg _ hm
  unfold lruElementPointToNull at hnonneg
  omega

/-- The elements that a walk from the head visits have the sizes of those in use. -/
theorem SramOk.visits (h : SramOk sramSizeLimit capacity used unused l) :
    ∃ visited, Visits l.nexts lruElementPointToNull l.head visited ∧
      lruElementPointToNull ∉ visited ∧ visited.length ≤ capacity ∧
      (visited.map l.size).sum = (used.map l.size).sum := by
  have hnull := h.null_notMem
  have hlength := h.whole.length_add
  rw [List.mem_append, not_or] at hnull
  rcases used with _ | ⟨first, rest⟩
  · rcases h.emptyHead rfl with hhead | ⟨hhead, hne⟩
    · exact ⟨[], hhead, List.not_mem_nil, Nat.zero_le _, rfl⟩
    · obtain ⟨first, rest, rfl⟩ := List.exists_cons_of_ne_nil hne
      refine ⟨first :: rest, ?_, hnull.2, by omega, ?_⟩
      · rw [hhead, h.whole.freeHead first rfl]
        exact h.whole.freeNext.visits rfl
      · refine List.sum_eq_zero fun n hn => ?_
        obtain ⟨p, hp, rfl⟩ := List.mem_map.mp hn
        exact h.unusedSizes p hp
  · refine ⟨first :: rest, ?_, hnull.1, by omega, rfl⟩
    rw [h.whole.rep.threaded.head first rfl]
    exact h.whole.rep.threaded.next.visits rfl

/-- `SelfCheckSize` finds the sizes right. -/
theorem SramOk.selfCheckSize (h : SramOk sramSizeLimit capacity used unused l)
    (hfuel : capacity < fuel) : LRUSRAMList.selfCheckSize sramSizeLimit fuel l = some l := by
  obtain ⟨visited, hvisits, hnull, hlength, hsum⟩ := h.visits
  have htotal := h.total
  rw [LRUSRAMList.selfCheckSize, LRUListD.visits_eq hvisits hnull, if_pos (by omega),
    Option.bind_some, hsum, if_neg (not_not.mpr (by omega))]

/-- `SelfCheck` finds the length right. -/
theorem SramWalked.selfCheck (h : SramWalked sramSizeLimit capacity used unused l)
    (hfuel : capacity < fuel) : LRUSRAMList.selfCheck fuel l = some l := by
  have hnull := h.null_notMem
  have hlength := h.whole.length_add
  have hvisits : Visits l.nexts lruElementPointToNull l.head used := by
    cases used with
    | nil => exact h.head rfl
    | cons first rest =>
      rw [h.whole.rep.threaded.head first rfl]
      exact h.whole.rep.threaded.next.visits rfl
  rw [List.mem_append, not_or] at hnull
  rw [LRUSRAMList.selfCheck, LRUListD.visits_eq hvisits hnull.1, if_pos (by omega),
    Option.bind_some, h.whole.rep.len, if_neg (not_not.mpr rfl)]

theorem SramWalked.selfChecks (h : SramWalked sramSizeLimit capacity used unused l)
    (hfuel : capacity < fuel) : LRUSRAMList.selfChecks sramSizeLimit fuel l = some l := by
  rw [LRUSRAMList.selfChecks, h.selfCheck hfuel, Option.bind_some, h.selfCheckSize hfuel]

/-- The self checks change nothing. -/
theorem LRUSRAMList.eq_of_selfCheckSize {l' : LRUSRAMList}
    (h : LRUSRAMList.selfCheckSize sramSizeLimit fuel l = some l') : l = l' := by
  obtain ⟨visited, -, hcheck⟩ := Option.bind_eq_some_iff.mp h
  split at hcheck
  · cases hcheck
  · exact Option.some.inj hcheck

theorem LRUSRAMList.eq_of_selfCheck {l' : LRUSRAMList}
    (h : LRUSRAMList.selfCheck fuel l = some l') : l = l' := by
  obtain ⟨visited, -, hcheck⟩ := Option.bind_eq_some_iff.mp h
  split at hcheck
  · cases hcheck
  · exact Option.some.inj hcheck

theorem LRUSRAMList.eq_of_selfChecks {l' : LRUSRAMList}
    (h : LRUSRAMList.selfChecks sramSizeLimit fuel l = some l') : l = l' := by
  obtain ⟨l₁, hcheck, hcheckSize⟩ := Option.bind_eq_some_iff.mp h
  obtain rfl := eq_of_selfCheck hcheck
  exact eq_of_selfCheckSize hcheckSize

end Checks

theorem LRUListD.putFree_head (l : LRUListD) (pos : Int) :
    (l.putElementToFreeElementListD pos).head = l.head := by
  unfold putElementToFreeElementListD
  dsimp only
  split <;> rfl

/-- Taking the tail out, and putting its slot in front of the unused ones. -/
theorem LruWhole.unlinkTail {l : LRUListD} (h : LruWhole capacity (used ++ [pos]) unused l) :
    LruWhole capacity used (pos :: unused)
        ((l.unlinkTail pos).putElementToFreeElementListD pos) ∧
      (used = [] → ((l.unlinkTail pos).putElementToFreeElementListD pos).head =
        lruElementPointToNull) := by
  have hlen := h.rep.len
  rw [List.length_append, List.length_singleton] at hlen
  have htail : l.tail = pos := h.rep.threaded.tail pos (by simp)
  have hsome : l.len ≠ 0 := by omega
  by_cases hmore : 0 < l.len - 1
  · obtain ⟨l', hremove, h', -⟩ := h.removeTail 0 0
    unfold LRUListD.removeTheTailElemenetFromLRUListD at hremove
    rw [if_neg hsome] at hremove
    simp only [htail, if_pos hmore, Option.some.injEq, Prod.mk.injEq] at hremove
    obtain ⟨-, rfl, -⟩ := hremove
    have hform : l.unlinkTail pos = ({ l with
        len := l.len - 1, tail := (l.element pos).previous } : LRUListD).setNext
          (l.element pos).previous lruElementPointToNull := if_pos hmore
    rw [hform]
    refine ⟨h', ?_⟩
    rintro rfl
    rw [List.length_nil] at hlen
    omega
  · obtain rfl : used = [] := List.eq_nil_of_length_eq_zero (by omega)
    obtain ⟨hnot, hpos, hslots⟩ := h.split
    have hform : l.unlinkTail pos = { l with
        len := l.len - 1, head := lruElementPointToNull, tail := lruElementPointToNull } :=
      if_neg hmore
    rw [hform]
    have hrep : LruRep ([] ++ []) unused { l with
        len := l.len - 1, head := lruElementPointToNull, tail := lruElementPointToNull } :=
      h.rep.drop ⟨trivial, trivial, by simp, by simp⟩ rfl rfl rfl fun p _ => rfl
    exact ⟨(LruWhole.putFree hrep h.freeNext h.freeHead hslots hpos hnot).1,
      fun _ => LRUListD.putFree_head ..⟩

/-- The list without its tail. -/
def LRUSRAMList.evicted (l : LRUSRAMList) (pos : Int) : LRUSRAMList :=
  { ((l.unlinkTail pos).putElementToFreeElementListD pos).setDirty pos false with
    size := Function.update l.size pos 0
    freeSize := l.freeSize + l.size pos }

/-- The list with another size of an element. -/
def LRUSRAMList.resized (l : LRUSRAMList) (pos newSize : Int) : LRUSRAMList :=
  { l with
    size := Function.update l.size pos newSize
    freeSize := l.freeSize - (newSize - l.size pos) }

section Operations

variable {l l' : LRUSRAMList}

/-- Without its tail the list keeps what it keeps. -/
theorem SramOk.evicted (h : SramOk sramSizeLimit capacity (used ++ [pos]) unused l) :
    SramWalked sramSizeLimit capacity used (pos :: unused) (l.evicted pos) := by
  obtain ⟨hwhole, hhead⟩ := h.whole.unlinkTail
  have hnodup := h.whole.rep.nodup
  have hsplit := h.whole.split.1
  rw [List.append_nil, List.mem_append, not_or] at hsplit
  have hsame : ∀ p, p ≠ pos → (l.evicted pos).size p = l.size p := fun p hp =>
    Function.update_of_ne hp ..
  have htotal := h.total
  rw [List.map_append, List.sum_append, List.map_singleton, List.sum_singleton] at htotal
  have hsum : used.map (l.evicted pos).size = used.map l.size :=
    List.map_congr_left fun p hp => hsame p fun he => hsplit.1 (he ▸ hp)
  refine ⟨⟨hwhole.setDirty pos false, ?_, ?_, ?_, ?_, ?_⟩, hhead⟩
  · intro p hp
    rw [hsame p fun he => hsplit.1 (he ▸ hp)]
    exact h.sizes p (List.mem_append_left _ hp)
  · intro p hp
    rcases List.mem_cons.mp hp with rfl | hp
    · exact Function.update_self ..
    · rw [hsame p fun he => hsplit.2 (he ▸ hp)]
      exact h.unusedSizes p hp
  · change l.freeSize + l.size pos + _ = _
    rw [hsum]
    omega
  · exact Int.add_nonneg h.freeSize (h.sizes pos (by simp))
  · exact fun hnil => .inl (hhead hnil)

/-- What the removal of the tail comes to, whatever rounds its checks have. -/
theorem SramOk.removeTail_eq (h : SramOk sramSizeLimit capacity (used ++ [pos]) unused l)
    (fuel : Nat) : l.removeTheTailElemenetFromLRUListS sramSizeLimit fuel =
      ((LRUSRAMList.selfCheckSize sramSizeLimit fuel (l.evicted pos)).bind
        (LRUSRAMList.selfChecks sramSizeLimit fuel)).map
          fun l' => (some (l.keys pos, pos), l') := by
  have hlen := h.whole.rep.len
  rw [List.length_append, List.length_singleton] at hlen
  have htail : l.tail = pos := h.whole.rep.threaded.tail pos (by simp)
  have hhead := h.whole.rep.threaded.head_eq_iff (List.nodup_append.mp h.whole.rep.nodup).1
  have hunchanged : (True ∧ pos ≠ l.head) ∨ (True ∧ l.head = pos ∧ l.len = 1) := by
    by_cases he : l.head = pos
    · obtain rfl := hhead.mp he
      exact .inr ⟨trivial, he, hlen⟩
    · exact .inl ⟨trivial, Ne.symm he⟩
  unfold LRUSRAMList.removeTheTailElemenetFromLRUListS
  rw [if_neg (by omega)]
  simp only [htail, if_pos hunchanged]
  rfl

/-- The tail is removed, if the checks have rounds enough. -/
theorem SramOk.removeTail (h : SramOk sramSizeLimit capacity (used ++ [pos]) unused l)
    (hfuel : capacity < fuel) :
    l.removeTheTailElemenetFromLRUListS sramSizeLimit fuel =
      some (some (l.keys pos, pos), l.evicted pos) := by
  have hevicted := h.evicted
  rw [h.removeTail_eq, hevicted.selfCheckSize hfuel, Option.bind_some, hevicted.selfChecks hfuel]
  rfl

/-- A removal that returns has removed the tail. -/
theorem SramOk.removeTail_some (h : SramOk sramSizeLimit capacity (used ++ [pos]) unused l)
    {r : Option (Int × Int) × LRUSRAMList}
    (hremove : l.removeTheTailElemenetFromLRUListS sramSizeLimit fuel = some r) :
    r.2 = l.evicted pos := by
  rw [h.removeTail_eq] at hremove
  obtain ⟨l', hchecks, rfl⟩ := Option.map_eq_some_iff.mp hremove
  obtain ⟨l₁, hcheckSize, hchecks⟩ := Option.bind_eq_some_iff.mp hchecks
  obtain rfl := LRUSRAMList.eq_of_selfCheckSize hcheckSize
  exact (LRUSRAMList.eq_of_selfChecks hchecks).symm

/-- A removal from an empty list does nothing. -/
theorem SramOk.removeTail_empty (h : SramOk sramSizeLimit capacity [] unused l) (fuel : Nat) :
    l.removeTheTailElemenetFromLRUListS sramSizeLimit fuel = some (none, l) :=
  if_pos h.whole.rep.len

/-- The loop evicts elements from the tail on, until there is room. -/
theorem SramOk.makeRoom (h : SramOk sramSizeLimit capacity used unused l) {newSize : Int}
    {rounds : Nat} (hroom : l.makeRoom sramSizeLimit fuel pos newSize rounds = some l') :
    ∃ kept evicted unused', used = kept ++ evicted ∧
      SramOk sramSizeLimit capacity kept unused' l' ∧
      (∀ p, p ∉ evicted → l'.size p = l.size p) ∧ (∀ p ∈ evicted, l'.size p = 0) ∧
      newSize - l'.size pos ≤ l'.freeSize := by
  induction rounds generalizing l used unused with
  | zero => cases hroom
  | succ rounds ih =>
    unfold LRUSRAMList.makeRoom at hroom
    split at hroom
    · obtain ⟨r, hremove, hrest⟩ := Option.bind_eq_some_iff.mp hroom
      rcases List.eq_nil_or_concat used with rfl | ⟨used, p, rfl⟩
      · rw [h.removeTail_empty] at hremove
        obtain rfl := Option.some.inj hremove
        exact ih h hrest
      · rw [List.concat_eq_append] at *
        rw [h.removeTail_some hremove] at hrest
        obtain ⟨kept, evicted, unused', rfl, hkept, hsame, hzero, hfits⟩ :=
          ih h.evicted.toSramOk hrest
        have hp : p ∉ evicted := fun hm =>
          h.whole.split.1 (by simp [hm])
        refine ⟨kept, evicted ++ [p], unused', List.append_assoc .., hkept, ?_, ?_, hfits⟩
        · intro q hq
          rw [List.mem_append, List.mem_singleton, not_or] at hq
          rw [hsame q hq.1]
          exact Function.update_of_ne hq.2 ..
        · intro q hq
          rcases List.mem_append.mp hq with hq | hq
          · exact hzero q hq
          · obtain rfl := List.mem_singleton.mp hq
            rw [hsame q hp]
            exact Function.update_self ..
    · obtain rfl := Option.some.inj hroom
      refine ⟨used, [], unused, (List.append_nil _).symm, h, fun _ _ => rfl, ?_, by omega⟩
      exact fun p hp => absurd hp List.not_mem_nil

/-- What is free when an element is the last one. -/
theorem SramOk.freeSize_last (h : SramOk sramSizeLimit capacity (l₁ ++ [pos]) unused l)
    {newSize : Int} (hfits : (l₁.map l.size).sum + newSize ≤ sramSizeLimit) :
    newSize - l.size pos ≤ l.freeSize := by
  have htotal := h.total
  rw [List.map_append, List.sum_append, List.map_singleton, List.sum_singleton] at htotal
  omega

/-- The elements that are left after an eviction behind them keep their sizes. -/
theorem SramOk.map_evicted {p : Int}
    (h : SramOk sramSizeLimit capacity (used ++ [p]) unused l) :
    used.map (l.evicted p).size = used.map l.size := by
  refine List.map_congr_left fun q hq => Function.update_of_ne ?_ ..
  rintro rfl
  exact h.whole.split.1 (by simp [hq])

/-- With room for the elements in front and its new size, an element is not evicted. -/
theorem SramOk.makeRoom_keeps (h : SramOk sramSizeLimit capacity (l₁ ++ pos :: l₂) unused l)
    {newSize : Int} (hfits : (l₁.map l.size).sum + newSize ≤ sramSizeLimit) {rounds : Nat} :
    (l.makeRoom sramSizeLimit fuel pos newSize rounds = some l' →
        ∃ rest unused', SramOk sramSizeLimit capacity (l₁ ++ pos :: rest) unused' l' ∧
          newSize - l'.size pos ≤ l'.freeSize) ∧
      (l₂.length < rounds → capacity < fuel →
        (l.makeRoom sramSizeLimit fuel pos newSize rounds).isSome) := by
  induction rounds generalizing l l₂ unused with
  | zero => exact ⟨(fun hroom => nomatch hroom), fun hlt => absurd hlt (Nat.not_lt_zero _)⟩
  | succ rounds ih =>
    unfold LRUSRAMList.makeRoom
    by_cases hmore : l.freeSize < newSize - l.size pos
    · rw [if_pos hmore]
      rcases List.eq_nil_or_concat l₂ with rfl | ⟨rest, p, rfl⟩
      · have hlast := h.freeSize_last hfits
        omega
      · rw [List.concat_eq_append] at *
        rw [← List.cons_append, ← List.append_assoc] at h
        have hmap := h.map_evicted
        rw [List.map_append, List.map_append] at hmap
        have hfront := (List.append_inj hmap (by simp)).1
        have hevicted := h.evicted.toSramOk
        have hnext := ih hevicted (hfront ▸ hfits)
        constructor
        · intro hroom
          obtain ⟨r, hremove, hrest⟩ := Option.bind_eq_some_iff.mp hroom
          rw [h.removeTail_some hremove] at hrest
          exact hnext.1 hrest
        · intro hlt hfuel
          rw [List.length_append, List.length_singleton] at hlt
          rw [h.removeTail hfuel, Option.bind_some]
          exact hnext.2 (by omega) hfuel
    · rw [if_neg hmore]
      refine ⟨fun hroom => ?_, fun _ _ => rfl⟩
      obtain rfl := Option.some.inj hroom
      exact ⟨l₂, unused, h, by omega⟩

/-- An element gets another size, if there is room. -/
theorem SramOk.resized (h : SramOk sramSizeLimit capacity used unused l) (hpos : pos ∈ used)
    {newSize : Int} (hnonneg : 0 ≤ newSize) (hfits : newSize - l.size pos ≤ l.freeSize) :
    SramOk sramSizeLimit capacity used unused (l.resized pos newSize) := by
  obtain ⟨hused, -, hdisjoint⟩ := List.nodup_append.mp h.whole.rep.nodup
  obtain ⟨front, rest, rfl⟩ := List.append_of_mem hpos
  have hsame : ∀ p, p ≠ pos → (l.resized pos newSize).size p = l.size p := fun p hp =>
    Function.update_of_ne hp ..
  have hself : (l.resized pos newSize).size pos = newSize := Function.update_self ..
  obtain ⟨-, hrest, hfront⟩ := List.nodup_append.mp hused
  have hmap : ∀ {part : List Int}, pos ∉ part →
      part.map (l.resized pos newSize).size = part.map l.size := fun hnot =>
    List.map_congr_left fun p hp => hsame p fun he => hnot (he ▸ hp)
  have htotal := h.total
  rw [List.map_append, List.map_cons, List.sum_append, List.sum_cons] at htotal
  refine ⟨h.whole, ?_, ?_, ?_, ?_, h.emptyHead⟩
  · intro p hp
    by_cases he : p = pos
    · rw [he, hself]
      exact hnonneg
    · rw [hsame p he]
      exact h.sizes p hp
  · intro p hp
    rw [hsame p fun he => hdisjoint pos hpos p hp he.symm]
    exact h.unusedSizes p hp
  · rw [List.map_append, List.map_cons, List.sum_append, List.sum_cons, hself,
      hmap fun hm => hfront pos hm pos List.mem_cons_self rfl, hmap (List.nodup_cons.mp hrest).1]
    change l.freeSize - (newSize - l.size pos) + _ = _
    omega
  · exact Int.sub_nonneg.mpr hfits

/-- A size that does not change changes nothing. -/
theorem LRUSRAMList.resized_self (l : LRUSRAMList) (pos : Int) : l.resized pos (l.size pos) = l := by
  unfold LRUSRAMList.resized
  rw [Function.update_eq_self, Int.sub_self, Int.sub_zero]

/-- `UpdateLruItemSize` makes room for a greater size, and then resizes. -/
theorem LRUSRAMList.updateLruItemSize_eq (l : LRUSRAMList) (pos newSize : Int) :
    l.updateLruItemSize sramSizeLimit fuel pos newSize =
      (if l.size pos < newSize then l.makeRoom sramSizeLimit fuel pos newSize fuel
        else some l).bind fun l =>
          LRUSRAMList.selfCheckSize sramSizeLimit fuel (l.resized pos newSize) := by
  unfold LRUSRAMList.updateLruItemSize
  by_cases hless : newSize < l.size pos
  · rw [if_pos hless, if_neg (by omega), Option.bind_some]
    have hfree : l.freeSize + (l.size pos - newSize) = l.freeSize - (newSize - l.size pos) := by
      omega
    rw [hfree]
    rfl
  · rw [if_neg hless]
    by_cases hmore : l.size pos < newSize
    · rw [if_pos hmore, if_pos hmore]
      rfl
    · obtain rfl : newSize = l.size pos := by omega
      rw [if_neg hmore, if_neg hmore, Option.bind_some, l.resized_self]
      exact congrArg _ (congrArg (fun size => { l with size }) (Function.update_eq_self ..))

/-- A key goes to the head of a list with an unused slot, if there is room. -/
theorem SramOk.putElement (h : SramOk sramSizeLimit capacity used (unused ++ [pos]) l)
    (key : Int) (hnonneg : 0 ≤ size) (hfits : size ≤ l.freeSize) :
    ∃ links, l.putElementToTheHeadOfLRUListD key = some (pos, links) ∧
      SramWalked sramSizeLimit capacity (pos :: used) unused { links with
        size := Function.update l.size pos size
        freeSize := l.freeSize - size } := by
  obtain ⟨links, hput, hwhole, -⟩ := h.whole.insertHead key
  have hnodup := hwhole.rep.nodup
  rw [List.cons_append] at hnodup
  have hpos := (List.nodup_cons.mp hnodup).1
  rw [List.mem_append, not_or] at hpos
  have hsame : ∀ p, p ≠ pos → Function.update l.size pos size p = l.size p := fun p hp =>
    Function.update_of_ne hp ..
  have hmap : used.map (Function.update l.size pos size) = used.map l.size :=
    List.map_congr_left fun p hp => hsame p fun he => hpos.1 (he ▸ hp)
  have htotal := h.total
  refine ⟨links, hput, ⟨hwhole, ?_, ?_, ?_, Int.sub_nonneg.mpr hfits, by simp⟩, by simp⟩
  · intro p hp
    rcases List.mem_cons.mp hp with rfl | hp
    · change 0 ≤ Function.update l.size p size p
      rw [Function.update_self]
      exact hnonneg
    · change 0 ≤ Function.update l.size pos size p
      rw [hsame p fun he => hpos.1 (he ▸ hp)]
      exact h.sizes p hp
  · intro p hp
    change Function.update l.size pos size p = 0
    rw [hsame p fun he => hpos.2 (he ▸ hp)]
    exact h.unusedSizes p (List.mem_append_left _ hp)
  · change l.freeSize - size + ((pos :: used).map (Function.update l.size pos size)).sum = _
    rw [List.map_cons, List.sum_cons, hmap, Function.update_self]
    omega

/-- The loop of an insertion evicts until there is a slot and room. -/
theorem SramOk.addRounds (h : SramOk sramSizeLimit capacity used unused l)
    (hcapacity : 0 < capacity) (hnonneg : 0 ≤ size) (hlimit : size ≤ sramSizeLimit)
    {rounds : Nat} :
    (∀ r, l.addRounds sramSizeLimit fuel key size rounds = some r →
        ∃ rest unused', SramWalked sramSizeLimit capacity (r.1 :: rest) unused' r.2) ∧
      (used.length < rounds → capacity < fuel →
        (l.addRounds sramSizeLimit fuel key size rounds).isSome) := by
  induction rounds generalizing l used unused with
  | zero => exact ⟨(fun r hadd => nomatch hadd), fun hlt => absurd hlt (Nat.not_lt_zero _)⟩
  | succ rounds ih =>
    have hlength := h.whole.length_add
    have hfreeLen := h.whole.rep.freeLen
    have htotal := h.total
    unfold LRUSRAMList.addRounds LRUSRAMList.putElementToTheHeadOfLRUListS
    by_cases hfull : l.freeLen = 0 ∨ l.freeSize < size
    · have hnil : used ≠ [] := by
        rintro rfl
        simp only [List.length_nil, List.map_nil, List.sum_nil] at hlength htotal
        omega
      obtain ⟨used, p, rfl⟩ := (List.eq_nil_or_concat used).resolve_left hnil
      rw [List.concat_eq_append] at *
      have hnext := ih h.evicted.toSramOk
      have hcheck : l.isLRUListFullS size = true := decide_eq_true hfull
      rw [if_pos hcheck, Option.bind_some]
      constructor
      · intro r hadd
        obtain ⟨removed, hremove, hrest⟩ := Option.bind_eq_some_iff.mp hadd
        rw [h.removeTail_some hremove] at hrest
        exact hnext.1 r hrest
      · intro hlt hfuel
        rw [List.length_append, List.length_singleton] at hlt
        simp only [h.removeTail hfuel, Option.bind_some]
        exact hnext.2 (by omega) hfuel
    · rw [not_or] at hfull
      have hne : unused ≠ [] := by
        rintro rfl
        exact hfull.1 hfreeLen
      obtain ⟨unused, p, rfl⟩ := (List.eq_nil_or_concat unused).resolve_left hne
      rw [List.concat_eq_append] at *
      obtain ⟨links, hput, hwalked⟩ := h.putElement key hnonneg (by omega)
      have hroom : ¬ l.isLRUListFullS size = true := fun hd =>
        (of_decide_eq_true hd).elim hfull.1 hfull.2
      rw [if_neg hroom, hput]
      constructor
      · intro r hadd
        obtain ⟨found, hfound, hr⟩ := Option.bind_eq_some_iff.mp hadd
        obtain ⟨l₁, hchecks, rfl⟩ := Option.map_eq_some_iff.mp hfound
        obtain rfl := LRUSRAMList.eq_of_selfChecks hchecks
        obtain rfl := Option.some.inj hr
        exact ⟨used, unused, hwalked⟩
      · intro _ hfuel
        simp only [hwalked.selfChecks hfuel, Option.map_some, Option.bind_some, Option.isSome_some]

/-- A key that is found has its position in the list. -/
theorem SramOk.found (h : SramOk sramSizeLimit capacity used unused l)
    (hfind : l.isElemenetInLRUListS key = some pos) : pos ∈ used ∧ l.keys pos = key := by
  have hloop : ∀ rounds ptr, l.findElementS key rounds ptr = some pos →
      pos ∈ followLinks l.nexts rounds ptr ∧ l.keys pos = key := by
    intro rounds
    induction rounds with
    | zero => exact fun ptr hnone => nomatch hnone
    | succ rounds ih =>
      intro ptr hptr
      unfold LRUSRAMList.findElementS at hptr
      split at hptr
      · rename_i hkey
        obtain rfl := Option.some.inj hptr
        exact ⟨List.mem_cons_self, hkey.1⟩
      · obtain ⟨hmem, hkey⟩ := ih _ hptr
        exact ⟨List.mem_cons_of_mem _ hmem, hkey⟩
  obtain ⟨hmem, hkey⟩ := hloop _ _ hfind
  have hmembers : l.members = used := h.whole.rep.members_eq
  exact ⟨hmembers ▸ hmem, hkey⟩

/-- Moving an element to the head reorders the list. -/
theorem SramOk.move (h : SramOk sramSizeLimit capacity used unused l) (hpos : pos ∈ used)
    (hkey : l.keys pos = key) :
    (∀ l', l.moveElemenetToTheHeadofLRUListS fuel key pos = some l' →
        ∃ used', used'.Perm used ∧ SramOk sramSizeLimit capacity used' unused l') ∧
      (capacity < fuel → (l.moveElemenetToTheHeadofLRUListS fuel key pos).isSome) := by
  have hkey' : (l.element pos).key = key := hkey
  have hwalked : SramWalked sramSizeLimit capacity used unused l :=
    ⟨h, fun hnil => absurd hpos (hnil ▸ List.not_mem_nil)⟩
  unfold LRUSRAMList.moveElemenetToTheHeadofLRUListS
  rw [if_neg (not_not.mpr hkey')]
  split
  · rename_i hmoves
    obtain ⟨front, rest, rfl⟩ := List.append_of_mem hpos
    obtain ⟨hwhole, -⟩ := h.whole.moveFront hkey
    rw [LRUListD.moveElemenetToTheHeadofLRUListD, if_neg (not_not.mpr hkey'),
      if_pos hmoves.2.1] at hwhole
    have hperm : (pos :: (front ++ rest)).Perm (front ++ pos :: rest) := List.perm_middle.symm
    have hmoved : SramWalked sramSizeLimit capacity (pos :: (front ++ rest)) unused
        { l with toLRUListD := (l.unlinkElement pos).linkHead pos } := by
      refine ⟨⟨hwhole, fun p hp => h.sizes p (hperm.mem_iff.mp hp), h.unusedSizes, ?_, h.freeSize,
        by simp⟩, by simp⟩
      rw [← h.total, (hperm.map l.size).sum_eq]
    refine ⟨fun l' hmove => ?_, fun hfuel => by rw [hmoved.selfCheck hfuel]; rfl⟩
    obtain rfl := LRUSRAMList.eq_of_selfCheck hmove
    exact ⟨_, hperm, hmoved.toSramOk⟩
  · refine ⟨fun l' hmove => ?_, fun hfuel => by rw [hwalked.selfCheck hfuel]; rfl⟩
    obtain rfl := LRUSRAMList.eq_of_selfCheck hmove
    exact ⟨used, List.Perm.refl _, h⟩

end Operations

end WiscKey.Flash
