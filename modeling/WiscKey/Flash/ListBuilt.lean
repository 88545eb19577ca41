import Mathlib.Data.Int.Interval
import WiscKey.Flash.ChipList
import WiscKey.Flash.FtlInit

/-!
# The free block list at first

`InitializeFlashMemory` links the blocks by an index into their random order, and skips bad blocks
in an inner loop that reads the order before it tests the index. The last block of the order is
good, so no read is beyond the order, and the list has the good blocks in this order. The counters
of the chips start from all blocks of a chip, the bad ones included.
-/

namespace WiscKey.Flash

section Source

variable (g : Geometry) (draws : Draws)

/-- `RandomFreeBlockOrder[i]`. -/
def readOrder (order : List Int) (i : Nat) : Except Fault Int :=
  match order[i]? with
  | some b => .ok b
  | none => .error .badIndex

/-- The inner loop: the block behind position `i` is read, and then the index is tested. -/
def skipBadBlocks (order : List Int) (flashMemory : Int → Int → Int) : Nat → Nat → Except Fault Nat
  | 0, _ => .error .outOfFuel
  | fuel + 1, i => do
    let block ← readOrder order (i + 1)
    if flashMemory block 0 = badBlock ∧ i + 1 < g.maxBlock then
      skipBadBlocks order flashMemory fuel (i + 1)
    else .ok i

/-- The loop that links the free blocks, from position `i` on, and the end of the list. -/
def linkByIndex (order : List Int) (flashMemory : Int → Int → Int) :
    Nat → Nat → Device → Except Fault Device
  | 0, _, _ => .error .outOfFuel
  | fuel + 1, i, d =>
    if i + 1 < g.maxBlock then do
      let j ← skipBadBlocks g order flashMemory fuel i
      let current ← readOrder order i
      let next ← readOrder order (j + 1)
      linkByIndex order flashMemory fuel (j + 1)
        { d with freeBlockList := Function.update d.freeBlockList current next }
    else do
      let last ← readOrder order i
      .ok { d with
        freeBlockList := Function.update d.freeBlockList last fblPointToNull
        freeBlockListTail := last }

/-- The device with its bad blocks marked. -/
def markedDevice : Device :=
  (List.range' 1 (g.maxBlock - 2)).foldl (markBad g draws) (blankDevice g draws)

/-- `InitializeFlashMemory`, with every read of the order in its bounds or an error. -/
def initializeByIndex : Except Fault Device := do
  let d := markedDevice g draws
  let order := draws.order g
  let head ← readOrder order 0
  let d ← linkByIndex g order d.flashMemory g.maxBlock 0 { d with freeBlockListHead := head }
  .ok { d with blocksInFreeBlockList := g.maxBlock - d.badBlockCnt }

end Source

section Linking

variable {g : Geometry} {order : List Int} {fm : Int → Int → Int}

theorem readOrder_append (front : List Int) (b : Int) (behind : List Int) :
    readOrder (front ++ b :: behind) front.length = .ok b := by
  rw [readOrder, List.getElem?_append_right le_rfl, Nat.sub_self]
  rfl

/-- The inner loop stops in front of the first block that is good. -/
theorem skipBadBlocks_spec {front bad behind : List Int} {b : Int}
    (hlength : (front ++ bad ++ b :: behind).length = g.maxBlock)
    (hbad : ∀ x ∈ bad, fm x 0 = badBlock) (hb : fm b 0 ≠ badBlock) {fuel : Nat}
    (hfuel : bad.length < fuel) {i : Nat} (hi : i + 1 = front.length) :
    skipBadBlocks g (front ++ bad ++ b :: behind) fm fuel i = .ok (i + bad.length) := by
  induction bad generalizing front fuel i with
  | nil =>
    obtain ⟨fuel, rfl⟩ := Nat.exists_eq_succ_of_ne_zero (Nat.ne_of_gt hfuel)
    rw [skipBadBlocks, hi, List.append_nil, readOrder_append]
    exact if_neg fun h => hb h.1
  | cons a bad ih =>
    obtain ⟨fuel, rfl⟩ := Nat.exists_eq_succ_of_ne_zero (Nat.ne_of_gt (Nat.zero_lt_of_lt hfuel))
    have hrest := @ih (front ++ [a]) (by simpa using hlength)
      (fun x hx => hbad x (List.mem_cons_of_mem _ hx)) fuel (Nat.lt_of_succ_lt_succ hfuel) (i + 1)
      (by simp [hi])
    have horder : front ++ [a] ++ bad ++ b :: behind = front ++ a :: bad ++ b :: behind := by simp
    have hread : readOrder (front ++ a :: bad ++ b :: behind) (i + 1) = .ok a := by
      rw [hi, List.append_assoc, List.cons_append]
      exact readOrder_append front a _
    have hlt : i + 1 < g.maxBlock := by
      simp only [List.length_append, List.length_cons] at hlength
      omega
    rw [horder] at hrest
    rw [skipBadBlocks, hread]
    refine (if_pos ⟨hbad a List.mem_cons_self, hlt⟩).trans (hrest.trans ?_)
    rw [List.length_cons, Nat.add_assoc, Nat.add_comm 1]

theorem linkFreeBlocks_skip {bad : List Int} (hbad : ∀ x ∈ bad, fm x 0 = badBlock) (d : Device)
    (current : Int) (l : List Int) :
    linkFreeBlocks fm d current (bad ++ l) = linkFreeBlocks fm d current l := by
  induction bad with
  | nil => rfl
  | cons a bad ih =>
    rw [List.cons_append, linkFreeBlocks, if_pos (hbad a List.mem_cons_self)]
    exact ih fun x hx => hbad x (List.mem_cons_of_mem _ hx)

/-- Linking by index links the list of the order, as its last block is good. -/
theorem linkByIndex_eq {front rest : List Int} {current : Int} {fuel : Nat} (d : Device)
    (hlength : (front ++ current :: rest).length = g.maxBlock)
    (hlast : ∀ b, rest.getLast? = some b → fm b 0 ≠ badBlock) (hfuel : rest.length < fuel) :
    linkByIndex g (front ++ current :: rest) fm fuel front.length d =
      .ok (linkFreeBlocks fm d current rest) := by
  induction fuel generalizing front rest current d with
  | zero => exact absurd hfuel (Nat.not_lt_zero _)
  | succ fuel ih =>
    rw [linkByIndex]
    simp only [List.length_append, List.length_cons] at hlength
    cases hrest : rest with
    | nil =>
      subst hrest
      rw [if_neg (by simp only [List.length_nil] at hlength; omega), readOrder_append]
      rfl
    | cons r rs =>
      rw [← hrest]
      have hne : rest ≠ [] := by simp [hrest]
      rw [if_pos (by have := List.length_pos_of_ne_nil hne; omega)]
      -- the first good block behind the current one
      obtain ⟨b, hb⟩ : ∃ b, rest.find? (fun b => fm b 0 ≠ badBlock) = some b := by
        have hgood := hlast _ (List.getLast?_eq_some_getLast hne)
        refine Option.isSome_iff_exists.mp (List.find?_isSome.mpr ⟨rest.getLast hne, ?_, ?_⟩)
        · exact List.getLast_mem hne
        · simpa using hgood
      obtain ⟨hgood, bad, behind, rfl, hbad⟩ := List.find?_eq_some_iff_append.mp hb
      replace hgood : fm b 0 ≠ badBlock := by simpa using hgood
      replace hbad : ∀ x ∈ bad, fm x 0 = badBlock := by simpa using hbad
      have horder : front ++ current :: (bad ++ b :: behind) =
          (front ++ [current]) ++ bad ++ b :: behind := by simp
      have hskip := @skipBadBlocks_spec g fm (front ++ [current]) bad behind b
        (by simp only [List.length_append, List.length_cons, List.length_nil] at hlength ⊢; omega)
        hbad hgood fuel
        (by simp only [List.length_append, List.length_cons] at hfuel; omega) front.length (by simp)
      have hnext : readOrder (front ++ current :: (bad ++ b :: behind))
          (front.length + bad.length + 1) = .ok b := by
        rw [horder, show front.length + bad.length + 1 = ((front ++ [current]) ++ bad).length by
          simp only [List.length_append, List.length_cons, List.length_nil]; omega]
        exact readOrder_append _ b behind
      have hloop := @ih (front ++ current :: bad) behind b
        { d with freeBlockList := Function.update d.freeBlockList current b }
        (by simp only [List.length_append, List.length_cons] at hlength ⊢; omega)
        (fun x hx => hlast x (by rw [List.getLast?_append, List.getLast?_cons, hx]; rfl))
        (by simp only [List.length_append, List.length_cons] at hfuel; omega)
      rw [horder] at hnext ⊢
      rw [hskip, ← horder]
      rw [← horder] at hnext
      rw [readOrder_append front current]
      change (do
        let next ← readOrder (front ++ current :: (bad ++ b :: behind)) (front.length + bad.length + 1)
        linkByIndex g (front ++ current :: (bad ++ b :: behind)) fm fuel
          (front.length + bad.length + 1)
          { d with freeBlockList := Function.update d.freeBlockList current next }) = _
      rw [hnext]
      change linkByIndex g (front ++ current :: (bad ++ b :: behind)) fm fuel
          (front.length + bad.length + 1) _ = _
      rw [linkFreeBlocks_skip hbad, linkFreeBlocks, if_neg hgood, ← hloop]
      congr 1
      · simp
      · simp only [List.length_append, List.length_cons]
        omega

end Linking

section Marking

variable (g : Geometry) (draws : Draws)

/-- A block is marked exactly when the draw for its position says so. -/
theorem foldl_markBad_bad_iff (positions : List Nat) (d : Device) (b : Int) :
    (positions.foldl (markBad g draws) d).flashMemory b 0 = badBlock ↔
      d.flashMemory b 0 = badBlock ∨
        ∃ i ∈ positions, draws.isBad i = true ∧ b = (draws.shuffle g.maxBlock i : Int) := by
  induction positions generalizing d with
  | nil => simp
  | cons i positions ih =>
    rw [List.foldl_cons, ih, markBad]
    simp only [List.exists_mem_cons_iff, ← or_assoc]
    refine or_congr_left ?_
    split
    · rename_i hbad
      by_cases hb : b = (draws.shuffle g.maxBlock i : Int)
      · rw [hb]
        exact iff_of_true (setPage_self _ _ _ _) (.inr ⟨hbad, rfl⟩)
      · simp only [setPage_block_of_ne hb, hb, and_false, or_false]
    · rename_i hbad
      simp [hbad]

theorem markedDevice_bad_iff {b : Int} : (markedDevice g draws).flashMemory b 0 = badBlock ↔
    ∃ i, 1 ≤ i ∧ i + 1 < g.maxBlock ∧ draws.isBad i = true ∧
      b = (draws.shuffle g.maxBlock i : Int) := by
  have hblank : (blankDevice g draws).flashMemory b 0 ≠ badBlock := by
    simp only [blankDevice]
    decide
  rw [markedDevice, foldl_markBad_bad_iff]
  simp only [hblank, false_or, List.mem_range'_1, and_assoc]
  refine exists_congr fun i => and_congr_right fun hi => ?_
  refine and_congr_left' ?_
  omega

/-- The first and the last block of the order stay good. -/
theorem markedDevice_good {i : Nat} (hi : i = 0 ∨ i + 1 = g.maxBlock) :
    (markedDevice g draws).flashMemory (draws.shuffle g.maxBlock i) 0 ≠ badBlock := by
  rw [Ne, markedDevice_bad_iff]
  rintro ⟨j, hj, hjm, -, hij⟩
  obtain rfl : i = j := (draws.shuffle g.maxBlock).injective (Int.ofNat_inj.mp hij)
  omega

theorem length_order : (draws.order g).length = g.maxBlock := by
  rw [Draws.order, List.length_map, List.length_range]

/-- No read is beyond the order, and the device is the one that the list of the order gives. -/
theorem initializeByIndex_eq :
    initializeByIndex g draws = .ok (initializeFlashMemory g draws) := by
  have hlength := length_order g draws
  have hpos := g.maxBlock_pos
  obtain ⟨head, rest, horder⟩ : ∃ head rest, draws.order g = head :: rest :=
    List.exists_cons_of_length_pos (hlength ▸ hpos)
  have hlast : ∀ b, rest.getLast? = some b → (markedDevice g draws).flashMemory b 0 ≠ badBlock := by
    intro b hb
    have hget : (draws.order g)[g.maxBlock - 1]? = some b := by
      rw [← hlength, ← List.getLast?_eq_getElem?, horder, List.getLast?_cons, hb]
      rfl
    rw [draws.order_getElem g (by omega)] at hget
    rw [← Option.some.inj hget]
    exact markedDevice_good g draws (.inr (by omega))
  rw [horder] at hlength
  have hlink := @linkByIndex_eq g (markedDevice g draws).flashMemory [] rest head g.maxBlock
    { markedDevice g draws with freeBlockListHead := head } hlength hlast
    (by simp only [List.length_cons] at hlength; omega)
  simp only [List.nil_append, List.length_nil] at hlink
  simp only [initializeByIndex, horder]
  change (do
    let d ← linkByIndex g (head :: rest) (markedDevice g draws).flashMemory g.maxBlock 0
      { markedDevice g draws with freeBlockListHead := head }
    Except.ok { d with blocksInFreeBlockList := (g.maxBlock : Int) - d.badBlockCnt }) = _
  rw [hlink]
  simp only [initializeFlashMemory, horder, List.headD_cons, List.tail_cons]
  rfl

end Marking

section Built

variable (g : Geometry) (draws : Draws)

/-- The links visit every good block once, and end at the tail; the counter counts them. -/
structure ListBuilt (d : Device) (free : List Int) : Prop where
  visits : Visits d.freeBlockList fblPointToNull d.freeBlockListHead free
  nodup : free.Nodup
  members : ∀ b, b ∈ free ↔ b ∈ goodBlocks g d
  last : free.getLast? = some d.freeBlockListTail
  count : d.blocksInFreeBlockList = (goodBlocks g d).card

/-- The good blocks of a chip. -/
def goodOfChip (d : Device) (chip : Int) : Finset Int :=
  (goodBlocks g d).filter fun b => b / g.blocksPerChip = chip

/-- The counter of every chip is the number of its good blocks. -/
def ChipsCounted (d : Device) : Prop :=
  ∀ chip : Int, 0 ≤ chip → chip < g.chipNumber →
    d.blocksInFreeBlockListArray chip = (goodOfChip g d chip).card

theorem initializeFlashMemory_flashMemory :
    (initializeFlashMemory g draws).flashMemory = (markedDevice g draws).flashMemory :=
  (congrArg Device.flashMemory (linkFreeBlocks_eq ..)).trans rfl

/-- The counters of the chips are set without a look at the marks. -/
theorem initializeFlashMemory_chips (chip : Int) :
    (initializeFlashMemory g draws).blocksInFreeBlockListArray chip = g.blocksPerChip := by
  refine (congrArg (Device.blocksInFreeBlockListArray · chip) (linkFreeBlocks_eq ..)).trans ?_
  exact congrArg (Device.blocksInFreeBlockListArray · chip) (foldl_markBad_eq ..)

theorem mem_goodBlocks_initial {b : Int} : b ∈ goodBlocks g (initializeFlashMemory g draws) ↔
    b ∈ g.blocks ∧ ¬ ∃ i, 1 ≤ i ∧ i + 1 < g.maxBlock ∧ draws.isBad i = true ∧
      b = (draws.shuffle g.maxBlock i : Int) := by
  rw [goodBlocks, Finset.mem_filter, initializeFlashMemory_flashMemory, Ne, markedDevice_bad_iff]

/-- The list is built whatever is marked. -/
theorem initializeFlashMemory_listBuilt :
    ∃ free, ListBuilt g (initializeFlashMemory g draws) free := by
  obtain ⟨free, hfresh⟩ := initializeFlashMemory_fresh g draws
  have hmembers : ∀ b, b ∈ free ↔ b ∈ goodBlocks g (initializeFlashMemory g draws) := fun b =>
    ⟨hfresh.listed.mem_good b, hfresh.free_all b⟩
  have hne : free ≠ [] := by
    refine List.ne_nil_of_mem (a := (draws.shuffle g.maxBlock 0 : Int)) ((hmembers _).mpr ?_)
    have hblock : (draws.shuffle g.maxBlock 0 : Int) ∈ g.blocks := by
      rw [← draws.mem_order g]
      exact List.mem_of_getElem? (draws.order_getElem g g.maxBlock_pos)
    rw [goodBlocks, Finset.mem_filter, initializeFlashMemory_flashMemory]
    exact ⟨hblock, markedDevice_good g draws (.inl rfl)⟩
  obtain ⟨head, hhead⟩ : ∃ head, free.head? = some head := ⟨_, List.head?_eq_some_head hne⟩
  have hlast := List.getLast?_eq_some_getLast hne
  refine ⟨free, ?_, hfresh.listed.nodup, hmembers, ?_, ?_⟩
  · rw [hfresh.listed.head head hhead]
    exact hfresh.listed.linked.visits hhead
  · rw [hlast, hfresh.listed.tail _ hlast]
  · rw [hfresh.listed.count, ← List.toFinset_card_of_nodup hfresh.listed.nodup]
    congr 2
    ext b
    rw [List.mem_toFinset, hmembers]

/-- A chip has `BlocksPerChip` blocks. -/
theorem card_blocks_ofChip {chip : Int} (h0 : 0 ≤ chip) (hlt : chip < g.chipNumber) :
    (g.blocks.filter fun b => b / g.blocksPerChip = chip).card = g.blocksPerChip := by
  have hpos : (0 : Int) < g.blocksPerChip := by exact_mod_cast g.blocksPerChip_pos
  have hmax := g.maxBlock_eq.ge
  have hlast : chip * g.blocksPerChip + g.blocksPerChip ≤ g.maxBlock := by
    calc chip * g.blocksPerChip + g.blocksPerChip = (chip + 1) * g.blocksPerChip := by
          rw [Int.add_mul, Int.one_mul]
      _ ≤ g.chipNumber * g.blocksPerChip := Int.mul_le_mul_of_nonneg_right (by omega) hpos.le
      _ ≤ g.maxBlock := by exact_mod_cast hmax
  have hset : (g.blocks.filter fun b => b / g.blocksPerChip = chip) =
      Finset.Ico (chip * g.blocksPerChip) (chip * g.blocksPerChip + g.blocksPerChip) := by
    ext b
    rw [Finset.mem_filter, g.mem_blocks, Finset.mem_Ico, Int.ediv_eq_iff_of_pos hpos]
    have hfirst : 0 ≤ chip * g.blocksPerChip := Int.mul_nonneg h0 hpos.le
    constructor
    · rintro ⟨-, hb⟩
      exact hb
    · rintro ⟨hb, hb'⟩
      exact ⟨⟨by omega, by omega⟩, hb, hb'⟩
  rw [hset, Int.card_Ico]
  omega

/-- The counters of the chips are right exactly when no block is marked. -/
theorem chipsCounted_iff : ChipsCounted g (initializeFlashMemory g draws) ↔
    ∀ i, 1 ≤ i → i + 1 < g.maxBlock → draws.isBad i = false := by
  constructor
  · intro h i hi him
    by_contra hbad
    have hblock : (draws.shuffle g.maxBlock i : Int) ∈ g.blocks := by
      rw [← draws.mem_order g]
      exact List.mem_of_getElem? (draws.order_getElem g (by omega))
    obtain ⟨chip, hchip⟩ : ∃ chip, (draws.shuffle g.maxBlock i : Int) / g.blocksPerChip = chip :=
      ⟨_, rfl⟩
    have h0 : 0 ≤ chip := by
      rw [← hchip]
      exact Int.ediv_nonneg (Int.natCast_nonneg _) (Int.natCast_nonneg _)
    have hlt : chip < g.chipNumber := by
      rw [← hchip]
      exact g.chip_lt hblock
    have hcount := h chip h0 hlt
    rw [initializeFlashMemory_chips, ← card_blocks_ofChip g h0 hlt] at hcount
    refine absurd hcount (ne_of_gt (Int.ofNat_lt.mpr (Finset.card_lt_card ?_)))
    refine Finset.ssubset_iff_subset_ne.mpr ⟨?_, fun heq => ?_⟩
    · intro b hb
      rw [goodOfChip, Finset.mem_filter] at hb
      exact Finset.mem_filter.mpr ⟨(Finset.mem_filter.mp hb.1).1, hb.2⟩
    · have hmem : (draws.shuffle g.maxBlock i : Int) ∈
          goodOfChip g (initializeFlashMemory g draws) chip := by
        rw [heq, Finset.mem_filter]
        exact ⟨hblock, hchip⟩
      have hgood := (Finset.mem_filter.mp hmem).1
      exact ((mem_goodBlocks_initial g draws).mp hgood).2
        ⟨i, hi, him, Bool.eq_true_of_not_eq_false hbad, rfl⟩
  · intro h chip h0 hlt
    have hset : goodOfChip g (initializeFlashMemory g draws) chip =
        g.blocks.filter fun b : Int => b / g.blocksPerChip = chip := by
      ext b
      rw [goodOfChip, Finset.mem_filter, Finset.mem_filter, mem_goodBlocks_initial]
      refine and_congr_left fun _ => and_iff_left ?_
      rintro ⟨i, hi, him, hbad, rfl⟩
      exact Bool.false_ne_true ((h i hi him).symm.trans hbad)
    rw [initializeFlashMemory_chips, hset, card_blocks_ofChip g h0 hlt]

/-- `InitializeFlashMemory` reads nothing beyond its order and builds the list. It is correct with
the counters of the chips exactly when no block is marked. -/
theorem initializeFlashMemory_built_iff :
    (∃ d free, initializeByIndex g draws = .ok d ∧ ListBuilt g d free ∧ ChipsCounted g d) ↔
      ∀ i, 1 ≤ i → i + 1 < g.maxBlock → draws.isBad i = false := by
  rw [← chipsCounted_iff]
  constructor
  · rintro ⟨d, free, hok, -, hchips⟩
    obtain rfl := Except.ok.inj ((initializeByIndex_eq g draws).symm.trans hok)
    exact hchips
  · intro hchips
    obtain ⟨free, hbuilt⟩ := initializeFlashMemory_listBuilt g draws
    exact ⟨_, free, initializeByIndex_eq g draws, hbuilt, hchips⟩

/-- Draws without exchanges that mark the block at position 1. -/
def secondBad : Draws where
  selectedItem i := i - 1
  isBad i := i == 1
  uninitialised _ := 0

/-- With one bad block, the only chip of this device counts a block too many. -/
theorem initializeFlashMemory_counts_bad : ¬ ∀ (g : Geometry) (draws : Draws), 2 ≤ g.maxBlock →
    ∃ d free, initializeByIndex g draws = .ok d ∧ ListBuilt g d free ∧ ChipsCounted g d := by
  intro h
  have hall := (initializeFlashMemory_built_iff megabyteGeometry secondBad).mp
    (h megabyteGeometry secondBad (by decide))
  exact Bool.true_eq_false.mp (hall 1 le_rfl (by decide))

end Built

end WiscKey.Flash
