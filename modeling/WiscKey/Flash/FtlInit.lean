import WiscKey.Flash.FtlCollect

/-!
# The state `InitializeFlashMemory` and `InitializeFTL` leave

Whatever the draws, the order is a permutation of the blocks, the marks count the bad
blocks, and the free list links the others in that order.
-/

namespace WiscKey.Flash

variable (g : Geometry) (draws : Draws)

/-- The exchanges permute the positions below `n`. -/
theorem Draws.shuffle_lt {n m x : Nat} (hn : n ≤ m) (hx : x < m) : draws.shuffle n x < m := by
  induction n generalizing x with
  | zero => exact hx
  | succ n ih =>
    have hlt := ih (by omega) hx
    have hsel : draws.selectedItem (n + 1) % (n + 1) < m :=
      Nat.lt_of_lt_of_le (Nat.mod_lt _ (Nat.succ_pos n)) hn
    simp only [shuffle, Equiv.trans_apply, Equiv.swap_apply_def]
    split
    · omega
    · split
      · exact hsel
      · exact hlt

theorem Draws.order_nodup : (draws.order g).Nodup := by
  refine List.Nodup.map ?_ List.nodup_range
  intro i j hij
  exact (draws.shuffle g.maxBlock).injective (Int.ofNat_inj.mp hij)

/-- The order lists exactly the blocks. -/
theorem Draws.mem_order {b : Int} : b ∈ draws.order g ↔ b ∈ g.blocks := by
  have hsub : (draws.order g).toFinset ⊆ g.blocks := by
    intro b hb
    simp only [order, List.mem_toFinset, List.mem_map, List.mem_range] at hb
    obtain ⟨i, hi, rfl⟩ := hb
    exact g.mem_blocks.mpr ⟨Int.natCast_nonneg _, by exact_mod_cast draws.shuffle_lt le_rfl hi⟩
  have hcard : g.blocks.card ≤ (draws.order g).toFinset.card := by
    rw [List.toFinset_card_of_nodup (draws.order_nodup g), g.card_blocks]
    simp [order]
  rw [← Finset.eq_of_subset_of_card_le hsub hcard, List.mem_toFinset]

/-- The block at position `i` of the order. -/
theorem Draws.order_getElem {i : Nat} (hi : i < g.maxBlock) :
    (draws.order g)[i]? = some (draws.shuffle g.maxBlock i : Int) := by
  simp [order, hi]

/-- What marking leaves: marks on page 0 only, as many as `BadBlockCnt` says. -/
structure Marked (g : Geometry) (draws : Draws) (positions : List Nat) (d : Device) : Prop where
  page : ∀ b p, d.flashMemory b p = freePage ∨ (p = 0 ∧ d.flashMemory b p = badBlock)
  mark : ∀ b, d.flashMemory b 0 = badBlock →
    ∃ i ∈ positions, b = (draws.shuffle g.maxBlock i : Int)
  count : d.badBlockCnt = countCells g.blocks (· = badBlock) fun b => d.flashMemory b 0
  valid : ∀ b, d.validPageCnt b = 0
  invalid : ∀ b, d.invalidPageCnt b = 0

theorem markBad_marked {positions : List Nat} {d : Device} {i : Nat}
    (h : Marked g draws positions d) (hi : i < g.maxBlock) (hnew : i ∉ positions) :
    Marked g draws (positions ++ [i]) (markBad g draws d i) := by
  unfold markBad
  split
  · generalize hb : (draws.shuffle g.maxBlock i : Int) = b
    have hblock : b ∈ g.blocks := by
      rw [← hb, ← draws.mem_order g]
      exact List.mem_of_getElem? (draws.order_getElem g hi)
    have hfree : d.flashMemory b 0 ≠ badBlock := by
      intro hbad
      obtain ⟨j, hj, hbj⟩ := h.mark b hbad
      have hij : i = j := (draws.shuffle g.maxBlock).injective (Int.ofNat_inj.mp (hb.trans hbj))
      exact hnew (hij ▸ hj)
    have hcolumn : (fun b' => setPage d.flashMemory b 0 badBlock b' 0) =
        Function.update (fun b' => d.flashMemory b' 0) b badBlock := by
      funext b'
      by_cases hbb : b' = b
      · subst b'
        simp
      · rw [setPage_block_of_ne hbb, Function.update_of_ne hbb]
    refine ⟨?_, ?_, ?_, h.valid, h.invalid⟩
    · intro b' p
      by_cases hbp : b' = b ∧ p = 0
      · obtain ⟨rfl, rfl⟩ := hbp
        exact .inr ⟨rfl, setPage_self _ _ _ _⟩
      · simp only [setPage_of_ne hbp]
        exact h.page b' p
    · intro b' hbad
      by_cases hbb : b' = b
      · exact ⟨i, by simp, by rw [hbb, hb]⟩
      · simp only [setPage_block_of_ne hbb] at hbad
        obtain ⟨j, hj, hbj⟩ := h.mark b' hbad
        exact ⟨j, List.mem_append_left _ hj, hbj⟩
    · have hadd := countCells_update_add (q := (· = badBlock)) (a := badBlock)
        (f := fun b' => d.flashMemory b' 0) hblock hfree rfl
      simp only [hcolumn, hadd, h.count]
  · refine ⟨h.page, ?_, h.count, h.valid, h.invalid⟩
    intro b hbad
    obtain ⟨j, hj, hbj⟩ := h.mark b hbad
    exact ⟨j, List.mem_append_left _ hj, hbj⟩

theorem foldl_markBad_marked {todo positions : List Nat} {d : Device}
    (h : Marked g draws positions d) (hlt : ∀ i ∈ todo, i < g.maxBlock)
    (hnodup : (positions ++ todo).Nodup) :
    Marked g draws (positions ++ todo) (todo.foldl (markBad g draws) d) := by
  induction todo generalizing positions d with
  | nil => simpa using h
  | cons i todo ih =>
    have hnew : i ∉ positions := by
      intro hm
      exact (List.nodup_append.mp hnodup).2.2 i hm i List.mem_cons_self rfl
    have hstep := markBad_marked g draws h (hlt i List.mem_cons_self) hnew
    have happ : positions ++ i :: todo = (positions ++ [i]) ++ todo := by simp
    rw [happ] at hnodup ⊢
    exact ih hstep (fun j hj => hlt j (List.mem_cons_of_mem _ hj)) hnodup

/-- Linking threads the good blocks of the list behind the current one. -/
theorem linkFreeBlocks_spec (fm : Int → Int → Int) (d : Device) {current : Int} {l : List Int}
    (hnodup : (current :: l).Nodup) :
    let free := current :: l.filter (fun b => fm b 0 ≠ badBlock)
    let d' := linkFreeBlocks fm d current l
    Linked d'.freeBlockList fblPointToNull free ∧
      (∀ b, free.getLast? = some b → d'.freeBlockListTail = b) ∧
      (∀ b, b ∉ current :: l → d'.freeBlockList b = d.freeBlockList b) ∧
      d'.flashMemory = d.flashMemory ∧ d'.freeBlockListHead = d.freeBlockListHead ∧
      d'.badBlockCnt = d.badBlockCnt ∧ d'.validPageCnt = d.validPageCnt ∧
      d'.invalidPageCnt = d.invalidPageCnt := by
  induction l generalizing d current with
  | nil =>
    refine ⟨by simp [linkFreeBlocks, Linked], by simp [linkFreeBlocks], ?_, rfl, rfl, rfl, rfl, rfl⟩
    intro b hb
    simp only [List.mem_singleton] at hb
    simp [linkFreeBlocks, Function.update_of_ne hb]
  | cons b l ih =>
    obtain ⟨hcur, htail⟩ := List.nodup_cons.mp hnodup
    simp only [List.mem_cons, not_or] at hcur
    by_cases hbad : fm b 0 = badBlock
    · have hstep := ih d
        (List.nodup_cons.mpr ⟨hcur.2, (List.nodup_cons.mp htail).2⟩)
      simp only [linkFreeBlocks, hbad, if_true] at hstep ⊢
      obtain ⟨hlinked, hlast, hout, hrest⟩ := hstep
      refine ⟨by simpa [hbad] using hlinked, by simpa [hbad] using hlast, ?_, hrest⟩
      intro b' hb'
      simp only [List.mem_cons, not_or] at hb'
      exact hout b' (by simp [hb'.1, hb'.2.2])
    · have hstep := ih { d with freeBlockList := Function.update d.freeBlockList current b } htail
      simp only [linkFreeBlocks, hbad, if_false] at hstep ⊢
      obtain ⟨hlinked, hlast, hout, hrest⟩ := hstep
      have hfilter : (b :: l).filter (fun b => fm b 0 ≠ badBlock) =
          b :: l.filter (fun b => fm b 0 ≠ badBlock) := by simp [hbad]
      rw [hfilter]
      refine ⟨⟨?_, hlinked⟩, by simpa using hlast, ?_, hrest⟩
      · rw [hout current (by simp [hcur])]
        simp
      · intro b' hb'
        simp only [List.mem_cons, not_or] at hb'
        rw [hout b' (by simp [hb'.2]), Function.update_of_ne hb'.1]

/-- Linking changes the list and its tail alone. -/
theorem linkFreeBlocks_eq (fm : Int → Int → Int) (d : Device) (current : Int) (l : List Int) :
    linkFreeBlocks fm d current l = { d with
      freeBlockList := (linkFreeBlocks fm d current l).freeBlockList
      freeBlockListTail := (linkFreeBlocks fm d current l).freeBlockListTail } := by
  induction l generalizing d current with
  | nil => rfl
  | cons b l ih =>
    rw [linkFreeBlocks]
    split
    · exact ih d current
    · exact ih _ b

/-- Marking changes the pages and the counter of bad blocks alone. -/
theorem foldl_markBad_eq (l : List Nat) (d : Device) :
    l.foldl (markBad g draws) d = { d with
      flashMemory := (l.foldl (markBad g draws) d).flashMemory
      badBlockCnt := (l.foldl (markBad g draws) d).badBlockCnt } := by
  induction l generalizing d with
  | nil => rfl
  | cons i l ih =>
    rw [List.foldl_cons, ih, markBad]
    split
    · rfl
    · rfl

/-- Draws that mark no block leave none marked. -/
theorem initializeFlashMemory_badBlockCnt (h : ∀ i, draws.isBad i = false) :
    (initializeFlashMemory g draws).badBlockCnt = 0 := by
  have hmark : ∀ (l : List Nat) (d : Device), l.foldl (markBad g draws) d = d := by
    intro l d
    induction l with
    | nil => rfl
    | cons i l ih => simpa [markBad, h] using ih
  refine (congrArg Device.badBlockCnt (linkFreeBlocks_eq ..)).trans ?_
  exact congrArg Device.badBlockCnt (hmark _ _)

/-- The good blocks: those the initialisation leaves unmarked. -/
def goodBlocks (d : Device) : Finset Int := g.blocks.filter fun b => d.flashMemory b 0 ≠ badBlock

/-- The device as the initialisation hands it to the translation layer. -/
structure Fresh (g : Geometry) (good : Finset Int) (free : List Int) (d : Device) : Prop where
  listed : FreeListed good free d
  good_blocks : good ⊆ g.blocks
  free_all : ∀ b ∈ good, b ∈ free
  unmarked : ∀ b ∈ good, ∀ p, d.flashMemory b p = freePage
  bad_marked : ∀ b ∈ g.blocks, b ∉ good → d.flashMemory b 0 = badBlock
  bad_unused : ∀ b p, d.flashMemory b p = freePage ∨ d.flashMemory b p = badBlock
  valid : ∀ b, d.validPageCnt b = 0
  invalid : ∀ b, d.invalidPageCnt b = 0
  length_add_bad : free.length + d.badBlockCnt = g.maxBlock

/-- `InitializeFlashMemory` lists every good block, and nothing else. -/
theorem initializeFlashMemory_fresh :
    ∃ free, Fresh g (goodBlocks g (initializeFlashMemory g draws)) free
      (initializeFlashMemory g draws) := by
  have hpos := g.maxBlock_pos
  have hmarked : Marked g draws (List.range' 1 (g.maxBlock - 2))
      ((List.range' 1 (g.maxBlock - 2)).foldl (markBad g draws) (blankDevice g draws)) := by
    have hblank : Marked g draws [] (blankDevice g draws) := by
      refine ⟨fun _ _ => .inl rfl, fun b hb => absurd hb (by simp [blankDevice]; decide), ?_,
        fun _ => rfl, fun _ => rfl⟩
      symm
      exact countCells_eq_zero.mpr fun b _ => by simp [blankDevice]; decide
    refine foldl_markBad_marked g draws hblank ?_ (by simpa using List.nodup_range')
    intro i hi
    have := (List.mem_range'_1.mp hi)
    omega
  generalize hd : (List.range' 1 (g.maxBlock - 2)).foldl (markBad g draws) (blankDevice g draws) = d
    at hmarked
  obtain ⟨head, rest, horder⟩ : ∃ head rest, draws.order g = head :: rest := by
    refine List.exists_cons_of_ne_nil ?_
    intro hnil
    have hlen : (draws.order g).length = 0 := by rw [hnil]; rfl
    simp [Draws.order] at hlen
    omega
  have hnodup := draws.order_nodup g
  rw [horder] at hnodup
  -- position 0 is never marked
  have hhead : d.flashMemory head 0 ≠ badBlock := by
    intro hbad
    obtain ⟨i, hi, hhi⟩ := hmarked.mark head hbad
    have h0 := draws.order_getElem g hpos
    rw [horder] at h0
    have h0' : head = (draws.shuffle g.maxBlock 0 : Int) := by simpa using h0
    have hi0 : i = 0 :=
      (draws.shuffle g.maxBlock).injective (Int.ofNat_inj.mp (hhi.symm.trans h0'))
    have := (List.mem_range'_1.mp hi)
    omega
  have hlink := linkFreeBlocks_spec d.flashMemory { d with freeBlockListHead := head } hnodup
  have hinit : initializeFlashMemory g draws =
      { linkFreeBlocks d.flashMemory { d with freeBlockListHead := head } head rest with
        blocksInFreeBlockList := g.maxBlock -
          (linkFreeBlocks d.flashMemory { d with freeBlockListHead := head } head rest).badBlockCnt }
        := by
    simp only [initializeFlashMemory, hd, horder, List.headD_cons, List.tail_cons]
  generalize hlinked : linkFreeBlocks d.flashMemory { d with freeBlockListHead := head } head rest
    = d' at hlink hinit
  rw [hinit]
  clear hinit hd hlinked
  obtain ⟨hchain, hlast, -, hfm, hheadEq, hcnt, hval, hinval⟩ := hlink
  simp only at hfm hheadEq hcnt hval hinval
  have hgoodEq : ∀ n, goodBlocks g { d' with blocksInFreeBlockList := n } =
      g.blocks.filter fun b => d.flashMemory b 0 ≠ badBlock := by
    intro n
    simp only [goodBlocks, hfm]
  have hfilter : head :: rest.filter (fun b => d.flashMemory b 0 ≠ badBlock) =
      (draws.order g).filter fun b => d.flashMemory b 0 ≠ badBlock := by
    rw [horder]
    simp [hhead]
  have hmem : ∀ b, b ∈ head :: rest.filter (fun b => d.flashMemory b 0 ≠ badBlock) ↔
      b ∈ g.blocks.filter fun b => d.flashMemory b 0 ≠ badBlock := by
    intro b
    rw [hfilter, List.mem_filter, draws.mem_order g, Finset.mem_filter, decide_eq_true_eq]
  have hfreeNodup : (head :: rest.filter (fun b => d.flashMemory b 0 ≠ badBlock)).Nodup := by
    rw [hfilter]
    exact (draws.order_nodup g).filter _
  have hlength : (head :: rest.filter (fun b => d.flashMemory b 0 ≠ badBlock)).length +
      d.badBlockCnt = g.maxBlock := by
    have hcard : (head :: rest.filter (fun b => d.flashMemory b 0 ≠ badBlock)).length =
        countCells g.blocks (· ≠ badBlock) fun b => d.flashMemory b 0 := by
      rw [← List.toFinset_card_of_nodup hfreeNodup, countCells]
      congr 1
      ext b
      rw [List.mem_toFinset, hmem]
    rw [hcard, hmarked.count, Nat.add_comm, ← g.card_blocks]
    exact countCells_add_eq_card fun _ _ => Iff.rfl
  refine ⟨_, ⟨hfreeNodup, ?_, hchain, ?_, hlast, ?_, ?_⟩, ?_, ?_, ?_, ?_, ?_, ?_, ?_, ?_⟩
  · intro b hb
    rw [hgoodEq]
    exact (hmem b).mp hb
  · intro b hb
    obtain rfl : head = b := by simpa using hb
    exact hheadEq
  · simp only [hcnt]
    omega
  · intro b hb hnot
    rw [hgoodEq] at hb
    exact absurd ((hmem b).mpr hb) hnot
  · rw [hgoodEq]
    exact Finset.filter_subset _ _
  · intro b hb
    rw [hgoodEq] at hb
    exact (hmem b).mpr hb
  · intro b hb p
    rw [hgoodEq] at hb
    simp only [hfm]
    refine (hmarked.page b p).resolve_right ?_
    rintro ⟨rfl, hbad⟩
    exact (Finset.mem_filter.mp hb).2 hbad
  · intro b hb hbad
    rw [hgoodEq, Finset.mem_filter] at hbad
    simp only [hfm]
    by_contra hne
    exact hbad ⟨hb, hne⟩
  · intro b p
    simp only [hfm]
    exact (hmarked.page b p).imp_right And.right
  · simp only [hval]
    exact hmarked.valid
  · simp only [hinval]
    exact hmarked.invalid
  · simp only [hcnt]
    exact hlength

variable {g} {good : Finset Int} {clusters : Int} {free : List Int} {d : Device} {s : Ftl}

/-- A fresh device under an empty table and no current block satisfies the invariant. -/
theorem Fresh.rep (h : Fresh g good free d) {cur page : Int} (hcur : cur = -1) (hpage : 0 ≤ page)
    (hpage' : page ≤ g.maxPage) :
    Rep g good clusters free none {
      dev := d
      ftlTable := fun _ => ⟨ftlPointToNull, ftlPointToNull⟩
      currentFreeBlockID := cur
      currentFreePageID := page
      currentScanningBlockID := -1
      invalidPage2ValidPageDivider := 1 } := by
  subst cur
  refine ⟨h.listed, ⟨?_, h.bad_marked, fun b _ _ p _ => h.bad_unused b p, ?_, ?_⟩, ⟨?_, ?_⟩, ?_, ?_,
    by simp, ?_, hpage, hpage', by simp⟩
  · exact fun b hb p _ => .inl (h.unmarked b hb p)
  · simp
  · intro b hb p _ hcl
    simp only [h.unmarked b hb p] at hcl
    exact absurd hcl (by decide)
  · intro b _
    rw [h.valid b]
    symm
    rw [Nat.cast_eq_zero, countCells_eq_zero]
    intro p _
    rcases h.bad_unused b p with hc | hc <;> simp only [hc] <;> decide
  · intro b _
    rw [h.invalid b]
    symm
    rw [Nat.cast_eq_zero, countCells_eq_zero]
    intro p _
    rcases h.bad_unused b p with hc | hc <;> simp only [hc] <;> decide
  · exact fun b hb _ p _ => h.unmarked b (h.listed.mem_good b hb) p
  · exact fun b hb hv => absurd (hv (h.free_all b hb)) (by simp)
  · intro hm
    have := (g.mem_blocks.mp (h.good_blocks (h.listed.mem_good _ hm))).1
    simp at this

/-- The first current block, where the reserve leaves one. -/
theorem Fresh.openFTL_running (h : Fresh g good free d)
    (hleast : g.leastFreeBlocksInFBL < free.length) :
    ∃ s rest, openFTL g d = .ok s ∧ Running g good clusters rest s ∧
      rest.length + 1 = free.length ∧ s.currentFreePageID = 0 ∧
      s.invalidPage2ValidPageDivider = 1 ∧ s.ftlTable = fun _ => ⟨ftlPointToNull, ftlPointToNull⟩ := by
  have hrun : Running g good clusters free {
      dev := d
      ftlTable := fun _ => ⟨ftlPointToNull, ftlPointToNull⟩
      currentFreeBlockID := -1
      currentFreePageID := g.maxPage
      currentScanningBlockID := -1
      invalidPage2ValidPageDivider := 1 } :=
    ⟨h.rep rfl (Int.natCast_nonneg _) le_rfl, hleast.le, fun _ => le_rfl, le_rfl,
      by have := g.maxBlock_pos; simp only; omega, isDivider_one⟩
  obtain ⟨b, d', rest, rfl, _, hget, h₁⟩ := hrun.takeCurrent h.good_blocks le_rfl hleast
  refine ⟨_, rest, ?_, h₁, rfl, rfl, rfl, rfl⟩
  unfold openFTL
  rw [hget]
  rfl

/-- Without a block above the reserve there is no current block. -/
theorem Fresh.openFTL_reserve (h : Fresh g good free d) (clusters : Int)
    (hleast : free.length ≤ g.leastFreeBlocksInFBL) :
    ∃ s, openFTL g d = .ok s ∧ Rep g good clusters free none s ∧ s.currentFreeBlockID = -1 ∧
      s.currentFreePageID = 0 ∧ s.invalidPage2ValidPageDivider = 1 := by
  refine ⟨_, ?_, h.rep rfl le_rfl (Int.natCast_nonneg _), rfl, rfl, rfl⟩
  unfold openFTL
  rw [getFreeBlock_reserve h.listed hleast]
  rfl

end WiscKey.Flash
