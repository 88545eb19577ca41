import WiscKey.Flash.CapacityLaw

/-!
# When a collection is total

A collection that starts at the reserve returns, and does what it is for, exactly when the
stored clusters leave one usable block empty besides. `MaxCluster`
does not say how many pages the usable blocks have: it is computed from the bytes of the
device, of which blocks and pages of odd sizes leave a part unused.
-/

namespace WiscKey.Flash

variable {g : Geometry} {good : Finset Int} {clusters : Int} {free : List Int} {s s' : Ftl}
  {c : Int} {draws : Draws}

/-- What a collection leaves: a current block with a free page at the write position, a block
above the reserve, and the clusters that were stored, each on a page of its own number. -/
structure Collected (g : Geometry) (clusters : Int) (s s' : Ftl) : Prop where
  current : s'.currentFreeBlockID ∈ g.blocks
  position : s'.currentFreePageID ∈ g.pages
  room : s'.dev.flashMemory s'.currentFreeBlockID s'.currentFreePageID = freePage
  above : (g.leastFreeBlocksInFBL : Int) < s'.dev.blocksInFreeBlockList
  listed : g.leastFreeBlocksInFBL < (freeBlocks s'.dev).length
  same : ∀ c, 0 ≤ c → c < clusters →
    (ftlReadOneCluster s' c = true ↔ ftlReadOneCluster s c = true)
  resolves : ∀ c, 0 ≤ c → c < clusters → ftlReadOneCluster s' c = true →
    s'.dev.flashMemory (s'.ftlTable c).block (s'.ftlTable c).page = c

/-- `FTLGarbageCollection` returns in such a state. -/
def CollectsTotally (g : Geometry) (clusters : Int) (s : Ftl) : Prop :=
  ∃ fuel s', ftlGarbageCollection g fuel s = .ok s' ∧ Collected g clusters s s'

/-- A collection that erases a block leaves a current block with room. -/
theorem Running.collect_room (hgood : good ⊆ g.blocks) {fuel : Nat}
    (h : Running g good clusters free s) (hok : ftlGarbageCollection g fuel s = .ok s')
    (hstart : free.length = g.leastFreeBlocksInFBL ∨ s.currentFreePageID < g.maxPage) :
    s'.currentFreePageID < g.maxPage := by
  induction fuel generalizing s free with
  | zero => cases hok
  | succ fuel ih =>
    rcases h.collect_cases hgood hok with ⟨hlt, rfl⟩ | ⟨hlen, k, hk, hk', hround⟩
    · exact hstart.resolve_left hlt.ne'
    rcases hround with hrec | ⟨s₂, free₂, -, -, herased, h₂, hrec⟩
    · exact ih (h.rescan hk hk').doubleDivider hrec (.inl hlen)
    · exact ih h₂ hrec (.inr herased.room)

theorem ftlReadOneCluster_iff : ftlReadOneCluster s c = true ↔
    (s.ftlTable c).block ≠ ftlPointToNull := by
  simp [ftlReadOneCluster]

/-- What a collection at the reserve leaves, if it returns. -/
theorem Running.collected (h : Running g good clusters free s) (hgood : good ⊆ g.blocks)
    (hreserve : checkFreeBlock g s.dev = -1) {fuel : Nat}
    (hok : ftlGarbageCollection g fuel s = .ok s') : Collected g clusters s s' := by
  obtain ⟨free', h', hlt, hsame⟩ := h.collect hgood hok
  have hlen : free.length = g.leastFreeBlocksInFBL :=
    Nat.le_antisymm ((checkFreeBlock_eq_neg_one h.rep.listed hgood).mp hreserve) h.least
  have hroom := h.collect_room hgood hok (.inl hlen)
  have hcur := h'.current_ne hroom
  have hpage := g.mem_pages.mpr ⟨h'.rep.frontier_nonneg, hroom⟩
  refine ⟨hgood (h'.rep.current_good hcur), hpage,
    (h'.rep.frontier hcur _ hpage).mpr le_rfl, ?_, ?_, ?_, ?_⟩
  · rw [h'.rep.listed.count]
    exact_mod_cast hlt
  · rw [h'.rep.listed.freeBlocks_eq]
    exact hlt
  · intro c _ _
    rw [ftlReadOneCluster_iff, ftlReadOneCluster_iff]
    exact not_congr (hsame c)
  · intro c hc _ hst
    exact (h'.rep.pages.stored c hc (ftlReadOneCluster_iff.mp hst)).2.2

/-- The invariant of the layer on a device as `draws` leave it: that of its pages and lists, and
the divider of the collector. -/
structure LayerInvariant (g : Geometry) (draws : Draws) (s : Ftl) : Prop where
  running : ∃ free, Running g (goodBlocks g (initializeFlashMemory g draws))
    (maxCluster g (initializeFlashMemory g draws).badBlockCnt) free s
  divider : SmallDivider g s.invalidPage2ValidPageDivider

/-- At the reserve a collection is total exactly when the stored clusters leave one usable block
empty besides. -/
theorem collectsTotally_iff (h : LayerInvariant g draws s)
    (hreserve : checkFreeBlock g s.dev = -1) :
    CollectsTotally g (maxCluster g (initializeFlashMemory g draws).badBlockCnt) s ↔
      storedClusters (maxCluster g (initializeFlashMemory g draws).badBlockCnt) s.ftlTable <
        (g.maxBlock - g.leastFreeBlocksInFBL - (initializeFlashMemory g draws).badBlockCnt - 1) *
          g.maxPage := by
  obtain ⟨free₀, hfresh⟩ := initializeFlashMemory_fresh g draws
  have hgood := hfresh.good_blocks
  have hbad := hfresh.card_good
  obtain ⟨⟨free, hrun⟩, hd⟩ := h
  have hlen : free.length = g.leastFreeBlocksInFBL :=
    Nat.le_antisymm ((checkFreeBlock_eq_neg_one hrun.rep.listed hgood).mp hreserve) hrun.least
  have hsub := Finset.card_le_card fun b (hb : b ∈ free.toFinset) =>
    hrun.rep.listed.mem_good b (List.mem_toFinset.mp hb)
  rw [List.toFinset_card_of_nodup hrun.rep.listed.nodup] at hsub
  have hcard : (goodBlocks g (initializeFlashMemory g draws)).card = g.leastFreeBlocksInFBL +
      (g.maxBlock - g.leastFreeBlocksInFBL - (initializeFlashMemory g draws).badBlockCnt) := by
    omega
  constructor
  · rintro ⟨fuel, s', hok, -⟩
    by_contra hspace
    exact hrun.collect_stuck hgood hcard hlen (Nat.le_of_not_lt hspace) hok
  · intro hspace
    obtain ⟨fuel, s', hok, -⟩ :=
      hrun.collect_returns hgood hcard hlen hd hspace (Nat.lt_succ_self _)
    exact ⟨fuel, s', hok, hrun.collected hgood hreserve hok⟩

/-- The state in which the write of `clusterID` to the last page of the current block calls the
collector: the page is programmed and no block is left for `CurrentFreeBlockID`. -/
def fillingWrite (s : Ftl) (clusterID : Int) : Ftl :=
  { ftlProgram (forgetCluster s clusterID) clusterID with currentFreeBlockID := -1 }

/-- A write that fills the current block at the reserve calls the collector with the invariant,
a full current block and no block above the reserve. -/
theorem Between.fillingWrite (h : Between g draws s) (hc : admissible g draws c)
    (husable : g.leastFreeBlocksInFBL + (initializeFlashMemory g draws).badBlockCnt < g.maxBlock)
    (hlast : s.currentFreePageID + 1 = g.maxPage)
    (hlist : s.dev.blocksInFreeBlockList ≤ g.leastFreeBlocksInFBL) :
    LayerInvariant g draws (fillingWrite s c) ∧
      checkFreeBlock g (fillingWrite s c).dev = -1 ∧
      g.maxPage ≤ (fillingWrite s c).currentFreePageID := by
  obtain ⟨free₀, hfresh⟩ := initializeFlashMemory_fresh g draws
  have hgood := hfresh.good_blocks
  obtain ⟨free, hrun⟩ := h.running husable
  have hwritten := (hrun.write hgood hc.1 hc.2 h.room).2
  have hpage : (ftlProgram (forgetCluster s c) c).currentFreePageID =
      s.currentFreePageID + 1 := by simp [ftlProgram]
  have hdrop := hwritten.dropCurrent hgood (by omega)
  have hcount := hrun.rep.listed.count
  refine ⟨⟨⟨free, hdrop⟩, ?_⟩, ?_, ?_⟩
  · have hdivider : (Flash.fillingWrite s c).invalidPage2ValidPageDivider =
        s.invalidPage2ValidPageDivider := by simp [Flash.fillingWrite, ftlProgram]
    rw [hdivider]
    exact h.divider
  · exact (checkFreeBlock_eq_neg_one hdrop.rep.listed hgood).mpr (by omega)
  · simp only [Flash.fillingWrite]
    omega

theorem oddGeometry_badBlockCnt :
    (initializeFlashMemory oddGeometry goodDraws).badBlockCnt = 0 :=
  initializeFlashMemory_badBlockCnt oddGeometry goodDraws fun _ => rfl

theorem oddGeometry_usable : oddGeometry.leastFreeBlocksInFBL +
    (initializeFlashMemory oddGeometry goodDraws).badBlockCnt < oddGeometry.maxBlock := by
  rw [oddGeometry_badBlockCnt]
  decide

theorem oddGeometry_maxCluster : maxCluster oddGeometry
    (initializeFlashMemory oddGeometry goodDraws).badBlockCnt = 16 := by
  rw [oddGeometry_badBlockCnt]
  decide

theorem oddGeometry_admissible (hc : 0 ≤ c ∧ c < 16) : admissible oddGeometry goodDraws c := by
  unfold admissible
  rw [oddGeometry_maxCluster]
  exact hc

/-- The eleven writes before a filling one, on this device. -/
def oddWrites (cs : List Int) : Except Fault Ftl := do
  let s ← openFTL oddGeometry (initializeFlashMemory oddGeometry goodDraws)
  cs.foldlM (secureFTLWriteOneCluster oddGeometry 2) s

/-- A run of writes on this device that ends one page before the end of a block, at the
reserve: the next write of a stored cluster calls the collector. -/
theorem oddWrites_fillingWrite {cs : List Int} (hcs : ∀ c ∈ cs, 0 ≤ c ∧ c < 16) {stored : Nat}
    (hc : 0 ≤ c ∧ c < 16)
    (hrun : (oddWrites cs).toOption.map (fun s => (s.currentFreePageID,
      s.dev.blocksInFreeBlockList, storedClusters 16 (fillingWrite s c).ftlTable)) =
        some (2, 64, stored)) :
    ∃ s₀ s, openFTL oddGeometry (initializeFlashMemory oddGeometry goodDraws) = .ok s₀ ∧
      Writes oddGeometry s₀ cs s ∧ LayerInvariant oddGeometry goodDraws (fillingWrite s c) ∧
      checkFreeBlock oddGeometry (fillingWrite s c).dev = -1 ∧
      oddGeometry.maxPage ≤ (fillingWrite s c).currentFreePageID ∧
      storedClusters 16 (fillingWrite s c).ftlTable = stored := by
  obtain ⟨s₀, hopen, hbetween⟩ := openFTL_between oddGeometry goodDraws
  have hfold : oddWrites cs = cs.foldlM (secureFTLWriteOneCluster oddGeometry 2) s₀ := by
    unfold oddWrites
    rw [hopen]
    rfl
  cases hs : oddWrites cs with
  | error e =>
    rw [hs] at hrun
    cases hrun
  | ok s =>
    rw [hs] at hrun
    obtain ⟨hpage, hlist, hstored⟩ : s.currentFreePageID = 2 ∧
        s.dev.blocksInFreeBlockList = 64 ∧ storedClusters 16 (fillingWrite s c).ftlTable = stored := by
      simpa [Except.toOption] using hrun
    have hwrites := Run.of_foldlM_ok (fun _ _ _ hok => (⟨2, hok⟩ : WriteReturns _ _ _ _))
      (hfold.symm.trans hs)
    have hend := writes_between hwrites hbetween fun c hc => oddGeometry_admissible (hcs c hc)
    obtain ⟨hinv, hreserve, hfull⟩ := hend.fillingWrite (oddGeometry_admissible hc)
      oddGeometry_usable (by rw [hpage]; decide) (by rw [hlist]; decide)
    exact ⟨s₀, s, hopen, hwrites, hinv, hreserve, hfull, hstored⟩

/-- With eight clusters stored on this device, its collector is total by the law. -/
theorem collectsTotally_iff_odd : ∃ s, LayerInvariant oddGeometry goodDraws s ∧
    (CollectsTotally oddGeometry
        (maxCluster oddGeometry (initializeFlashMemory oddGeometry goodDraws).badBlockCnt) s ↔
      storedClusters (maxCluster oddGeometry
          (initializeFlashMemory oddGeometry goodDraws).badBlockCnt) s.ftlTable <
        (oddGeometry.maxBlock - oddGeometry.leastFreeBlocksInFBL -
          (initializeFlashMemory oddGeometry goodDraws).badBlockCnt - 1) * oddGeometry.maxPage) := by
  obtain ⟨s₀, s, -, -, hinv, hreserve, -⟩ := @oddWrites_fillingWrite 3
    [0, 1, 2, 3, 4, 5, 6, 7, 0, 1, 2] (by decide) 8 (by decide) (by decide +kernel)
  exact ⟨_, hinv, collectsTotally_iff hinv hreserve⟩

/-- With nine clusters stored, which is less than `MaxCluster - MaxPage - 1`, it never returns. -/
theorem collection_stuck_in_slack : ∃ s₀ s,
    openFTL oddGeometry (initializeFlashMemory oddGeometry goodDraws) = .ok s₀ ∧
    Writes oddGeometry s₀ [0, 1, 2, 3, 4, 5, 6, 7, 8, 0, 1] s ∧
    LayerInvariant oddGeometry goodDraws (fillingWrite s 2) ∧
    checkFreeBlock oddGeometry (fillingWrite s 2).dev = -1 ∧
    oddGeometry.maxPage ≤ (fillingWrite s 2).currentFreePageID ∧
    (storedClusters (maxCluster oddGeometry
      (initializeFlashMemory oddGeometry goodDraws).badBlockCnt) (fillingWrite s 2).ftlTable : Int) ≤
        maxCluster oddGeometry (initializeFlashMemory oddGeometry goodDraws).badBlockCnt -
          oddGeometry.maxPage - 1 ∧
    ¬ CollectsTotally oddGeometry
      (maxCluster oddGeometry (initializeFlashMemory oddGeometry goodDraws).badBlockCnt)
      (fillingWrite s 2) := by
  obtain ⟨s₀, s, hopen, hwrites, hinv, hreserve, hfull, hstored⟩ := @oddWrites_fillingWrite 2
    [0, 1, 2, 3, 4, 5, 6, 7, 8, 0, 1] (by decide) 9 (by decide) (by decide +kernel)
  refine ⟨s₀, s, hopen, hwrites, hinv, hreserve, hfull, ?_, ?_⟩
  · rw [oddGeometry_maxCluster, hstored]
    decide
  · rintro ⟨fuel, s', hok, -⟩
    obtain ⟨⟨free, hrun⟩, -⟩ := hinv
    obtain ⟨free₀, hfresh⟩ := initializeFlashMemory_fresh oddGeometry goodDraws
    have hcardBad := hfresh.card_good
    have hlen : free.length = oddGeometry.leastFreeBlocksInFBL := Nat.le_antisymm
      ((checkFreeBlock_eq_neg_one hrun.rep.listed hfresh.good_blocks).mp hreserve) hrun.least
    rw [oddGeometry_badBlockCnt] at hcardBad
    have hcard : (goodBlocks oddGeometry (initializeFlashMemory oddGeometry goodDraws)).card =
        oddGeometry.leastFreeBlocksInFBL + 4 := by
      have hblocks : oddGeometry.maxBlock = 68 := by decide
      have hleast : oddGeometry.leastFreeBlocksInFBL = 64 := by decide
      omega
    refine hrun.collect_stuck hfresh.good_blocks hcard hlen ?_ hok
    rw [oddGeometry_maxCluster, hstored]
    decide

end WiscKey.Flash
