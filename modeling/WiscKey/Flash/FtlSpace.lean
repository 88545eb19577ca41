import WiscKey.Flash.FtlRun
import Mathlib.Algebra.BigOperators.Ring.Finset
import Mathlib.Algebra.Order.BigOperators.Group.Finset
import Mathlib.Algebra.Group.Action.Defs

/-!
# Space: stored clusters against full blocks

Every stored cluster takes one valid page, and the good blocks outside the free list and
other than the current one are full. Counting the pages both ways says how many clusters
fit next to the reserve.
-/

namespace WiscKey.Flash

variable {g : Geometry} {good : Finset Int} {clusters : Int} {free : List Int} {s s' : Ftl}

/-- The number of clusters the table stores. -/
def storedClusters (clusters : Int) (table : Int → FTLElement) : Nat :=
  countCells (intRange clusters.toNat) (fun e => e.block ≠ ftlPointToNull) table

/-- The full blocks: good, not free and not current. -/
def fullBlocks (good : Finset Int) (free : List Int) (s : Ftl) : Finset Int :=
  (good \ free.toFinset).erase s.currentFreeBlockID

theorem mem_fullBlocks {b : Int} :
    b ∈ fullBlocks good free s ↔ b ∈ good ∧ b ∉ free ∧ b ≠ s.currentFreeBlockID := by
  simp only [fullBlocks, Finset.mem_erase, Finset.mem_sdiff, List.mem_toFinset]
  tauto

/-- Stored clusters and valid pages correspond. -/
theorem Rep.storedClusters_eq (h : Rep g good clusters free none s) (hgood : good ⊆ g.blocks) :
    storedClusters clusters s.ftlTable =
      ∑ b ∈ good, countCells g.pages isCluster (s.dev.flashMemory b) := by
  rw [storedClusters, countCells]
  simp only [countCells]
  rw [← Finset.card_sigma]
  refine Finset.card_bij (fun c _ => ⟨(s.ftlTable c).block, (s.ftlTable c).page⟩) ?_ ?_ ?_
  · intro c hc
    obtain ⟨hc, hst⟩ := Finset.mem_filter.mp hc
    obtain ⟨hb, hp, hpage⟩ := h.pages.stored c (mem_intRange_toNat.mp hc).1 hst
    refine Finset.mem_sigma.mpr ⟨hb, Finset.mem_filter.mpr ⟨hp, ?_⟩⟩
    rw [hpage]
    exact (mem_intRange_toNat.mp hc).1
  · intro c hc c' hc' heq
    obtain ⟨hc, hst⟩ := Finset.mem_filter.mp hc
    obtain ⟨hc', hst'⟩ := Finset.mem_filter.mp hc'
    have hpage := (h.pages.stored c (mem_intRange_toNat.mp hc).1 hst).2.2
    have hpage' := (h.pages.stored c' (mem_intRange_toNat.mp hc').1 hst').2.2
    simp only [Sigma.mk.injEq, heq_eq_eq] at heq
    rw [← hpage, ← hpage', heq.1, heq.2]
  · rintro ⟨b, p⟩ hbp
    obtain ⟨hb, hp⟩ := Finset.mem_sigma.mp hbp
    obtain ⟨hp, hcl⟩ := Finset.mem_filter.mp hp
    have hm := h.pages.mapped b hb p hp hcl
    refine ⟨s.dev.flashMemory b p, Finset.mem_filter.mpr ⟨mem_intRange_toNat.mpr ⟨hcl, ?_⟩, ?_⟩, ?_⟩
    · rcases h.pages.content b hb p hp with hc | hc | hc
      · exact absurd hcl (by simp only [hc]; decide)
      · exact absurd hcl (by simp only [hc]; decide)
      · exact hc.2
    · rw [hm]
      exact g.ne_null_of_mem_blocks (hgood hb)
    · rw [hm]

/-- The valid pages of the current block stand below the frontier. -/
theorem Rep.current_valid_le (h : Rep g good clusters free none s)
    (hcur : s.currentFreeBlockID ≠ -1) :
    (countCells g.pages isCluster (s.dev.flashMemory s.currentFreeBlockID) : Int) ≤
      s.currentFreePageID := by
  have hsub : (g.pages.filter fun p => isCluster (s.dev.flashMemory s.currentFreeBlockID p)) ⊆
      intRange s.currentFreePageID.toNat := by
    intro p hp
    obtain ⟨hp, hcl⟩ := Finset.mem_filter.mp hp
    refine mem_intRange_toNat.mpr ⟨(g.mem_pages.mp hp).1, ?_⟩
    by_contra hge
    have hfree := (h.frontier hcur p hp).mpr (by omega)
    rw [hfree] at hcl
    exact absurd hcl (by decide)
  have hcard := Finset.card_le_card hsub
  rw [card_intRange] at hcard
  have hpage := h.frontier_nonneg
  unfold countCells
  omega

/-- Valid pages stand in the full blocks and in the current one. -/
theorem Rep.sum_valid (h : Rep g good clusters free none s) :
    ∑ b ∈ good, countCells g.pages isCluster (s.dev.flashMemory b) =
      (∑ b ∈ fullBlocks good free s, countCells g.pages isCluster (s.dev.flashMemory b)) +
        if s.currentFreeBlockID ∈ good then
          countCells g.pages isCluster (s.dev.flashMemory s.currentFreeBlockID) else 0 := by
  have hrest : ∑ b ∈ fullBlocks good free s, countCells g.pages isCluster (s.dev.flashMemory b) =
      ∑ b ∈ good.erase s.currentFreeBlockID,
        countCells g.pages isCluster (s.dev.flashMemory b) := by
    refine Finset.sum_subset (Finset.erase_subset_erase _ Finset.sdiff_subset) ?_
    intro b hb hnot
    obtain ⟨hne, hbg⟩ := Finset.mem_erase.mp hb
    have hfree : b ∈ free := by
      by_contra hnf
      exact hnot (mem_fullBlocks.mpr ⟨hbg, hnf, hne⟩)
    rw [countCells_eq_zero]
    intro p hp
    rw [h.erased b hfree (by simp) p hp]
    decide
  rw [hrest]
  split
  · rename_i hcur
    exact (Finset.sum_erase_add _ _ hcur).symm
  · rename_i hcur
    rw [Finset.erase_eq_of_notMem hcur, Nat.add_zero]

/-- A good block is free, current or full. -/
theorem Rep.card_fullBlocks_add (h : Rep g good clusters free none s) (hgood : good ⊆ g.blocks) :
    (fullBlocks good free s).card + free.length + (if s.currentFreeBlockID = -1 then 0 else 1) =
      good.card := by
  have hsub : free.toFinset ⊆ good := fun b hb =>
    h.listed.mem_good b (List.mem_toFinset.mp hb)
  have hdiff : (good \ free.toFinset).card + free.length = good.card := by
    rw [← List.toFinset_card_of_nodup h.listed.nodup]
    exact Finset.card_sdiff_add_card_eq_card hsub
  unfold fullBlocks
  split
  · rename_i hnone
    rw [Finset.erase_eq_of_notMem, Nat.add_zero, hdiff]
    intro hm
    exact g.ne_null_of_mem_blocks (hgood (Finset.mem_sdiff.mp hm).1) hnone
  · rename_i hcur
    have hmem : s.currentFreeBlockID ∈ good \ free.toFinset := Finset.mem_sdiff.mpr
      ⟨h.current_good hcur, fun hm => h.current_unlisted (List.mem_toFinset.mp hm)⟩
    rw [← hdiff, ← Finset.card_erase_add_one hmem]
    omega

/-- The number of full blocks at the reserve, `usable` being the good blocks outside it. -/
theorem Rep.card_fullBlocks (h : Rep g good clusters free none s) (hgood : good ⊆ g.blocks)
    {usable : Nat} (hcard : good.card = g.leastFreeBlocksInFBL + usable)
    (hlen : free.length = g.leastFreeBlocksInFBL) :
    (fullBlocks good free s).card = if s.currentFreeBlockID = -1 then usable else usable - 1 := by
  have hadd := h.card_fullBlocks_add hgood
  split
  · rename_i hnone
    rw [if_pos hnone] at hadd
    omega
  · rename_i hcur
    rw [if_neg hcur] at hadd
    omega

/-- With a current block that has room, the usable blocks hold more pages than clusters are
stored. -/
theorem Rep.storedClusters_lt (h : Rep g good clusters free none s) (hgood : good ⊆ g.blocks)
    (usable : Nat) (hcard : good.card = g.leastFreeBlocksInFBL + usable)
    (hleast : g.leastFreeBlocksInFBL ≤ free.length) (hcur : s.currentFreeBlockID ≠ -1)
    (hroom : s.currentFreePageID < g.maxPage) :
    storedClusters clusters s.ftlTable < usable * g.maxPage := by
  have hadd := h.card_fullBlocks_add hgood
  rw [if_neg hcur] at hadd
  have hfull : ∑ b ∈ fullBlocks good free s, countCells g.pages isCluster (s.dev.flashMemory b) ≤
      (fullBlocks good free s).card * g.maxPage := by
    rw [← smul_eq_mul]
    refine Finset.sum_le_card_nsmul _ _ _ fun b _ => ?_
    rw [← g.card_pages]
    exact countCells_le _ _ _
  have hle : ((fullBlocks good free s).card + 1) * g.maxPage ≤ usable * g.maxPage :=
    Nat.mul_le_mul_right _ (by omega)
  rw [Nat.succ_mul] at hle
  have hcurrent := h.current_valid_le hcur
  rw [h.storedClusters_eq hgood, h.sum_valid, if_pos (h.current_good hcur)]
  omega

/-- Too few stored clusters to fill the full blocks leave one of these with an invalid page. -/
theorem Rep.exists_valid_lt (h : Rep g good clusters free none s) (hgood : good ⊆ g.blocks)
    {usable : Nat} (hcard : good.card = g.leastFreeBlocksInFBL + usable)
    (hlen : free.length = g.leastFreeBlocksInFBL)
    (hspace : storedClusters clusters s.ftlTable < (usable - 1) * g.maxPage) :
    ∃ b ∈ fullBlocks good free s, s.dev.validPageCnt b < g.maxPage := by
  by_contra hnone
  have hall : ∀ b ∈ fullBlocks good free s,
      g.maxPage ≤ countCells g.pages isCluster (s.dev.flashMemory b) := by
    intro b hb
    by_contra hlt
    refine hnone ⟨b, hb, ?_⟩
    rw [h.counted.valid b (hgood (mem_fullBlocks.mp hb).1)]
    omega
  have hfull := Finset.card_nsmul_le_sum _ _ _ hall
  rw [h.card_fullBlocks hgood hcard hlen, smul_eq_mul] at hfull
  have hle : (usable - 1) * g.maxPage ≤
      (if s.currentFreeBlockID = -1 then usable else usable - 1) * g.maxPage := by
    apply Nat.mul_le_mul_right
    split <;> omega
  have hsum := h.storedClusters_eq hgood
  rw [h.sum_valid] at hsum
  omega

/-- Enough stored clusters fill all the full blocks but one up to what the current block holds. -/
theorem Rep.maxPage_le_of_stored (h : Rep g good clusters free none s) (hgood : good ⊆ g.blocks)
    {usable : Nat} (hcard : good.card = g.leastFreeBlocksInFBL + usable)
    (hlen : free.length = g.leastFreeBlocksInFBL)
    (hspace : (usable - 1) * g.maxPage ≤ storedClusters clusters s.ftlTable)
    (hcur : s.currentFreeBlockID ≠ -1) {b : Int} (hb : b ∈ fullBlocks good free s) :
    (g.maxPage : Int) ≤ s.currentFreePageID + s.dev.validPageCnt b := by
  have hfull := h.card_fullBlocks hgood hcard hlen
  rw [if_neg hcur] at hfull
  have hothers : ∑ b ∈ (fullBlocks good free s).erase b,
      countCells g.pages isCluster (s.dev.flashMemory b) ≤ (usable - 1 - 1) * g.maxPage := by
    rw [← hfull, ← Finset.card_erase_of_mem hb, ← smul_eq_mul]
    refine Finset.sum_le_card_nsmul _ _ _ fun b' _ => ?_
    rw [← g.card_pages]
    exact countCells_le _ _ _
  have hpos : 0 < usable - 1 := hfull ▸ Finset.card_pos.mpr ⟨b, hb⟩
  have hsplit := Finset.sum_erase_add _
    (fun b => countCells g.pages isCluster (s.dev.flashMemory b)) hb
  have hstored := h.storedClusters_eq hgood
  rw [h.sum_valid, if_pos (h.current_good hcur), ← hsplit] at hstored
  have hcurrent := h.current_valid_le hcur
  rw [h.counted.valid b (hgood (mem_fullBlocks.mp hb).1)]
  obtain ⟨n, hn⟩ := Nat.exists_eq_add_of_lt hpos
  have hn' : usable - 1 = n + 1 := by omega
  rw [hn', Nat.add_sub_cancel] at hothers
  rw [hn', Nat.succ_mul] at hspace
  omega

end WiscKey.Flash
