import WiscKey.Flash.Bl
import WiscKey.Library.Outcome

/-!
# Block updates never run out of blocks

Every good block is free or stores one logical block, so a bound on the logical blocks is a
bound on the blocks in use. The old block of an update stands at the tail of a list that is
never empty, hence is not the block the update gets.
-/

namespace WiscKey.Flash

variable (g : Geometry)

/-- The page an update leaves where `stored` was before. -/
def pageAfterUpdate (updated stored : Int) : Int :=
  if updated ≠ blPointToNull then updated
  else if stored ≠ invalidPage ∧ stored ≠ freePage then stored
  else freePage

/-- The logical blocks that have a physical block. -/
def mappedBlocks (s : Bl) : Finset Int := g.blocks.filter fun l => s.blTable l ≠ blPointToNull

/-- The page of a logical block, free where it has no physical block. -/
def logicalPageContent (s : Bl) (logicalBlock p : Int) : Int :=
  if logicalBlock ∈ mappedBlocks g s ∧ p ∈ g.pages then
    s.dev.flashMemory (s.blTable logicalBlock) p
  else freePage

/-- The good blocks are the free ones, which are erased, and one for each mapped logical
block. -/
structure BlRep (good : Finset Int) (free : List Int) (s : Bl) : Prop where
  listed : FreeListed good free s.dev
  erased : ∀ b ∈ free, ∀ p ∈ g.pages, s.dev.flashMemory b p = freePage
  home : ∀ l ∈ mappedBlocks g s, s.blTable l ∈ good ∧ s.blTable l ∉ free
  owner : ∀ l ∈ mappedBlocks g s, ∀ l' ∈ mappedBlocks g s, s.blTable l = s.blTable l' → l = l'
  count : free.length + (mappedBlocks g s).card = good.card
  room : (mappedBlocks g s).card ≤ good.card - g.leastFreeBlocksInFBL

variable {g} {good : Finset Int} {free : List Int} {s : Bl} {d : Device} {l : Int}

@[simp] theorem mem_mappedBlocks :
    l ∈ mappedBlocks g s ↔ l ∈ g.blocks ∧ s.blTable l ≠ blPointToNull := by
  simp [mappedBlocks]

/-- A fresh device under an empty table satisfies the invariant. -/
theorem Fresh.blRep (h : Fresh g good free d) : BlRep g good free (openBl d) := by
  have hnone : mappedBlocks g (openBl d) = ∅ := by
    ext l
    simp [openBl]
  have hfree : free.toFinset = good := by
    ext b
    rw [List.mem_toFinset]
    exact ⟨h.listed.mem_good b, h.free_all b⟩
  refine ⟨h.listed, fun b hb p _ => h.unmarked b (h.listed.mem_good b hb) p, ?_, ?_, ?_, ?_⟩
  · simp [hnone]
  · simp [hnone]
  · rw [hnone, ← hfree, List.toFinset_card_of_nodup h.listed.nodup]
    rfl
  · simp [hnone]

/-- The pages below `n` of the new block are copied; nothing else but its counter changed. -/
structure BlCopied (freeBlock old : Int) (updatedClusters : Int → Int) (d : Device) (n : Nat)
    (d' : Device) : Prop where
  copied : ∀ p ∈ g.pages, p < n → d'.flashMemory freeBlock p = pageAfterUpdate (updatedClusters p)
    (if old ≠ blPointToNull then d.flashMemory old p else freePage)
  rest : ∀ p ∈ g.pages, n ≤ p → d'.flashMemory freeBlock p = freePage
  other : ∀ b, b ≠ freeBlock → d'.flashMemory b = d.flashMemory b
  list : d'.freeBlockList = d.freeBlockList
  head : d'.freeBlockListHead = d.freeBlockListHead
  tail : d'.freeBlockListTail = d.freeBlockListTail
  blocks : d'.blocksInFreeBlockList = d.blocksInFreeBlockList

/-- One round stores what belongs on its page. -/
theorem blUpdatePage_copied {freeBlock old : Int} {updatedClusters : Int → Int} {n : Nat}
    {d' : Device} (hblock : freeBlock ∈ g.blocks) (hne : old ≠ freeBlock) (hn : n < g.maxPage)
    (h : BlCopied (g := g) freeBlock old updatedClusters d n d') :
    Meets (fun _ => False) (BlCopied (g := g) freeBlock old updatedClusters d (n + 1))
      (blUpdatePage g freeBlock old updatedClusters d' n) := by
  obtain ⟨hb0, hbm⟩ := g.mem_blocks.mp hblock
  have hpage : (n : Int) ∈ g.pages :=
    g.mem_pages.mpr ⟨Int.natCast_nonneg n, by exact_mod_cast hn⟩
  have hold : d'.flashMemory old = d.flashMemory old := h.other old hne
  -- a round that programs the page with what belongs there
  have hprogram : ∀ content, content = pageAfterUpdate (updatedClusters n)
      (if old ≠ blPointToNull then d.flashMemory old n else freePage) →
      Meets (fun _ => False) (BlCopied (g := g) freeBlock old updatedClusters d (n + 1))
        (programPage g d' freeBlock n content) := by
    intro content hcontent
    unfold programPage
    rw [if_neg (by omega)]
    refine ⟨?_, ?_, ?_, h.list, h.head, h.tail, h.blocks⟩
    · intro p hp hpn
      by_cases hpe : p = n
      · subst p
        simp only [addValid]
        rw [setPage_self, hcontent]
      · simp only [addValid]
        rw [setPage_of_ne (fun hbp => hpe hbp.2)]
        exact h.copied p hp (by push_cast at hpn; omega)
    · intro p hp hpn
      have hpe : p ≠ n := by
        push_cast at hpn
        omega
      simp only [addValid]
      rw [setPage_of_ne (fun hbp => hpe hbp.2)]
      exact h.rest p hp (by push_cast at hpn; omega)
    · intro b hb
      simp only [addValid]
      rw [setPage_block_of_ne hb]
      exact h.other b hb
  -- a round that leaves a free page free
  have hskip : freePage = pageAfterUpdate (updatedClusters n)
      (if old ≠ blPointToNull then d.flashMemory old n else freePage) →
      BlCopied (g := g) freeBlock old updatedClusters d (n + 1) d' := by
    intro hfree
    refine ⟨?_, ?_, h.other, h.list, h.head, h.tail, h.blocks⟩
    · intro p hp hpn
      by_cases hpe : p = n
      · subst p
        exact (h.rest n hp le_rfl).trans hfree
      · exact h.copied p hp (by push_cast at hpn; omega)
    · intro p hp hpn
      exact h.rest p hp (by push_cast at hpn; omega)
  unfold blUpdatePage
  split
  · rename_i hupd
    exact hprogram _ (by simp [pageAfterUpdate, hupd])
  · rename_i hupd
    split
    · rename_i hstored
      simp only [hold]
      split
      · rename_i hlive
        refine hprogram _ ?_
        rw [pageAfterUpdate, if_neg hupd, if_pos hstored, if_pos hlive]
      · rename_i hlive
        refine hskip ?_
        rw [pageAfterUpdate, if_neg hupd, if_pos hstored, if_neg hlive]
    · rename_i hstored
      refine hskip ?_
      rw [pageAfterUpdate, if_neg hupd, if_neg hstored]
      simp

/-- The copying loop fills a new block. -/
theorem blUpdatePages_copied {freeBlock old : Int} (updatedClusters : Int → Int)
    (hblock : freeBlock ∈ g.blocks) (hne : old ≠ freeBlock)
    (hfree : ∀ p ∈ g.pages, d.flashMemory freeBlock p = freePage) :
    ∃ d', (List.range g.maxPage).foldlM (blUpdatePage g freeBlock old updatedClusters) d = .ok d' ∧
      BlCopied (g := g) freeBlock old updatedClusters d g.maxPage d' := by
  apply Meets.exists_ok
  refine Meets.foldlM_range (BlCopied (g := g) freeBlock old updatedClusters d) ?_ ?_
  · refine ⟨?_, fun p hp _ => hfree p hp, fun _ _ => rfl, rfl, rfl, rfl, rfl⟩
    intro p hp hlt
    exact absurd (g.mem_pages.mp hp).1 (by simpa using hlt)
  · exact fun n hn d' h => blUpdatePage_copied hblock hne hn h

section Update

variable {updatedClusters : Int → Int}

/-- The device on which `BLUpdateOneBlock` asks for a block: the old block is listed. -/
def listOld (s : Bl) (l : Int) : Device :=
  if s.blTable l ≠ blPointToNull then putFreeBlock g s.dev (s.blTable l) else s.dev

/-- The free list with the old block of an update. -/
def withOld (free : List Int) (s : Bl) (l : Int) : List Int :=
  free ++ if s.blTable l ≠ blPointToNull then [s.blTable l] else []

/-- A mapped logical block leaves the reserve on the list. -/
theorem BlRep.least_le (h : BlRep g good free s) (hl : l ∈ mappedBlocks g s) :
    g.leastFreeBlocksInFBL ≤ free.length := by
  have hcard : 0 < (mappedBlocks g s).card := Finset.card_pos.mpr ⟨l, hl⟩
  have hcount := h.count
  have hroom := h.room
  omega

theorem BlRep.listOld_listed (h : BlRep g good free s) (hl : l ∈ g.blocks) :
    FreeListed good (withOld free s l) (listOld (g := g) s l) := by
  unfold listOld withOld
  by_cases hmapped : s.blTable l = blPointToNull
  · simpa [hmapped] using h.listed
  · have hmem : l ∈ mappedBlocks g s := mem_mappedBlocks.mpr ⟨hl, hmapped⟩
    have hne : free ≠ [] := by
      rintro rfl
      have hleast := h.least_le hmem
      have hpos := g.leastFreeBlocksInFBL_pos
      simp only [List.length_nil] at hleast
      omega
    obtain ⟨hgood, hnot⟩ := h.home l hmem
    rw [if_pos hmapped, if_pos hmapped]
    exact putFreeBlock_listed h.listed hgood hnot hne

/-- Where an update finds a block: the logical block has one already, or the reserve leaves
one for it. -/
def BlRoom (g : Geometry) (good : Finset Int) (s : Bl) (l : Int) : Prop :=
  l ∈ mappedBlocks g s ∨ (mappedBlocks g s).card < good.card - g.leastFreeBlocksInFBL

/-- The block an update gets is the first free block, never the old one. -/
theorem BlRep.getFreeBlock_listOld (h : BlRep g good free s) (hgood : good ⊆ g.blocks)
    (hl : l ∈ g.blocks) (hroom : BlRoom g good s l) :
    ∃ b rest d, free = b :: rest ∧ getFreeBlock g false (listOld (g := g) s l) = .ok (b, d) ∧
      FreeListed good (withOld rest s l) d ∧ d.flashMemory = s.dev.flashMemory := by
  have hcount := h.count
  have hpos := g.leastFreeBlocksInFBL_pos
  have hlength : g.leastFreeBlocksInFBL < (withOld free s l).length := by
    rw [withOld, List.length_append]
    rcases hroom with hmem | hlt
    · have hleast := h.least_le hmem
      rw [if_pos (mem_mappedBlocks.mp hmem).2, List.length_singleton]
      omega
    · omega
  obtain ⟨b, rest, hfree⟩ : ∃ b rest, free = b :: rest := by
    refine List.exists_cons_of_ne_nil ?_
    rintro rfl
    rcases hroom with hmem | hlt
    · have hleast := h.least_le hmem
      simp only [List.length_nil] at hleast
      omega
    · simp only [List.length_nil] at hcount
      omega
  have hlisted := h.listOld_listed hl
  rw [hfree, withOld, List.cons_append] at hlisted hlength
  obtain ⟨d, hok, hd, hfm, -⟩ := getFreeBlock_above hlisted hgood
    (by simp only [List.length_cons] at hlength; omega)
  refine ⟨b, rest, d, hfree, hok, hd, ?_⟩
  rw [hfm, listOld]
  split <;> rfl

/-- Without room an update exits. -/
theorem BlRep.updateOneBlock_exit (h : BlRep g good free s) (hl : l ∈ g.blocks)
    (hroom : ¬ BlRoom g good s l) : blUpdateOneBlock g s l updatedClusters = .error .exit := by
  obtain ⟨hl0, hlm⟩ := g.mem_blocks.mp hl
  simp only [BlRoom, not_or, not_lt] at hroom
  have hnull : s.blTable l = blPointToNull := by
    by_contra hne
    exact hroom.1 (mem_mappedBlocks.mpr ⟨hl, hne⟩)
  have hfree : free.length ≤ g.leastFreeBlocksInFBL := by
    have hcount := h.count
    omega
  unfold blUpdateOneBlock
  rw [if_neg (by omega)]
  simp only [hnull, ne_eq, not_true_eq_false, if_false, getFreeBlock_reserve h.listed hfree]
  rfl

/-- The state an update with room leaves. -/
structure BlUpdated (g : Geometry) (good : Finset Int) (s : Bl) (l : Int)
    (updatedClusters : Int → Int) (s' : Bl) : Prop where
  rep : ∃ free, BlRep g good free s'
  mapped : mappedBlocks g s' = insert l (mappedBlocks g s)
  page : ∀ p ∈ g.pages, logicalPageContent g s' l p =
    pageAfterUpdate (updatedClusters p) (logicalPageContent g s l p)
  other : ∀ l', l' ≠ l → ∀ p, logicalPageContent g s' l' p = logicalPageContent g s l' p

/-- The state after an update that got the block `b` and copied to the device `d`. -/
def updatedState (g : Geometry) (s : Bl) (l b : Int) (d : Device) : Bl where
  dev :=
    if s.blTable l ≠ blPointToNull then
      { eraseBlock g d (s.blTable l) with validPageCnt := d.validPageCnt }
    else d
  blTable := Function.update s.blTable l b

theorem updatedState_page {b b' p : Int} (hp : p ∈ g.pages) :
    (updatedState g s l b d).dev.flashMemory b' p =
      if s.blTable l ≠ blPointToNull ∧ b' = s.blTable l then freePage else d.flashMemory b' p := by
  by_cases hnull : s.blTable l = blPointToNull
  · simp [updatedState, hnull]
  · simp only [updatedState, ne_eq, hnull, not_false_eq_true, true_and]
    exact eraseBlock_page hp

theorem mem_withOld {b : Int} :
    b ∈ withOld free s l ↔ b ∈ free ∨ (s.blTable l ≠ blPointToNull ∧ b = s.blTable l) := by
  unfold withOld
  split <;> simp [*]

/-- Whatever the cleaning of the old block does, the list is that of the copied device. -/
theorem updatedState_listed {b : Int} {d d' : Device} {updatedClusters : Int → Int}
    (h : FreeListed good free d)
    (hcopied : BlCopied (g := g) b (s.blTable l) updatedClusters d g.maxPage d') :
    FreeListed good free (updatedState g s l b d').dev := by
  have hd' : FreeListed good free d' :=
    h.congr hcopied.list hcopied.head hcopied.tail hcopied.blocks
  unfold updatedState
  split
  · exact hd'.congr rfl rfl rfl rfl
  · exact hd'

/-- The copied and cleaned state is the updated one. -/
theorem BlRep.updated (h : BlRep g good free s) (hgood : good ⊆ g.blocks) (hl : l ∈ g.blocks)
    (hroom : BlRoom g good s l) {b : Int} {rest : List Int} {d d' : Device}
    (hfree : free = b :: rest) (hlisted : FreeListed good (withOld rest s l) d)
    (hfm : d.flashMemory = s.dev.flashMemory)
    (hcopied : BlCopied (g := g) b (s.blTable l) updatedClusters d g.maxPage d') :
    BlUpdated g good s l updatedClusters (updatedState g s l b d') := by
  have hbfree : b ∈ free := hfree ▸ List.mem_cons_self
  have hbgood : b ∈ good := h.listed.mem_good b hbfree
  have hbnull : b ≠ blPointToNull := g.ne_null_of_mem_blocks (hgood hbgood)
  have hbrest : b ∉ rest := (List.nodup_cons.mp (hfree ▸ h.listed.nodup)).1
  have hhome : ∀ l' ∈ mappedBlocks g s, s.blTable l' ≠ b := by
    rintro l' hl' rfl
    exact (h.home l' hl').2 hbfree
  have hold : s.blTable l ≠ b := by
    rintro rfl
    exact (h.home l (mem_mappedBlocks.mpr ⟨hl, hbnull⟩)).2 hbfree
  have htable : ∀ l', l' ≠ l → (updatedState g s l b d').blTable l' = s.blTable l' :=
    fun l' hne => Function.update_of_ne hne _ _
  have htable_self : (updatedState g s l b d').blTable l = b := Function.update_self _ _ _
  have hmapped : mappedBlocks g (updatedState g s l b d') = insert l (mappedBlocks g s) := by
    ext l'
    by_cases hll : l' = l
    · subst l'
      simp [htable_self, g.mem_blocks.mp hl, hbnull]
    · simp [htable l' hll, hll]
  -- the pages outside the new and the old block
  have hpages : ∀ c, c ≠ b → ¬ (s.blTable l ≠ blPointToNull ∧ c = s.blTable l) →
      ∀ p ∈ g.pages, (updatedState g s l b d').dev.flashMemory c p = s.dev.flashMemory c p := by
    intro c hcb hco p hp
    rw [updatedState_page hp, if_neg hco, hcopied.other c hcb, hfm]
  have hnew : ∀ p ∈ g.pages, (updatedState g s l b d').dev.flashMemory b p =
      pageAfterUpdate (updatedClusters p) (logicalPageContent g s l p) := by
    intro p hp
    rw [updatedState_page hp, if_neg (fun he => hold he.2.symm),
      hcopied.copied p hp (g.mem_pages.mp hp).2, hfm]
    simp [logicalPageContent, g.mem_blocks.mp hl, g.mem_pages.mp hp]
  refine ⟨⟨withOld rest s l, updatedState_listed hlisted hcopied, ?_, ?_, ?_, ?_, ?_⟩, hmapped,
    ?_, ?_⟩
  · intro c hc p hp
    by_cases hco : s.blTable l ≠ blPointToNull ∧ c = s.blTable l
    · rw [updatedState_page hp, if_pos hco]
    · have hcrest : c ∈ rest := (mem_withOld.mp hc).resolve_right hco
      rw [hpages c (ne_of_mem_of_not_mem hcrest hbrest) hco p hp]
      exact h.erased c (hfree ▸ List.mem_cons_of_mem b hcrest) p hp
  · intro l' hl'
    rw [hmapped, Finset.mem_insert] at hl'
    by_cases hll : l' = l
    · subst l'
      rw [htable_self, mem_withOld]
      refine ⟨hbgood, ?_⟩
      rintro (hb | ⟨-, hb⟩)
      · exact hbrest hb
      · exact hold hb.symm
    · have hmem := hl'.resolve_left hll
      obtain ⟨hg, hnot⟩ := h.home l' hmem
      rw [htable l' hll, mem_withOld]
      refine ⟨hg, ?_⟩
      rintro (hb | ⟨hnull, hb⟩)
      · exact hnot (hfree ▸ List.mem_cons_of_mem b hb)
      · exact hll (h.owner l' hmem l (mem_mappedBlocks.mpr ⟨hl, hnull⟩) hb)
  · intro l₁ hl₁ l₂ hl₂ heq
    rw [hmapped, Finset.mem_insert] at hl₁ hl₂
    by_cases h₁ : l₁ = l
    · by_cases h₂ : l₂ = l
      · exact h₁.trans h₂.symm
      · rw [h₁, htable_self, htable l₂ h₂] at heq
        exact absurd heq.symm (hhome l₂ (hl₂.resolve_left h₂))
    · by_cases h₂ : l₂ = l
      · rw [h₂, htable_self, htable l₁ h₁] at heq
        exact absurd heq (hhome l₁ (hl₁.resolve_left h₁))
      · rw [htable l₁ h₁, htable l₂ h₂] at heq
        exact h.owner l₁ (hl₁.resolve_left h₁) l₂ (hl₂.resolve_left h₂) heq
  · have hcount := h.count
    rw [hmapped]
    rw [hfree, List.length_cons] at hcount
    by_cases hmem : l ∈ mappedBlocks g s
    · rw [Finset.insert_eq_of_mem hmem, withOld, if_pos (mem_mappedBlocks.mp hmem).2,
        List.length_append, List.length_singleton]
      exact hcount
    · have hnull : s.blTable l = blPointToNull := by
        by_contra hne
        exact hmem (mem_mappedBlocks.mpr ⟨hl, hne⟩)
      rw [Finset.card_insert_of_notMem hmem, withOld, if_neg (not_not.mpr hnull), List.append_nil]
      omega
  · have hcount := h.room
    rw [hmapped]
    by_cases hmem : l ∈ mappedBlocks g s
    · rw [Finset.insert_eq_of_mem hmem]
      exact hcount
    · rw [Finset.card_insert_of_notMem hmem]
      exact hroom.resolve_left hmem
  · intro p hp
    rw [← hnew p hp, logicalPageContent, hmapped, htable_self, if_pos]
    exact ⟨Finset.mem_insert_self _ _, hp⟩
  · intro l' hll p
    have hmem : l' ∈ mappedBlocks g (updatedState g s l b d') ↔ l' ∈ mappedBlocks g s := by
      rw [hmapped, Finset.mem_insert, or_iff_right hll]
    simp only [logicalPageContent, hmem, htable l' hll]
    split
    · rename_i hp
      apply hpages _ (hhome l' hp.1) _ p hp.2
      rintro ⟨hnull, he⟩
      exact hll (h.owner l' hp.1 l (mem_mappedBlocks.mpr ⟨hl, hnull⟩) he)
    · rfl

/-- With room an update moves the logical block to a free block and frees the old one. -/
theorem BlRep.updateOneBlock (h : BlRep g good free s) (hgood : good ⊆ g.blocks)
    (hl : l ∈ g.blocks) (hroom : BlRoom g good s l) (updatedClusters : Int → Int) :
    ∃ s', blUpdateOneBlock g s l updatedClusters = .ok s' ∧
      BlUpdated g good s l updatedClusters s' := by
  obtain ⟨b, rest, d, hfree, hget, hlisted, hfm⟩ := h.getFreeBlock_listOld hgood hl hroom
  have hbfree : b ∈ free := hfree ▸ List.mem_cons_self
  have hbgood : b ∈ good := h.listed.mem_good b hbfree
  have hbblock : b ∈ g.blocks := hgood hbgood
  have hbnull : b ≠ blPointToNull := g.ne_null_of_mem_blocks hbblock
  have hold : s.blTable l ≠ b := by
    rintro rfl
    exact (h.home l (mem_mappedBlocks.mpr ⟨hl, hbnull⟩)).2 hbfree
  have hfree_nodup := h.listed.nodup
  rw [hfree] at hfree_nodup
  obtain ⟨hbrest, -⟩ := List.nodup_cons.mp hfree_nodup
  obtain ⟨d', hcopy, hcopied⟩ := blUpdatePages_copied updatedClusters hbblock hold
    (by rw [hfm]; exact h.erased b hbfree)
  obtain ⟨hl0, hlm⟩ := g.mem_blocks.mp hl
  have hrun : blUpdateOneBlock g s l updatedClusters = .ok (updatedState g s l b d') := by
    unfold blUpdateOneBlock
    rw [if_neg (by omega)]
    change (getFreeBlock g false (listOld (g := g) s l) >>= _) = _
    rw [hget, ok_bind]
    have hb1 : b ≠ -1 := hbnull
    simp only [if_neg hb1, hcopy, ok_bind]
    rfl
  refine ⟨_, hrun, ?_⟩
  exact h.updated hgood hl hroom hfree hlisted hfm hcopied

end Update

/-- The logical blocks that the reserve and the bad blocks leave room for. -/
def usableBlocks (g : Geometry) (badBlockCnt : Nat) : Int :=
  g.maxBlock - g.leastFreeBlocksInFBL - badBlockCnt

/-- What the table and the free list say about the physical blocks. -/
structure BlSafe (g : Geometry) (s : Bl) : Prop where
  /-- A mapped logical block has a physical block of its own, which is not free. -/
  owned : ∀ l ∈ g.blocks, s.blTable l ≠ blPointToNull →
    s.blTable l ∈ g.blocks ∧ s.blTable l ∉ freeBlocks s.dev ∧
      ∀ l' ∈ g.blocks, s.blTable l' = s.blTable l → l' = l
  free_erased : ∀ b ∈ freeBlocks s.dev, ∀ p ∈ g.pages, s.dev.flashMemory b p = freePage

theorem BlRep.safe (h : BlRep g good free s) (hgood : good ⊆ g.blocks) : BlSafe g s := by
  refine ⟨?_, ?_⟩
  · intro l hl hnull
    have hmem : l ∈ mappedBlocks g s := mem_mappedBlocks.mpr ⟨hl, hnull⟩
    obtain ⟨hg, hnot⟩ := h.home l hmem
    refine ⟨hgood hg, by rwa [h.listed.freeBlocks_eq], ?_⟩
    intro l' hl' heq
    exact h.owner l' (mem_mappedBlocks.mpr ⟨hl', heq ▸ hnull⟩) l hmem heq
  · intro b hb
    rw [h.listed.freeBlocks_eq] at hb
    exact h.erased b hb

/-- Between calls on usable blocks only those are mapped. -/
structure BlUsable (g : Geometry) (good : Finset Int) (usable : Nat) (s : Bl) : Prop where
  rep : ∃ free, BlRep g good free s
  mapped : mappedBlocks g s ⊆ intRange usable

/-- A usable logical block finds a physical one. -/
theorem BlUsable.room {usable : Nat} (h : BlUsable g good usable s)
    (husable : usable ≤ good.card - g.leastFreeBlocksInFBL) (hl : l ∈ intRange usable) :
    BlRoom g good s l := by
  by_cases hmem : l ∈ mappedBlocks g s
  · exact .inl hmem
  · have hsub : insert l (mappedBlocks g s) ⊆ intRange usable :=
      Finset.insert_subset hl h.mapped
    have hcard := Finset.card_le_card hsub
    rw [Finset.card_insert_of_notMem hmem, card_intRange] at hcard
    right
    omega

theorem BlUpdated.usable {usable : Nat} {updatedClusters : Int → Int} {s' : Bl}
    (h : BlUpdated g good s l updatedClusters s') (husable : mappedBlocks g s ⊆ intRange usable)
    (hl : l ∈ intRange usable) : BlUsable g good usable s' := by
  refine ⟨h.rep, ?_⟩
  rw [h.mapped]
  exact Finset.insert_subset hl husable

/-- An update of a usable block returns and keeps it that way. -/
theorem BlUsable.update {usable : Nat} (hgood : good ⊆ g.blocks)
    (husable : usable ≤ good.card - g.leastFreeBlocksInFBL) (hblocks : usable ≤ g.maxBlock)
    (h : BlUsable g good usable s) (hl : l ∈ intRange usable) (updatedClusters : Int → Int) :
    Meets (fun _ => False) (BlUsable g good usable) (blUpdateOneBlock g s l updatedClusters) := by
  obtain ⟨free, hrep⟩ := h.rep
  have hblock : l ∈ g.blocks := by
    have hl' := mem_intRange.mp hl
    exact g.mem_blocks.mpr ⟨hl'.1, by omega⟩
  obtain ⟨s', hok, hupd⟩ := hrep.updateOneBlock hgood hblock (h.room husable hl) updatedClusters
  rw [hok]
  exact hupd.usable h.mapped hl

/-- Updates of usable blocks go on for ever. -/
theorem BlUsable.updates {usable : Nat} (hgood : good ⊆ g.blocks)
    (husable : usable ≤ good.card - g.leastFreeBlocksInFBL) (hblocks : usable ≤ g.maxBlock)
    {calls : List (Int × (Int → Int))} (hcalls : ∀ call ∈ calls, call.1 ∈ intRange usable)
    (h : BlUsable g good usable s) :
    ∃ s', calls.foldlM (fun s call => blUpdateOneBlock g s call.1 call.2) s = .ok s' ∧
      BlUsable g good usable s' := by
  apply Meets.exists_ok
  refine Meets.foldlM _ h fun call hc s' hs' => ?_
  exact hs'.update hgood husable hblocks (hcalls call hc) call.2

theorem usableBlocks_le (g : Geometry) (badBlockCnt : Nat) :
    (usableBlocks g badBlockCnt).toNat ≤ g.maxBlock := by
  unfold usableBlocks
  omega

/-- The device after its initialisation has room for the usable blocks. -/
theorem Fresh.blUsable (h : Fresh g good free d) :
    BlUsable g good (usableBlocks g d.badBlockCnt).toNat (openBl d) ∧
      (usableBlocks g d.badBlockCnt).toNat ≤ good.card - g.leastFreeBlocksInFBL := by
  have hrep := h.blRep
  have hnone : mappedBlocks g (openBl d) = ∅ := by
    ext l
    simp [openBl]
  have hcount := hrep.count
  have hbad := h.length_add_bad
  rw [hnone, Finset.card_empty] at hcount
  refine ⟨⟨⟨free, hrep⟩, by simp [hnone]⟩, ?_⟩
  unfold usableBlocks
  omega

/-- However usable blocks are updated, a further update of one returns, and stores the updated
clusters and the other live pages of the old block in a block of its own. -/
theorem blUpdates_safe {draws : Draws} {calls : List (Int × (Int → Int))}
    (hcalls : ∀ call ∈ calls, 0 ≤ call.1 ∧
      call.1 < usableBlocks g (initializeFlashMemory g draws).badBlockCnt) :
    ∃ s, calls.foldlM (fun s call => blUpdateOneBlock g s call.1 call.2)
        (openBl (initializeFlashMemory g draws)) = .ok s ∧ BlSafe g s ∧
      ∀ l, 0 ≤ l → l < usableBlocks g (initializeFlashMemory g draws).badBlockCnt →
        ∀ updatedClusters : Int → Int,
          ∃ s', blUpdateOneBlock g s l updatedClusters = .ok s' ∧ BlSafe g s' ∧
            s'.blTable l ≠ blPointToNull ∧
            ∀ p ∈ g.pages, s'.dev.flashMemory (s'.blTable l) p =
              if updatedClusters p ≠ blPointToNull then updatedClusters p
              else if s.blTable l ≠ blPointToNull ∧
                  s.dev.flashMemory (s.blTable l) p ≠ invalidPage ∧
                  s.dev.flashMemory (s.blTable l) p ≠ freePage then
                s.dev.flashMemory (s.blTable l) p
              else freePage := by
  obtain ⟨free, hfresh⟩ := initializeFlashMemory_fresh g draws
  obtain ⟨husable, hroom⟩ := hfresh.blUsable
  have hgood := hfresh.good_blocks
  have hblocks := usableBlocks_le g (initializeFlashMemory g draws).badBlockCnt
  obtain ⟨s, hrun, hs⟩ := husable.updates hgood hroom hblocks
    (fun call hc => mem_intRange_toNat.mpr (hcalls call hc))
  obtain ⟨free', hrep⟩ := hs.rep
  refine ⟨s, hrun, hrep.safe hgood, fun l hl hlu updatedClusters => ?_⟩
  have hmem := mem_intRange_toNat.mpr ⟨hl, hlu⟩
  have hlb : l ∈ g.blocks := by
    rw [mem_intRange] at hmem
    exact g.mem_blocks.mpr ⟨hl, by omega⟩
  obtain ⟨s', hok, hupd⟩ := hrep.updateOneBlock hgood hlb (hs.room hroom hmem) updatedClusters
  obtain ⟨free'', hrep'⟩ := hupd.rep
  have hl' : l ∈ mappedBlocks g s' := by
    rw [hupd.mapped]
    exact Finset.mem_insert_self _ _
  refine ⟨s', hok, hrep'.safe hgood, (mem_mappedBlocks.mp hl').2, fun p hp => ?_⟩
  have hpage := hupd.page p hp
  rw [logicalPageContent, if_pos ⟨hl', hp⟩] at hpage
  rw [hpage, pageAfterUpdate]
  by_cases hnull : s.blTable l = blPointToNull
  · have hnot : l ∉ mappedBlocks g s := fun hm => (mem_mappedBlocks.mp hm).2 hnull
    simp [logicalPageContent, hnot, hnull]
  · have hm : l ∈ mappedBlocks g s := mem_mappedBlocks.mpr ⟨hlb, hnull⟩
    simp only [logicalPageContent, hm, hp, and_self, if_true, ne_eq, hnull, not_false_eq_true,
      true_and]

/-- The first two blocks of a small device, the first one updated twice. -/
theorem blUpdates_safe_small : ∃ s, [((0 : Int), fun p : Int => p), (1, fun p => 2 + p),
      (0, fun p => if p = 1 then 1 else blPointToNull)].foldlM
        (fun s call => blUpdateOneBlock smallGeometry s call.1 call.2)
        (openBl (initializeFlashMemory smallGeometry smallDraws)) = .ok s ∧
      BlSafe smallGeometry s := by
  have hcalls : ∀ call ∈ [((0 : Int), fun p : Int => p), (1, fun p => 2 + p),
      (0, fun p => if p = 1 then 1 else blPointToNull)], 0 ≤ call.1 ∧ call.1 <
        usableBlocks smallGeometry
          (initializeFlashMemory smallGeometry smallDraws).badBlockCnt := by
    simp only [List.forall_mem_cons]
    decide +kernel
  obtain ⟨s, hrun, hsafe, -⟩ := blUpdates_safe hcalls
  exact ⟨s, hrun, hsafe⟩

end WiscKey.Flash
