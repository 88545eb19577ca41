import WiscKey.Flash.Ftl
import WiscKey.Flash.FreeList

/-!
# The representation invariant of the translation layer

The table and the flash array are inverse to each other, the two counters of a block
count its pages, the listed blocks are erased, the unlisted ones full, and the current
block is programmed up to the write frontier. The victim of a collection is listed
before it is erased, so the invariant names it.
-/

namespace WiscKey.Flash

/-- A page holds a cluster number. -/
def isCluster (content : Int) : Prop := 0 ≤ content

instance : DecidablePred isCluster := fun content => inferInstanceAs (Decidable (0 ≤ content))

@[simp] theorem isCluster_iff {content : Int} : isCluster content ↔ 0 ≤ content := Iff.rfl

@[simp] theorem setPage_self (fm : Int → Int → Int) (b p v : Int) : setPage fm b p v b p = v := by
  simp [setPage]

theorem setPage_of_ne {fm : Int → Int → Int} {b p v b' p' : Int} (h : ¬ (b' = b ∧ p' = p)) :
    setPage fm b p v b' p' = fm b' p' := by
  unfold setPage
  by_cases hb : b' = b
  · subst b'
    rw [Function.update_self, Function.update_of_ne (fun hp => h ⟨rfl, hp⟩)]
  · rw [Function.update_of_ne hb]

theorem setPage_block_self (fm : Int → Int → Int) (b p v : Int) :
    setPage fm b p v b = Function.update (fm b) p v := by
  simp [setPage]

theorem setPage_block_of_ne {fm : Int → Int → Int} {b p v b' : Int} (h : b' ≠ b) :
    setPage fm b p v b' = fm b' := by
  simp [setPage, Function.update_of_ne h]

/-- The pages of an erased block. -/
theorem eraseBlock_page {g : Geometry} {d : Device} {b b' p : Int} (hp : p ∈ g.pages) :
    (eraseBlock g d b).flashMemory b' p = if b' = b then freePage else d.flashMemory b' p := by
  have hpg := g.mem_pages.mp hp
  unfold eraseBlock
  by_cases hb : b' = b
  · subst b'
    rw [if_pos rfl]
    simp only [Function.update_self]
    rw [if_pos hpg]
  · rw [if_neg hb]
    simp only [Function.update_of_ne hb]

variable (g : Geometry)

/-- The table and the pages of the good blocks map clusters and pages to each other. -/
structure PagesMapped (good : Finset Int) (clusters : Int) (fm : Int → Int → Int)
    (table : Int → FTLElement) : Prop where
  content : ∀ b ∈ good, ∀ p ∈ g.pages,
    fm b p = freePage ∨ fm b p = invalidPage ∨ (0 ≤ fm b p ∧ fm b p < clusters)
  bad_marked : ∀ b ∈ g.blocks, b ∉ good → fm b 0 = badBlock
  bad_unused : ∀ b ∈ g.blocks, b ∉ good → ∀ p ∈ g.pages, fm b p = freePage ∨ fm b p = badBlock
  stored : ∀ c, 0 ≤ c → (table c).block ≠ ftlPointToNull →
    (table c).block ∈ good ∧ (table c).page ∈ g.pages ∧ fm (table c).block (table c).page = c
  mapped : ∀ b ∈ good, ∀ p ∈ g.pages, 0 ≤ fm b p → table (fm b p) = ⟨b, p⟩

/-- The counters of every block count its cluster pages and its invalid pages. -/
structure PagesCounted (fm : Int → Int → Int) (valid invalid : Int → Int) : Prop where
  valid : ∀ b ∈ g.blocks, valid b = countCells g.pages isCluster (fm b)
  invalid : ∀ b ∈ g.blocks, invalid b = countCells g.pages (· = invalidPage) (fm b)

/-- The representation invariant, while the block `victim` is being collected, if any. -/
structure Rep (good : Finset Int) (clusters : Int) (free : List Int) (victim : Option Int)
    (s : Ftl) : Prop where
  listed : FreeListed good free s.dev
  pages : PagesMapped g good clusters s.dev.flashMemory s.ftlTable
  counted : PagesCounted g s.dev.flashMemory s.dev.validPageCnt s.dev.invalidPageCnt
  erased : ∀ b ∈ free, victim ≠ some b → ∀ p ∈ g.pages, s.dev.flashMemory b p = freePage
  full : ∀ b ∈ good, (b ∈ free → victim = some b) → b ≠ s.currentFreeBlockID →
    ∀ p ∈ g.pages, s.dev.flashMemory b p ≠ freePage
  current_good : s.currentFreeBlockID ≠ -1 → s.currentFreeBlockID ∈ good
  current_unlisted : s.currentFreeBlockID ∉ free
  frontier_nonneg : 0 ≤ s.currentFreePageID
  frontier_le : s.currentFreePageID ≤ g.maxPage
  frontier : s.currentFreeBlockID ≠ -1 → ∀ p ∈ g.pages,
    s.dev.flashMemory s.currentFreeBlockID p = freePage ↔ s.currentFreePageID ≤ p

variable {g} {good : Finset Int} {clusters : Int} {fm : Int → Int → Int}
  {table : Int → FTLElement}

/-- Invalidating the page of a stored cluster unmaps it. -/
theorem PagesMapped.invalidate (h : PagesMapped g good clusters fm table) {c : Int} (hc : 0 ≤ c)
    (hstored : (table c).block ≠ ftlPointToNull) :
    PagesMapped g good clusters (setPage fm (table c).block (table c).page invalidPage)
      (Function.update table c ⟨ftlPointToNull, ftlPointToNull⟩) := by
  obtain ⟨hb, hp, hpage⟩ := h.stored c hc hstored
  refine ⟨?_, ?_, ?_, ?_, ?_⟩
  · intro b hbg p hpg
    by_cases hbp : b = (table c).block ∧ p = (table c).page
    · obtain ⟨rfl, rfl⟩ := hbp
      exact .inr (.inl (setPage_self _ _ _ _))
    · rw [setPage_of_ne hbp]
      exact h.content b hbg p hpg
  · intro b hbk hbg
    rw [setPage_block_of_ne (ne_of_mem_of_not_mem hb hbg).symm]
    exact h.bad_marked b hbk hbg
  · intro b hbk hbg p hpg
    rw [setPage_block_of_ne (ne_of_mem_of_not_mem hb hbg).symm]
    exact h.bad_unused b hbk hbg p hpg
  · intro c' hc' hstored'
    by_cases hcc : c' = c
    · subst c'
      simp at hstored'
    · rw [Function.update_of_ne hcc] at hstored' ⊢
      obtain ⟨hb', hp', hpage'⟩ := h.stored c' hc' hstored'
      refine ⟨hb', hp', ?_⟩
      rw [setPage_of_ne]
      · exact hpage'
      · rintro ⟨hbe, hpe⟩
        rw [hbe, hpe, hpage] at hpage'
        exact hcc hpage'.symm
  · intro b hbg p hpg hcl
    by_cases hbp : b = (table c).block ∧ p = (table c).page
    · obtain ⟨rfl, rfl⟩ := hbp
      rw [setPage_self] at hcl
      exact absurd hcl (by decide)
    · rw [setPage_of_ne hbp] at hcl ⊢
      have hm := h.mapped b hbg p hpg hcl
      have hne : fm b p ≠ c := by
        rintro rfl
        exact hbp (by rw [hm]; exact ⟨rfl, rfl⟩)
      rw [Function.update_of_ne hne]
      exact hm

/-- Programming a free page with an unmapped cluster maps it there. -/
theorem PagesMapped.program (h : PagesMapped g good clusters fm table) {b p c : Int}
    (hgood : good ⊆ g.blocks) (hb : b ∈ good) (hp : p ∈ g.pages) (hfree : fm b p = freePage)
    (hc : 0 ≤ c)
    (hcl : c < clusters) (hnull : (table c).block = ftlPointToNull) :
    PagesMapped g good clusters (setPage fm b p c) (Function.update table c ⟨b, p⟩) := by
  refine ⟨?_, ?_, ?_, ?_, ?_⟩
  · intro b' hb' p' hp'
    by_cases hbp : b' = b ∧ p' = p
    · obtain ⟨rfl, rfl⟩ := hbp
      rw [setPage_self]
      exact .inr (.inr ⟨hc, hcl⟩)
    · rw [setPage_of_ne hbp]
      exact h.content b' hb' p' hp'
  · intro b' hbk hbg
    rw [setPage_block_of_ne (ne_of_mem_of_not_mem hb hbg).symm]
    exact h.bad_marked b' hbk hbg
  · intro b' hbk hbg p' hp'
    rw [setPage_block_of_ne (ne_of_mem_of_not_mem hb hbg).symm]
    exact h.bad_unused b' hbk hbg p' hp'
  · intro c' hc' hstored'
    by_cases hcc : c' = c
    · subst c'
      simp [hb, g.mem_pages.mp hp]
    · rw [Function.update_of_ne hcc] at hstored' ⊢
      obtain ⟨hb', hp', hpage'⟩ := h.stored c' hc' hstored'
      refine ⟨hb', hp', ?_⟩
      rw [setPage_of_ne]
      · exact hpage'
      · rintro ⟨hbe, hpe⟩
        rw [hbe, hpe, hfree] at hpage'
        rw [← hpage'] at hc'
        exact absurd hc' (by decide)
  · intro b' hb' p' hp' hcl'
    by_cases hbp : b' = b ∧ p' = p
    · obtain ⟨rfl, rfl⟩ := hbp
      simp
    · rw [setPage_of_ne hbp] at hcl' ⊢
      have hm := h.mapped b' hb' p' hp' hcl'
      have hne : fm b' p' ≠ c := by
        intro he
        rw [← he, hm] at hnull
        exact g.ne_null_of_mem_blocks (hgood hb') hnull
      rw [Function.update_of_ne hne]
      exact hm

section Counters

variable {valid invalid : Int → Int} {b p : Int}

/-- Invalidating a cluster page moves it from one counter to the other. -/
theorem PagesCounted.invalidate (h : PagesCounted g fm valid invalid) (hp : p ∈ g.pages)
    (hold : 0 ≤ fm b p) :
    PagesCounted g (setPage fm b p invalidPage) (Function.update valid b (valid b - 1))
      (Function.update invalid b (invalid b + 1)) := by
  have hne : fm b p ≠ invalidPage := fun he => absurd (he ▸ hold) (by decide)
  refine ⟨fun b' hb' => ?_, fun b' hb' => ?_⟩
  · by_cases hbb : b' = b
    · subst b'
      have hcount := h.valid b hb'
      have hsub := countCells_update_sub (q := isCluster) (a := invalidPage) hp hold (by decide)
      rw [Function.update_self, setPage_block_self]
      omega
    · rw [Function.update_of_ne hbb, setPage_block_of_ne hbb]
      exact h.valid b' hb'
  · by_cases hbb : b' = b
    · subst b'
      have hcount := h.invalid b hb'
      have hadd := countCells_update_add (q := (· = invalidPage)) (a := invalidPage) hp hne rfl
      rw [Function.update_self, setPage_block_self]
      omega
    · rw [Function.update_of_ne hbb, setPage_block_of_ne hbb]
      exact h.invalid b' hb'

/-- Programming a free page with a cluster adds one to the cluster pages. -/
theorem PagesCounted.program (h : PagesCounted g fm valid invalid) (hp : p ∈ g.pages)
    (hold : fm b p = freePage) {c : Int} (hc : 0 ≤ c) :
    PagesCounted g (setPage fm b p c) (Function.update valid b (valid b + 1)) invalid := by
  have hncl : ¬ isCluster (fm b p) := by
    rw [hold]
    decide
  have hninv : fm b p ≠ invalidPage := by
    rw [hold]
    decide
  have hcinv : c ≠ invalidPage := fun he => absurd (he ▸ hc) (by decide)
  refine ⟨fun b' hb' => ?_, fun b' hb' => ?_⟩
  · by_cases hbb : b' = b
    · subst b'
      have hcount := h.valid b hb'
      have hadd := countCells_update_add (q := isCluster) (a := c) hp hncl hc
      rw [Function.update_self, setPage_block_self]
      omega
    · rw [Function.update_of_ne hbb, setPage_block_of_ne hbb]
      exact h.valid b' hb'
  · by_cases hbb : b' = b
    · subst b'
      rw [setPage_block_self, countCells_update_of_iff (by simp [hninv, hcinv])]
      exact h.invalid b hb'
    · rw [setPage_block_of_ne hbb]
      exact h.invalid b' hb'

end Counters

section Write

variable {free : List Int} {victim : Option Int} {s : Ftl} {c : Int}

/-- The state between the two halves of a write, its stale table entry cleared. -/
def forgetCluster (s : Ftl) (c : Int) : Ftl :=
  { ftlInvalidate s c with
    ftlTable := Function.update s.ftlTable c ⟨ftlPointToNull, ftlPointToNull⟩ }

theorem ftlProgram_forgetCluster (s : Ftl) (c : Int) :
    ftlProgram (ftlInvalidate s c) c = ftlProgram (forgetCluster s c) c := by
  have htable : (ftlInvalidate s c).ftlTable = s.ftlTable := by
    unfold ftlInvalidate
    simp only
    split <;> rfl
  simp [ftlProgram, forgetCluster, htable]

/-- An unmapped cluster is only forgotten on paper. -/
theorem forgetCluster_unmapped (h : (s.ftlTable c).block = ftlPointToNull) :
    (forgetCluster s c).dev = s.dev := by
  simp [forgetCluster, ftlInvalidate, h]

theorem forgetCluster_mapped (h : (s.ftlTable c).block ≠ ftlPointToNull) :
    (forgetCluster s c).dev = { s.dev with
      flashMemory := setPage s.dev.flashMemory (s.ftlTable c).block (s.ftlTable c).page invalidPage
      invalidPageCnt := Function.update s.dev.invalidPageCnt (s.ftlTable c).block
        (s.dev.invalidPageCnt (s.ftlTable c).block + 1)
      validPageCnt := Function.update s.dev.validPageCnt (s.ftlTable c).block
        (s.dev.validPageCnt (s.ftlTable c).block - 1) } := by
  simp [forgetCluster, ftlInvalidate, h]

@[simp] theorem forgetCluster_currentFreeBlockID :
    (forgetCluster s c).currentFreeBlockID = s.currentFreeBlockID := by
  simp only [forgetCluster, ftlInvalidate]
  split <;> rfl

@[simp] theorem forgetCluster_currentFreePageID :
    (forgetCluster s c).currentFreePageID = s.currentFreePageID := by
  simp only [forgetCluster, ftlInvalidate]
  split <;> rfl

@[simp] theorem forgetCluster_currentScanningBlockID :
    (forgetCluster s c).currentScanningBlockID = s.currentScanningBlockID := by
  simp only [forgetCluster, ftlInvalidate]
  split <;> rfl

@[simp] theorem forgetCluster_invalidPage2ValidPageDivider :
    (forgetCluster s c).invalidPage2ValidPageDivider = s.invalidPage2ValidPageDivider := by
  simp only [forgetCluster, ftlInvalidate]
  split <;> rfl

@[simp] theorem forgetCluster_ftlTable :
    (forgetCluster s c).ftlTable =
      Function.update s.ftlTable c ⟨ftlPointToNull, ftlPointToNull⟩ := rfl

/-- Unmapping a null entry changes nothing that the invariant sees. -/
theorem PagesMapped.clear (h : PagesMapped g good clusters fm table) (hgood : good ⊆ g.blocks)
    (hnull : (table c).block = ftlPointToNull) :
    PagesMapped g good clusters fm
      (Function.update table c ⟨ftlPointToNull, ftlPointToNull⟩) := by
  refine ⟨h.content, h.bad_marked, h.bad_unused, ?_, ?_⟩
  · intro c' hc' hstored'
    by_cases hcc : c' = c
    · subst c'
      simp at hstored'
    · rw [Function.update_of_ne hcc] at hstored' ⊢
      exact h.stored c' hc' hstored'
  · intro b hb p hp hcl
    have hm := h.mapped b hb p hp hcl
    have hne : fm b p ≠ c := by
      rintro rfl
      rw [hm] at hnull
      exact g.ne_null_of_mem_blocks (hgood hb) hnull
    rw [Function.update_of_ne hne]
    exact hm

/-- The first half of a write keeps the invariant and unmaps the cluster. -/
theorem Rep.forget (h : Rep g good clusters free victim s) (hgood : good ⊆ g.blocks)
    (hc : 0 ≤ c) : Rep g good clusters free victim (forgetCluster s c) := by
  by_cases hnull : (s.ftlTable c).block = ftlPointToNull
  · have hdev := forgetCluster_unmapped hnull
    refine ⟨?_, ?_, ?_, ?_, ?_, ?_, ?_, ?_, ?_, ?_⟩
    all_goals simp only [hdev, forgetCluster_currentFreeBlockID, forgetCluster_currentFreePageID,
      forgetCluster_ftlTable]
    · exact h.listed
    · exact h.pages.clear hgood hnull
    · exact h.counted
    · exact h.erased
    · exact h.full
    · exact h.current_good
    · exact h.current_unlisted
    · exact h.frontier_nonneg
    · exact h.frontier_le
    · exact h.frontier
  · have hdev := forgetCluster_mapped hnull
    obtain ⟨hb, hp, hpage⟩ := h.pages.stored c hc hnull
    have hold : 0 ≤ s.dev.flashMemory (s.ftlTable c).block (s.ftlTable c).page := by
      rw [hpage]
      exact hc
    have hkeep : ∀ b p, (setPage s.dev.flashMemory (s.ftlTable c).block (s.ftlTable c).page
        invalidPage b p = freePage ↔ s.dev.flashMemory b p = freePage) := by
      intro b p
      by_cases hbp : b = (s.ftlTable c).block ∧ p = (s.ftlTable c).page
      · obtain ⟨rfl, rfl⟩ := hbp
        rw [setPage_self, hpage]
        refine iff_of_false (by decide) ?_
        rintro rfl
        exact absurd hc (by decide)
      · rw [setPage_of_ne hbp]
    refine ⟨?_, ?_, ?_, ?_, ?_, ?_, ?_, ?_, ?_, ?_⟩
    all_goals simp only [hdev, forgetCluster_currentFreeBlockID, forgetCluster_currentFreePageID,
      forgetCluster_ftlTable, ne_eq, hkeep]
    · exact h.listed.congr rfl rfl rfl rfl
    · exact h.pages.invalidate hc hnull
    · exact h.counted.invalidate hp hold
    · exact h.erased
    · exact h.full
    · exact h.current_good
    · exact h.current_unlisted
    · exact h.frontier_nonneg
    · exact h.frontier_le
    · exact h.frontier

/-- The second half of a write keeps the invariant, given a current page. -/
theorem Rep.program (h : Rep g good clusters free victim s) (hgood : good ⊆ g.blocks)
    (hc : 0 ≤ c) (hcl : c < clusters) (hnull : (s.ftlTable c).block = ftlPointToNull)
    (hcur : s.currentFreeBlockID ≠ -1) (hpage : s.currentFreePageID < g.maxPage) :
    Rep g good clusters free victim (ftlProgram s c) := by
  have hb := h.current_good hcur
  have hp : s.currentFreePageID ∈ g.pages := g.mem_pages.mpr ⟨h.frontier_nonneg, hpage⟩
  have hfree := (h.frontier hcur _ hp).mpr le_rfl
  refine ⟨h.listed.congr rfl rfl rfl rfl, h.pages.program hgood hb hp hfree hc hcl hnull,
    h.counted.program hp hfree hc, ?_, ?_, h.current_good, h.current_unlisted, ?_, ?_, ?_⟩
  · intro b hbf hv p hpg
    have hne : b ≠ s.currentFreeBlockID := fun he => h.current_unlisted (he ▸ hbf)
    simp only [ftlProgram]
    rw [setPage_block_of_ne hne]
    exact h.erased b hbf hv p hpg
  · intro b hbg hv hne p hpg
    simp only [ftlProgram] at hne ⊢
    rw [setPage_block_of_ne hne]
    exact h.full b hbg hv hne p hpg
  · have := h.frontier_nonneg
    simp only [ftlProgram]
    omega
  · simp only [ftlProgram]
    omega
  · intro _ p hpg
    simp only [ftlProgram]
    by_cases hpe : p = s.currentFreePageID
    · subst p
      rw [setPage_self]
      refine iff_of_false ?_ (by omega)
      rintro rfl
      exact absurd hc (by decide)
    · rw [setPage_of_ne (fun hbp => hpe hbp.2), h.frontier hcur p hpg]
      omega

/-- A write to a current page succeeds and keeps the invariant. -/
theorem Rep.write (h : Rep g good clusters free victim s) (hgood : good ⊆ g.blocks)
    (hc : 0 ≤ c) (hcl : c < clusters) (hcur : s.currentFreeBlockID ≠ -1)
    (hpage : s.currentFreePageID < g.maxPage) :
    ftlWriteOneCluster g s c = .ok (ftlProgram (forgetCluster s c) c) ∧
      Rep g good clusters free victim (ftlProgram (forgetCluster s c) c) := by
  have hb := g.mem_blocks.mp (hgood (h.current_good hcur))
  constructor
  · unfold ftlWriteOneCluster
    rw [if_neg (by omega), ftlProgram_forgetCluster]
  · apply (h.forget hgood hc).program hgood hc hcl
    · simp
    · simpa using hcur
    · simpa using hpage

/-- A write returns only with a current block. -/
theorem ftlWriteOneCluster_ok {s' : Ftl} (h : ftlWriteOneCluster g s c = .ok s') :
    s.currentFreeBlockID ≠ -1 := by
  unfold ftlWriteOneCluster at h
  split at h
  · cases h
  · omega

end Write

end WiscKey.Flash
