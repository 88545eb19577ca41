import WiscKey.Flash.Dftl

/-!
# The representation invariant of the demand-based layer

The table and the data pages map clusters and pages to each other, the listed blocks are
erased, the counters of the others count their pages, and the current block is programmed up
to its frontier. While a block is collected its copied pages are stale: the mapping is about
the view in which they are invalid already.
-/

namespace WiscKey.Flash

/-- Where the table has a cluster. -/
def Dftl.place (s : Dftl) (clusterID : Int) : Int × Int :=
  ((s.dftlTable clusterID).block, (s.dftlTable clusterID).page)

variable (g : Geometry)

/-- The table and the pages of the data blocks map clusters and pages to each other. -/
structure DataMapped (data : Finset Int) (fm : Int → Int → Int) (place : Int → Int × Int) :
    Prop where
  content : ∀ b ∈ data, ∀ p ∈ g.pages, fm b p = freePage ∨ fm b p = invalidPage ∨ 0 ≤ fm b p
  stored : ∀ c, 0 ≤ c → (place c).1 ≠ dftlPointToNull →
    (place c).1 ∈ data ∧ (place c).2 ∈ g.pages ∧ fm (place c).1 (place c).2 = c
  mapped : ∀ b ∈ data, ∀ p ∈ g.pages, 0 ≤ fm b p → place (fm b p) = (b, p)

/-- The pages once the page of a cluster, if it has one, is invalid. -/
def vacate (fm : Int → Int → Int) (place : Int → Int × Int) (c : Int) : Int → Int → Int :=
  if (place c).1 ≠ dftlPointToNull then setPage fm (place c).1 (place c).2 invalidPage else fm

/-- The pages with the first `n` pages of block `v` invalid. -/
def staleView (fm : Int → Int → Int) (v : Int) (n : Nat) : Int → Int → Int :=
  fun b p => if b = v ∧ 0 ≤ p ∧ p < n then invalidPage else fm b p

/-- What the three counters of a block are: `ValidPageCnt` counts the pages that were
programmed since the erase. -/
structure BlockCounted (d : Device) (b : Int) : Prop where
  invalid : d.invalidPageCnt b = countCells g.pages (· = invalidPage) (d.flashMemory b)
  valid : d.validPageCnt b = countCells g.pages (· ≠ freePage) (d.flashMemory b)
  free : d.freePageCnt b = countCells g.pages (· = freePage) (d.flashMemory b)

/-- The invariant of the data blocks, for a view of the pages. -/
structure DataRep (data : Finset Int) (free : List Int) (view : Int → Int → Int) (s : Dftl) :
    Prop where
  listed : FreeListed data free s.dev
  mapped : DataMapped g data view s.place
  erased : ∀ b ∈ free, ∀ p ∈ g.pages, s.dev.flashMemory b p = freePage
  counted : ∀ b ∈ data, b ∉ free → BlockCounted g s.dev b
  other_pages : ∀ b ∈ g.blocks, b ∉ data → ∀ p ∈ g.pages, s.dev.flashMemory b p < 0
  other_invalid : ∀ b ∈ g.blocks, b ∉ data → s.dev.invalidPageCnt b = 0
  other_use : ∀ b ∈ g.blocks, b ∉ data →
    b ∈ translationBlks g s ∨ s.dev.flashMemory b 0 = badBlock
  translation : ∀ b ∈ translationBlks g s, b ∉ data

/-- The current block is programmed up to the current page. -/
structure CurrentBlk (data : Finset Int) (free : List Int) (s : Dftl) : Prop where
  mem_data : s.currentDataBlkNum ∈ data
  unlisted : s.currentDataBlkNum ∉ free
  page_nonneg : 0 ≤ s.currentDataBlkPageNum
  page_le : s.currentDataBlkPageNum ≤ g.maxPage
  frontier : ∀ p ∈ g.pages,
    s.dev.flashMemory s.currentDataBlkNum p = freePage ↔ s.currentDataBlkPageNum ≤ p

variable {g} {data : Finset Int} {fm fm' : Int → Int → Int} {place : Int → Int × Int}
  {b p c : Int}

section Mapping

/-- Only the page of the cluster changes. -/
theorem DataMapped.vacate_page (h : DataMapped g data fm place) (hdata : data ⊆ g.blocks)
    (hc : 0 ≤ c) (hb : b ∈ data) (hp : p ∈ g.pages) :
    vacate fm place c b p = if fm b p = c then invalidPage else fm b p := by
  unfold vacate
  by_cases hnull : (place c).1 ≠ dftlPointToNull
  · obtain ⟨-, -, hpage⟩ := h.stored c hc hnull
    rw [if_pos hnull]
    by_cases hbp : b = (place c).1 ∧ p = (place c).2
    · obtain ⟨rfl, rfl⟩ := hbp
      rw [setPage_self, if_pos hpage]
    · rw [setPage_of_ne hbp, if_neg]
      intro heq
      have hplace := h.mapped b hb p hp (heq ▸ hc)
      rw [heq] at hplace
      exact hbp (by rw [hplace]; exact ⟨rfl, rfl⟩)
  · rw [if_neg hnull, if_neg]
    intro heq
    have hplace := h.mapped b hb p hp (heq ▸ hc)
    rw [heq] at hplace
    rw [not_not, hplace] at hnull
    exact g.ne_null_of_mem_blocks (hdata hb) hnull

/-- A cluster leaves its page for a free one. -/
theorem DataMapped.move (h : DataMapped g data fm place) (hdata : data ⊆ g.blocks) (hc : 0 ≤ c)
    (hb : b ∈ data) (hp : p ∈ g.pages) (hfree : fm b p = freePage) :
    DataMapped g data (setPage (vacate fm place c) b p c) (Function.update place c (b, p)) := by
  have hpage : ∀ b' ∈ data, ∀ p' ∈ g.pages, ¬ (b' = b ∧ p' = p) →
      setPage (vacate fm place c) b p c b' p' =
        if fm b' p' = c then invalidPage else fm b' p' := by
    intro b' hb' p' hp' hne
    rw [setPage_of_ne hne, h.vacate_page hdata hc hb' hp']
  refine ⟨?_, ?_, ?_⟩
  · intro b' hb' p' hp'
    by_cases hbp : b' = b ∧ p' = p
    · obtain ⟨rfl, rfl⟩ := hbp
      rw [setPage_self]
      exact .inr (.inr hc)
    · rw [hpage b' hb' p' hp' hbp]
      split
      · exact .inr (.inl rfl)
      · exact h.content b' hb' p' hp'
  · intro c' hc' hstored
    by_cases hcc : c' = c
    · subst c'
      rw [Function.update_self]
      exact ⟨hb, hp, setPage_self _ _ _ _⟩
    · rw [Function.update_of_ne hcc] at hstored ⊢
      obtain ⟨hb', hp', hpage'⟩ := h.stored c' hc' hstored
      refine ⟨hb', hp', ?_⟩
      rw [hpage _ hb' _ hp', hpage', if_neg hcc]
      rintro ⟨hbe, hpe⟩
      rw [hbe, hpe, hfree] at hpage'
      rw [← hpage'] at hc'
      exact absurd hc' (by decide)
  · intro b' hb' p' hp' hcl
    by_cases hbp : b' = b ∧ p' = p
    · obtain ⟨rfl, rfl⟩ := hbp
      rw [setPage_self, Function.update_self]
    · rw [hpage b' hb' p' hp' hbp] at hcl ⊢
      split at hcl
      · exact absurd hcl (by decide)
      · rename_i hcc
        rw [if_neg hcc, Function.update_of_ne hcc]
        exact h.mapped b' hb' p' hp' hcl

/-- Pages without a cluster may become invalid or free. -/
theorem DataMapped.discard (h : DataMapped g data fm place)
    (hsame : ∀ b ∈ data, ∀ p ∈ g.pages, fm' b p = fm b p ∨
      (fm b p < 0 ∧ (fm' b p = freePage ∨ fm' b p = invalidPage))) :
    DataMapped g data fm' place := by
  refine ⟨?_, ?_, ?_⟩
  · intro b hb p hp
    rcases hsame b hb p hp with heq | ⟨-, heq | heq⟩
    · rw [heq]
      exact h.content b hb p hp
    · exact .inl heq
    · exact .inr (.inl heq)
  · intro c hc hstored
    obtain ⟨hb, hp, hpage⟩ := h.stored c hc hstored
    refine ⟨hb, hp, ?_⟩
    rcases hsame _ hb _ hp with heq | ⟨hneg, -⟩
    · rw [heq, hpage]
    · omega
  · intro b hb p hp hcl
    rcases hsame b hb p hp with heq | ⟨-, heq | heq⟩
    · rw [heq] at hcl ⊢
      exact h.mapped b hb p hp hcl
    · exact absurd hcl (by rw [heq]; decide)
    · exact absurd hcl (by rw [heq]; decide)

@[simp] theorem staleView_zero (fm : Int → Int → Int) (v : Int) : staleView fm v 0 = fm := by
  ext b p
  unfold staleView
  rw [if_neg]
  rintro ⟨-, h0, hn⟩
  omega

/-- A page outside the stale ones. -/
theorem staleView_of_not {v : Int} {n : Nat} (h : ¬ (b = v ∧ 0 ≤ p ∧ p < n)) :
    staleView fm v n b p = fm b p := if_neg h

/-- The next page of the block becomes stale. -/
theorem staleView_succ (fm : Int → Int → Int) (v : Int) (n : Nat) :
    staleView fm v (n + 1) = setPage (staleView fm v n) v n invalidPage := by
  ext b p
  by_cases hbp : b = v ∧ p = n
  · obtain ⟨rfl, rfl⟩ := hbp
    rw [setPage_self]
    exact if_pos ⟨rfl, by omega, by omega⟩
  · rw [setPage_of_ne hbp]
    unfold staleView
    refine if_congr ?_ rfl rfl
    constructor
    · rintro ⟨hb, h0, hn⟩
      exact ⟨hb, h0, by have := fun hp => hbp ⟨hb, hp⟩; omega⟩
    · rintro ⟨hb, h0, hn⟩
      exact ⟨hb, h0, by omega⟩

/-- A store in another block keeps the stale pages. -/
theorem staleView_setPage {v : Int} {n : Nat} (hne : b ≠ v) :
    staleView (setPage fm b p c) v n = setPage (staleView fm v n) b p c := by
  ext b' p'
  by_cases hbp : b' = b ∧ p' = p
  · obtain ⟨rfl, rfl⟩ := hbp
    rw [setPage_self, staleView_of_not (fun h => hne h.1), setPage_self]
  · rw [setPage_of_ne hbp]
    unfold staleView
    rw [setPage_of_ne hbp]

end Mapping

section Counters

variable {d d' : Device}

/-- Only the block's own pages and counters matter. -/
theorem BlockCounted.congr (h : BlockCounted g d b) (hpages : d'.flashMemory b = d.flashMemory b)
    (hinvalid : d'.invalidPageCnt b = d.invalidPageCnt b)
    (hvalid : d'.validPageCnt b = d.validPageCnt b) (hfree : d'.freePageCnt b = d.freePageCnt b) :
    BlockCounted g d' b := by
  constructor
  · rw [hinvalid, hpages]
    exact h.invalid
  · rw [hvalid, hpages]
    exact h.valid
  · rw [hfree, hpages]
    exact h.free

/-- The counters of an erased block. -/
theorem BlockCounted.of_erased (hpages : ∀ p ∈ g.pages, d.flashMemory b p = freePage)
    (hinvalid : d.invalidPageCnt b = 0) (hvalid : d.validPageCnt b = 0)
    (hfree : d.freePageCnt b = g.maxPage) : BlockCounted g d b := by
  constructor
  · rw [hinvalid, countCells_eq_zero.mpr, Nat.cast_zero]
    intro p hp
    rw [hpages p hp]
    decide
  · rw [hvalid, countCells_eq_zero.mpr, Nat.cast_zero]
    exact fun p hp hne => hne (hpages p hp)
  · rw [hfree, countCells_eq_card hpages, g.card_pages]

/-- Programming a free page of the block. -/
theorem BlockCounted.program (h : BlockCounted g d b) (hp : p ∈ g.pages)
    (hfree : d.flashMemory b p = freePage) (hc : 0 ≤ c)
    (hpages : d'.flashMemory b = Function.update (d.flashMemory b) p c)
    (hinvalid : d'.invalidPageCnt b = d.invalidPageCnt b)
    (hvalid : d'.validPageCnt b = d.validPageCnt b + 1)
    (hfreeCnt : d'.freePageCnt b = d.freePageCnt b - 1) : BlockCounted g d' b := by
  have hcfree : c ≠ freePage := fun he => absurd (he ▸ hc) (by decide)
  have hcinv : c ≠ invalidPage := fun he => absurd (he ▸ hc) (by decide)
  have hfinv : freePage ≠ invalidPage := by decide
  constructor
  · rw [hinvalid, hpages, countCells_update_of_iff (by simp [hcinv, hfree, hfinv])]
    exact h.invalid
  · have hadd := countCells_update_add (q := (· ≠ freePage)) (a := c) hp (not_not.mpr hfree) hcfree
    rw [hvalid, hpages, hadd, h.valid, Nat.cast_succ]
  · have hsub := countCells_update_sub (q := (· = freePage)) (a := c) hp hfree hcfree
    have hcount := h.free
    rw [hfreeCnt, hpages]
    omega

/-- Invalidating a page of the block that holds a cluster. -/
theorem BlockCounted.invalidate (h : BlockCounted g d b) (hp : p ∈ g.pages)
    (hold : 0 ≤ d.flashMemory b p)
    (hpages : d'.flashMemory b = Function.update (d.flashMemory b) p invalidPage)
    (hinvalid : d'.invalidPageCnt b = d.invalidPageCnt b + 1)
    (hvalid : d'.validPageCnt b = d.validPageCnt b)
    (hfreeCnt : d'.freePageCnt b = d.freePageCnt b) : BlockCounted g d' b := by
  have hnfree : d.flashMemory b p ≠ freePage := fun he => absurd (he ▸ hold) (by decide)
  have hninv : d.flashMemory b p ≠ invalidPage := fun he => absurd (he ▸ hold) (by decide)
  have hfinv : invalidPage ≠ freePage := by decide
  constructor
  · have hadd := countCells_update_add (q := (· = invalidPage)) (a := invalidPage) hp hninv rfl
    rw [hinvalid, hpages, hadd, h.invalid, Nat.cast_succ]
  · rw [hvalid, hpages, countCells_update_of_iff (by simp [hnfree, hfinv])]
    exact h.valid
  · rw [hfreeCnt, hpages, countCells_update_of_iff (by simp [hnfree, hfinv])]
    exact h.free

end Counters

section States

variable {free : List Int} {view : Int → Int → Int} {s s' : Dftl} {a : Int}

/-- Only the device and the places matter. -/
theorem DataRep.congr (h : DataRep g data free view s) (hdev : s'.dev = s.dev)
    (hplace : s'.place = s.place) (hgtd : s'.gtd = s.gtd) : DataRep g data free view s' := by
  have htrans : translationBlks g s' = translationBlks g s := by
    unfold translationBlks
    rw [hgtd]
  refine ⟨?_, ?_, ?_, ?_, ?_, ?_, ?_, ?_⟩
  · rw [hdev]
    exact h.listed
  · rw [hplace]
    exact h.mapped
  · rw [hdev]
    exact h.erased
  · rw [hdev]
    exact h.counted
  · rw [hdev]
    exact h.other_pages
  · rw [hdev]
    exact h.other_invalid
  · rw [hdev, htrans]
    exact h.other_use
  · rw [htrans]
    exact h.translation

theorem CurrentBlk.congr (h : CurrentBlk g data free s) (hdev : s'.dev = s.dev)
    (hblock : s'.currentDataBlkNum = s.currentDataBlkNum)
    (hpage : s'.currentDataBlkPageNum = s.currentDataBlkPageNum) : CurrentBlk g data free s' := by
  refine ⟨?_, ?_, ?_, ?_, ?_⟩
  · rw [hblock]
    exact h.mem_data
  · rw [hblock]
    exact h.unlisted
  · rw [hpage]
    exact h.page_nonneg
  · rw [hpage]
    exact h.page_le
  · rw [hdev, hblock, hpage]
    exact h.frontier

/-- The state after `dftlProgram`. -/
def dftlProgrammed (s : Dftl) (clusterID : Int) : Dftl :=
  let block := s.currentDataBlkNum
  let page := s.currentDataBlkPageNum
  { s with
    dev := { s.dev with
      flashMemory := setPage s.dev.flashMemory block page clusterID
      validPageCnt := Function.update s.dev.validPageCnt block (s.dev.validPageCnt block + 1)
      freePageCnt := Function.update s.dev.freePageCnt block (s.dev.freePageCnt block - 1) }
    dftlTable := Function.update s.dftlTable clusterID
      { s.dftlTable clusterID with block := block, page := page }
    currentDataBlkPageNum := page + 1 }

theorem dftlProgram_ok (hb : s.currentDataBlkNum ∈ g.blocks) :
    dftlProgram g s c = .ok (dftlProgrammed s c) := by
  have hb := g.mem_blocks.mp hb
  unfold dftlProgram programPage
  simp only
  rw [if_neg (by omega)]
  rfl

theorem dftlProgrammed_place :
    (dftlProgrammed s c).place =
      Function.update s.place c (s.currentDataBlkNum, s.currentDataBlkPageNum) := by
  ext c' : 1
  by_cases hcc : c' = c
  · subst c'
    simp [Dftl.place, dftlProgrammed]
  · simp [Dftl.place, dftlProgrammed, Function.update_of_ne hcc]

/-- The cluster moves to the page at the frontier. -/
theorem DataRep.program (h : DataRep g data free view s) (hcur : CurrentBlk g data free s)
    (hdata : data ⊆ g.blocks) (hc : 0 ≤ c) (hroom : s.currentDataBlkPageNum < g.maxPage)
    (hview : view s.currentDataBlkNum s.currentDataBlkPageNum = freePage) :
    DataRep g data free
        (setPage (vacate view s.place c) s.currentDataBlkNum s.currentDataBlkPageNum c)
        (dftlProgrammed s c) ∧
      CurrentBlk g data free (dftlProgrammed s c) := by
  have hp : s.currentDataBlkPageNum ∈ g.pages := g.mem_pages.mpr ⟨hcur.page_nonneg, hroom⟩
  have hfree := (hcur.frontier _ hp).mpr le_rfl
  have hother : ∀ b, b ≠ s.currentDataBlkNum →
      (dftlProgrammed s c).dev.flashMemory b = s.dev.flashMemory b := fun b hne =>
    setPage_block_of_ne hne
  constructor
  · refine ⟨h.listed.congr rfl rfl rfl rfl, ?_, ?_, ?_, ?_, ?_, ?_, h.translation⟩
    · rw [dftlProgrammed_place]
      exact h.mapped.move hdata hc hcur.mem_data hp hview
    · intro b hb p hpg
      rw [hother b (fun he => hcur.unlisted (he ▸ hb))]
      exact h.erased b hb p hpg
    · intro b hb hnot
      by_cases hbc : b = s.currentDataBlkNum
      · subst b
        refine (h.counted _ hb hnot).program hp hfree hc (setPage_block_self _ _ _ _) rfl ?_ ?_
        · exact Function.update_self ..
        · exact Function.update_self ..
      · refine (h.counted b hb hnot).congr (hother b hbc) rfl ?_ ?_
        · exact Function.update_of_ne hbc ..
        · exact Function.update_of_ne hbc ..
    · intro b hb hnot
      rw [hother b (ne_of_mem_of_not_mem hcur.mem_data hnot).symm]
      exact h.other_pages b hb hnot
    · exact h.other_invalid
    · intro b hb hnot
      rw [hother b (ne_of_mem_of_not_mem hcur.mem_data hnot).symm]
      exact h.other_use b hb hnot
  · refine ⟨hcur.mem_data, hcur.unlisted, ?_, ?_, ?_⟩
    · have := hcur.page_nonneg
      simp only [dftlProgrammed]
      omega
    · simp only [dftlProgrammed]
      omega
    · intro p hpg
      simp only [dftlProgrammed]
      by_cases hpe : p = s.currentDataBlkPageNum
      · subst p
        rw [setPage_self]
        refine iff_of_false ?_ (by omega)
        rintro rfl
        exact absurd hc (by decide)
      · rw [setPage_of_ne (fun hbp => hpe hbp.2), hcur.frontier p hpg]
        omega

/-- The old page of a cluster becomes invalid, before the table forgets it. -/
theorem DataRep.invalidate (h : DataRep g data free s.dev.flashMemory s)
    (hcur : CurrentBlk g data free s) (hc : 0 ≤ c)
    (hmapped : (s.place c).1 ≠ dftlPointToNull) :
    DataRep g data free s.dev.flashMemory (invalidateMapped s c) ∧
      CurrentBlk g data free (invalidateMapped s c) ∧
      (invalidateMapped s c).dev.flashMemory = vacate s.dev.flashMemory s.place c := by
  obtain ⟨hb, hp, hpage⟩ := h.mapped.stored c hc hmapped
  have hfm : (invalidateMapped s c).dev.flashMemory =
      setPage s.dev.flashMemory (s.place c).1 (s.place c).2 invalidPage := rfl
  have hother : ∀ b, b ≠ (s.place c).1 →
      (invalidateMapped s c).dev.flashMemory b = s.dev.flashMemory b := fun b hne =>
    setPage_block_of_ne hne
  have hcfree : c ≠ freePage := fun he => absurd (he ▸ hc) (by decide)
  have hunlisted : (s.place c).1 ∉ free := by
    intro hm
    exact hcfree (hpage ▸ h.erased _ hm _ hp)
  refine ⟨⟨h.listed.congr rfl rfl rfl rfl, h.mapped, ?_, ?_, ?_, ?_, ?_, h.translation⟩,
    ⟨hcur.mem_data, hcur.unlisted, hcur.page_nonneg, hcur.page_le, ?_⟩, ?_⟩
  · intro b hbf p hpg
    rw [hother b (fun he => hunlisted (he ▸ hbf))]
    exact h.erased b hbf p hpg
  · intro b hbd hnot
    by_cases hbc : b = (s.place c).1
    · subst b
      refine (h.counted _ hbd hnot).invalidate hp (by rw [hpage]; exact hc)
        (setPage_block_self _ _ _ _) ?_ rfl rfl
      exact Function.update_self ..
    · refine (h.counted b hbd hnot).congr (hother b hbc) ?_ rfl rfl
      exact Function.update_of_ne hbc ..
  · intro b hbk hnot
    rw [hother b (ne_of_mem_of_not_mem hb hnot).symm]
    exact h.other_pages b hbk hnot
  · intro b hbk hnot
    rw [← h.other_invalid b hbk hnot]
    exact Function.update_of_ne (ne_of_mem_of_not_mem hb hnot).symm ..
  · intro b hbk hnot
    rw [hother b (ne_of_mem_of_not_mem hb hnot).symm]
    exact h.other_use b hbk hnot
  · intro p hpg
    refine Iff.trans ?_ (hcur.frontier p hpg)
    rw [hfm]
    by_cases hbp : s.currentDataBlkNum = (s.place c).1 ∧ p = (s.place c).2
    · change setPage s.dev.flashMemory _ _ _ s.currentDataBlkNum p = _ ↔ _
      rw [hbp.1, hbp.2, setPage_self, hpage]
      exact iff_of_false (by decide) hcfree
    · change setPage s.dev.flashMemory _ _ _ s.currentDataBlkNum p = _ ↔ _
      rw [setPage_of_ne hbp]
  · unfold vacate
    rw [if_pos hmapped, hfm]

theorem takeFreeBlock_freePageCnt {d d' : Device} (h : takeFreeBlock g d = .ok (b, d')) :
    d'.freePageCnt = Function.update d.freePageCnt b g.maxPage := by
  unfold takeFreeBlock at h
  simp only at h
  split at h
  · cases h
  · obtain ⟨rfl, rfl⟩ := Prod.mk.inj (Except.ok.inj h)
    rfl

/-- The head of the free list becomes the current block. -/
theorem DataRep.take (h : DataRep g data (a :: free) view s) (hdata : data ⊆ g.blocks) :
    ∃ d', takeFreeBlock g s.dev = .ok (a, d') ∧ d'.flashMemory = s.dev.flashMemory ∧
      d'.invalidPageCnt = Function.update s.dev.invalidPageCnt a 0 ∧
      DataRep g data free view (useDataBlk { s with dev := d' } a) ∧
      CurrentBlk g data free (useDataBlk { s with dev := d' } a) := by
  obtain ⟨d', htake, hlisted, hfm, hvalid, hinvalid⟩ := takeFreeBlock_spec h.listed hdata
  have hfreeCnt := takeFreeBlock_freePageCnt htake
  have ha : a ∈ data := h.listed.mem_good a List.mem_cons_self
  have hnot : a ∉ free := (List.nodup_cons.mp h.listed.nodup).1
  have herased := h.erased a List.mem_cons_self
  refine ⟨d', htake, hfm, hinvalid, ⟨hlisted, h.mapped, ?_, ?_, ?_, ?_, ?_, h.translation⟩,
    ⟨ha, hnot, le_rfl, Int.natCast_nonneg _, ?_⟩⟩
  · intro b hb p hp
    simp only [useDataBlk, hfm]
    exact h.erased b (List.mem_cons_of_mem _ hb) p hp
  · intro b hb hbf
    by_cases hba : b = a
    · subst b
      refine BlockCounted.of_erased ?_ ?_ ?_ ?_
      · simpa only [useDataBlk, hfm] using herased
      · simp only [useDataBlk, hinvalid, Function.update_self]
      · simp only [useDataBlk, hvalid, Function.update_self]
      · simp only [useDataBlk, hfreeCnt, Function.update_self]
    · refine (h.counted b hb (by simp [hba, hbf])).congr ?_ ?_ ?_ ?_
      · simp only [useDataBlk, hfm]
      · simp only [useDataBlk, hinvalid, Function.update_of_ne hba]
      · simp only [useDataBlk, hvalid, Function.update_of_ne hba]
      · simp only [useDataBlk, hfreeCnt, Function.update_of_ne hba]
  · simpa only [useDataBlk, hfm] using h.other_pages
  · intro b hb hbd
    simp only [useDataBlk, hinvalid]
    rw [Function.update_of_ne (ne_of_mem_of_not_mem ha hbd).symm]
    exact h.other_invalid b hb hbd
  · intro b hb hbd
    simp only [useDataBlk, hfm]
    exact h.other_use b hb hbd
  · intro p hp
    simp only [useDataBlk, hfm]
    exact iff_of_true (herased p hp) (g.mem_pages.mp hp).1

/-- A block whose pages are all stale is erased and listed. -/
theorem DataRep.clean {t : Timing} {v : Int}
    (h : DataRep g data free (staleView s.dev.flashMemory v g.maxPage) s)
    (hcur : CurrentBlk g data free s) (hv : v ∈ data) (hnot : v ∉ free) (hne : free ≠ [])
    (hvcur : v ≠ s.currentDataBlkNum) :
    DataRep g data (free ++ [v]) (dftlCleanBlock g t s v).dev.flashMemory
        (dftlCleanBlock g t s v) ∧
      CurrentBlk g data (free ++ [v]) (dftlCleanBlock g t s v) := by
  have hpage : ∀ b, ∀ p ∈ g.pages, (dftlCleanBlock g t s v).dev.flashMemory b p =
      if b = v then freePage else s.dev.flashMemory b p := fun b p hp =>
    eraseBlock_page (d := s.dev) hp
  have hblock : ∀ b, b ≠ v →
      (dftlCleanBlock g t s v).dev.flashMemory b = s.dev.flashMemory b := fun b hbv =>
    Function.update_of_ne hbv ..
  have hzero : (0 : Int) ∈ g.pages := g.mem_pages.mpr ⟨le_rfl, by exact_mod_cast g.maxPage_pos⟩
  refine ⟨⟨?_, ?_, ?_, ?_, ?_, ?_, ?_, h.translation⟩,
    ⟨hcur.mem_data, ?_, hcur.page_nonneg, hcur.page_le, ?_⟩⟩
  · exact putFreeBlock_listed (d := { eraseBlock g s.dev v with
      freePageCnt := Function.update (eraseBlock g s.dev v).freePageCnt v g.maxPage })
      (h.listed.congr rfl rfl rfl rfl) hv hnot hne
  · refine h.mapped.discard ?_
    intro b hb p hp
    rw [hpage b p hp]
    obtain ⟨hp0, hpm⟩ := g.mem_pages.mp hp
    by_cases hbv : b = v
    · have hstale : staleView s.dev.flashMemory v g.maxPage b p = invalidPage :=
        if_pos ⟨hbv, hp0, hpm⟩
      rw [if_pos hbv, hstale]
      exact .inr ⟨by decide, .inl rfl⟩
    · rw [if_neg hbv, staleView_of_not (fun hb => hbv hb.1)]
      exact .inl rfl
  · intro b hb p hp
    rw [hpage b p hp]
    split
    · rfl
    · rename_i hbv
      exact h.erased b ((List.mem_append.mp hb).resolve_right (by simpa using hbv)) p hp
  · intro b hb hbf
    simp only [List.mem_append, List.mem_singleton, not_or] at hbf
    refine (h.counted b hb hbf.1).congr (hblock b hbf.2) ?_ ?_ ?_
    · exact Function.update_of_ne hbf.2 ..
    · exact Function.update_of_ne hbf.2 ..
    · exact Function.update_of_ne hbf.2 ..
  · intro b hb hbd
    rw [hblock b (ne_of_mem_of_not_mem hv hbd).symm]
    exact h.other_pages b hb hbd
  · intro b hb hbd
    rw [← h.other_invalid b hb hbd]
    exact Function.update_of_ne (ne_of_mem_of_not_mem hv hbd).symm ..
  · intro b hb hbd
    rw [hblock b (ne_of_mem_of_not_mem hv hbd).symm]
    exact h.other_use b hb hbd
  · simp only [List.mem_append, List.mem_singleton, not_or]
    exact ⟨hcur.unlisted, hvcur.symm⟩
  · intro p hp
    have hsame : (dftlCleanBlock g t s v).dev.flashMemory s.currentDataBlkNum =
        s.dev.flashMemory s.currentDataBlkNum := hblock _ hvcur.symm
    exact (iff_of_eq (by rw [← hsame]; rfl)).trans (hcur.frontier p hp)

end States

end WiscKey.Flash
