import WiscKey.Flash.FtlInvariant

/-!
# Erasing a block keeps the invariant

`FTLEraseOneBlock` lists its victim first, copies the live pages of the victim to the
current block, takes a new current block when that one fills up, and only then erases.
With one block above the reserve and an invalid page in the victim, it needs at most one
new block, and that is never the victim, which stands at the end of the list.
-/

namespace WiscKey.Flash

variable {g : Geometry} {good : Finset Int} {clusters : Int} {free : List Int}
  {victim : Option Int} {s : Ftl} {b : Int}

/-- A full current block can be given up. -/
theorem Rep.dropCurrent (h : Rep g good clusters free victim s) (hgood : good ⊆ g.blocks)
    (hfull : g.maxPage ≤ s.currentFreePageID) :
    Rep g good clusters free victim { s with currentFreeBlockID := -1 } := by
  refine ⟨h.listed, h.pages, h.counted, h.erased, ?_, by simp, ?_, h.frontier_nonneg,
    h.frontier_le, by simp⟩
  · intro b hb hv _ p hp
    by_cases hcur : b = s.currentFreeBlockID
    · subst b
      have hb0 := (g.mem_blocks.mp (hgood hb)).1
      rw [Ne, h.frontier (by omega) p hp]
      have := (g.mem_pages.mp hp).2
      omega
    · exact h.full b hb hv hcur p hp
  · intro hm
    have := (g.mem_blocks.mp (hgood (h.listed.mem_good _ hm))).1
    simp at this

/-- The head of the list becomes the current block. -/
theorem Rep.takeCurrent (h : Rep g good clusters (b :: free) victim s) (hgood : good ⊆ g.blocks)
    (hvictim : victim ≠ some b) (hleast : g.leastFreeBlocksInFBL ≤ free.length)
    (hfull : g.maxPage ≤ s.currentFreePageID) :
    ∃ d', getFreeBlock g false s.dev = .ok (b, d') ∧
      d'.flashMemory = s.dev.flashMemory ∧
      d'.validPageCnt = Function.update s.dev.validPageCnt b 0 ∧
      Rep g good clusters free victim
        { s with dev := d', currentFreeBlockID := b, currentFreePageID := 0 } := by
  obtain ⟨d', hget, hlisted, hfm, hvalid, hinvalid⟩ := getFreeBlock_above h.listed hgood hleast
  have hbgood := h.listed.mem_good b List.mem_cons_self
  have herased := h.erased b List.mem_cons_self hvictim
  have hbnot := (List.nodup_cons.mp h.listed.nodup).1
  refine ⟨d', hget, hfm, hvalid, hlisted, ?_, ?_, ?_, ?_, ?_, hbnot, le_rfl, ?_, ?_⟩
  all_goals simp only [hfm, hvalid, hinvalid]
  · exact h.pages
  · constructor
    · intro b' hb'
      by_cases hbb : b' = b
      · subst b'
        rw [Function.update_self]
        symm
        rw [Nat.cast_eq_zero, countCells_eq_zero]
        intro p hp
        rw [herased p hp]
        decide
      · rw [Function.update_of_ne hbb]
        exact h.counted.valid b' hb'
    · intro b' hb'
      by_cases hbb : b' = b
      · subst b'
        rw [Function.update_self]
        symm
        rw [Nat.cast_eq_zero, countCells_eq_zero]
        intro p hp
        rw [herased p hp]
        decide
      · rw [Function.update_of_ne hbb]
        exact h.counted.invalid b' hb'
  · intro b' hb' hv
    exact h.erased b' (List.mem_cons_of_mem _ hb') hv
  · intro b' hb' hv hne p hp
    refine (h.dropCurrent hgood hfull).full b' hb' ?_ ?_ p hp
    · intro hm
      rcases List.mem_cons.mp hm with hm | hm
      · exact absurd hm hne
      · exact hv hm
    · have := (g.mem_blocks.mp (hgood hb')).1
      simp only
      omega
  · exact fun _ => hbgood
  · exact Int.natCast_nonneg _
  · intro _ p hp
    rw [herased p hp]
    exact iff_of_true rfl (g.mem_pages.mp hp).1

/-- The victim goes to the end of the list. -/
theorem Rep.listVictim (h : Rep g good clusters free none s) (hb : b ∈ good) (hnot : b ∉ free)
    (hcur : b ≠ s.currentFreeBlockID) (hne : free ≠ []) :
    Rep g good clusters (free ++ [b]) (some b) { s with dev := putFreeBlock g s.dev b } := by
  refine ⟨putFreeBlock_listed h.listed hb hnot hne, h.pages, h.counted, ?_, ?_, h.current_good, ?_,
    h.frontier_nonneg, h.frontier_le, h.frontier⟩
  · intro b' hb' hv
    rcases List.mem_append.mp hb' with hb' | hb'
    · exact h.erased b' hb' (by simp)
    · exact absurd (by rw [List.mem_singleton.mp hb']) hv
  · intro b' hbg hv
    refine h.full b' hbg ?_
    intro hm
    have hbb : b = b' := by simpa using hv (List.mem_append_left _ hm)
    exact absurd (hbb ▸ hm) hnot
  · simp only [List.mem_append, List.mem_singleton, not_or]
    exact ⟨h.current_unlisted, fun he => hcur he.symm⟩

/-- A listed victim whose pages are all invalid is cleaned. -/
theorem Rep.clean (h : Rep g good clusters free (some b) s) (hb : b ∈ free)
    (hinvalid : ∀ p ∈ g.pages, s.dev.flashMemory b p = invalidPage) :
    Rep g good clusters free none (cleanBlock g s b) := by
  have hbgood := h.listed.mem_good b hb
  have hfm : ∀ p ∈ g.pages, (cleanBlock g s b).dev.flashMemory b p = freePage := by
    intro p hp
    simp only [cleanBlock, Function.update_self]
    rw [if_pos (g.mem_pages.mp hp)]
  have hother : ∀ b', b' ≠ b → (cleanBlock g s b).dev.flashMemory b' = s.dev.flashMemory b' := by
    intro b' hne
    simp [cleanBlock, Function.update_of_ne hne]
  have hcur : s.currentFreeBlockID ≠ b := fun he => h.current_unlisted (he ▸ hb)
  refine ⟨h.listed.congr rfl rfl rfl rfl, ⟨?_, ?_, ?_, ?_, ?_⟩, ⟨?_, ?_⟩, ?_, ?_, h.current_good,
    h.current_unlisted, h.frontier_nonneg, h.frontier_le, ?_⟩
  · intro b' hb' p hp
    by_cases hbb : b' = b
    · subst b'
      exact .inl (hfm p hp)
    · rw [hother b' hbb]
      exact h.pages.content b' hb' p hp
  · intro b' hbk hbg
    rw [hother b' (ne_of_mem_of_not_mem hbgood hbg).symm]
    exact h.pages.bad_marked b' hbk hbg
  · intro b' hbk hbg
    rw [hother b' (ne_of_mem_of_not_mem hbgood hbg).symm]
    exact h.pages.bad_unused b' hbk hbg
  · intro c hc hst
    obtain ⟨hb', hp', hpage⟩ := h.pages.stored c hc hst
    refine ⟨hb', hp', ?_⟩
    have hne : (s.ftlTable c).block ≠ b := by
      intro he
      rw [he] at hpage
      rw [hinvalid _ hp'] at hpage
      rw [← hpage] at hc
      exact absurd hc (by decide)
    exact (congrFun (hother _ hne) _).trans hpage
  · intro b' hb' p hp hcl
    by_cases hbb : b' = b
    · subst b'
      rw [hfm p hp] at hcl
      exact absurd hcl (by decide)
    · rw [hother b' hbb] at hcl ⊢
      exact h.pages.mapped b' hb' p hp hcl
  · intro b' hb'
    by_cases hbb : b' = b
    · subst b'
      have hzero : countCells g.pages isCluster ((cleanBlock g s b).dev.flashMemory b) = 0 := by
        rw [countCells_eq_zero]
        intro p hp
        rw [hfm p hp]
        decide
      rw [hzero]
      simp [cleanBlock]
    · rw [hother b' hbb]
      simpa [cleanBlock, Function.update_of_ne hbb] using h.counted.valid b' hb'
  · intro b' hb'
    by_cases hbb : b' = b
    · subst b'
      have hzero : countCells g.pages (· = invalidPage)
          ((cleanBlock g s b).dev.flashMemory b) = 0 := by
        rw [countCells_eq_zero]
        intro p hp
        rw [hfm p hp]
        decide
      rw [hzero]
      simp [cleanBlock]
    · rw [hother b' hbb]
      simpa [cleanBlock, Function.update_of_ne hbb] using h.counted.invalid b' hb'
  · intro b' hb' _ p hp
    by_cases hbb : b' = b
    · subst b'
      exact hfm p hp
    · rw [hother b' hbb]
      exact h.erased b' hb' (by simpa using fun he => hbb he.symm) p hp
  · intro b' hbg hv hne p hp
    have hbb : b' ≠ b := by
      rintro rfl
      exact absurd (hv hb) (by simp)
    rw [hother b' hbb]
    exact h.full b' hbg (fun hm => absurd (hv hm) (by simp)) hne p hp
  · intro hc p hp
    have hsame : (cleanBlock g s b).dev.flashMemory s.currentFreeBlockID =
        s.dev.flashMemory s.currentFreeBlockID := hother _ hcur
    exact (iff_of_eq (by rw [← hsame]; rfl)).trans (h.frontier hc p hp)

/-- The two states store the same clusters. -/
def SameStored (s s' : Ftl) : Prop :=
  ∀ c, (s'.ftlTable c).block = ftlPointToNull ↔ (s.ftlTable c).block = ftlPointToNull

/-- What erasing a block leaves alone: which clusters are stored, and the state of the scan. -/
structure KeepsStored (s s' : Ftl) : Prop where
  table : SameStored s s'
  scan : s'.currentScanningBlockID = s.currentScanningBlockID
  divider : s'.invalidPage2ValidPageDivider = s.invalidPage2ValidPageDivider

theorem KeepsStored.refl (s : Ftl) : KeepsStored s s := ⟨fun _ => Iff.rfl, rfl, rfl⟩

theorem KeepsStored.trans {s s₁ s₂ : Ftl} (h₁ : KeepsStored s s₁) (h₂ : KeepsStored s₁ s₂) :
    KeepsStored s s₂ :=
  ⟨fun c => (h₂.table c).trans (h₁.table c), h₂.scan.trans h₁.scan, h₂.divider.trans h₁.divider⟩

section Copying

variable {total : Int} {i : Nat}

/-- The invariant of the copying loop before page `i`. `total` is what stood in the current
block and in the victim at the start: at most one block is taken, and it does not fill up. -/
structure Copying (g : Geometry) (good : Finset Int) (clusters : Int) (b total : Int) (i : Nat)
    (free : List Int) (s : Ftl) : Prop where
  rep : Rep g good clusters free (some b) s
  last : ∃ rest, rest ≠ [] ∧ free = rest ++ [b]
  copied : ∀ p ∈ g.pages, p < i → s.dev.flashMemory b p = invalidPage
  no_current : s.currentFreeBlockID = -1 → g.maxPage ≤ s.currentFreePageID
  budget :
    (free.length = g.leastFreeBlocksInFBL + 1 ∧
      s.currentFreePageID + s.dev.validPageCnt b = total) ∨
    (free.length = g.leastFreeBlocksInFBL ∧
      s.currentFreePageID + s.dev.validPageCnt b + g.maxPage = total)

/-- The victim is listed. -/
theorem Copying.mem (h : Copying g good clusters b total i free s) : b ∈ free := by
  obtain ⟨rest, _, rfl⟩ := h.last
  simp

theorem Copying.valid_nonneg (h : Copying g good clusters b total i free s)
    (hgood : good ⊆ g.blocks) : 0 ≤ s.dev.validPageCnt b := by
  rw [h.rep.counted.valid b (hgood (h.rep.listed.mem_good b h.mem))]
  exact Int.natCast_nonneg _

/-- A full current block is replaced by the head of the list, which is not the victim. -/
theorem Copying.getFreeBlock (h : Copying g good clusters b total i free s)
    (hgood : good ⊆ g.blocks) (htotal : total < 2 * g.maxPage)
    (hfull : g.maxPage ≤ s.currentFreePageID) :
    ∃ a d' rest, getFreeBlock g false s.dev = .ok (a, d') ∧ a ≠ b ∧ a ∈ good ∧
      free = a :: rest ∧ d'.flashMemory = s.dev.flashMemory ∧
      Copying g good clusters b total i rest
        { s with dev := d', currentFreeBlockID := a, currentFreePageID := 0 } := by
  have hvalid := h.valid_nonneg hgood
  rcases h.budget with ⟨hlen, hsum⟩ | ⟨hlen, hsum⟩
  · obtain ⟨rest, hrest, rfl⟩ := h.last
    obtain ⟨a, rest, rfl⟩ := List.exists_cons_of_ne_nil hrest
    have hnodup : (a :: (rest ++ [b])).Nodup := h.rep.listed.nodup
    have hab : a ≠ b := by
      rintro rfl
      exact (List.nodup_cons.mp hnodup).1 (by simp)
    have hle : g.leastFreeBlocksInFBL ≤ (rest ++ [b]).length := by
      simp only [List.cons_append, List.length_cons, List.length_append] at hlen ⊢
      omega
    have hrep₀ : Rep g good clusters (a :: (rest ++ [b])) (some b) s := h.rep
    obtain ⟨d', hget, hfm, hval, hrep⟩ := hrep₀.takeCurrent hgood
      (by simpa using hab.symm) hle hfull
    have hag := h.rep.listed.mem_good a (by simp)
    have ha := (g.mem_blocks.mp (hgood hag)).1
    have ha1 : a ≠ -1 := by omega
    have hsame : d'.validPageCnt b = s.dev.validPageCnt b := by
      rw [hval, Function.update_of_ne hab.symm]
    refine ⟨a, d', rest ++ [b], hget, hab, hag, rfl, hfm, ⟨hrep, ⟨rest, ?_, rfl⟩, ?_, ?_,
      .inr ⟨?_, ?_⟩⟩⟩
    · rintro rfl
      have hlen' : 2 = g.leastFreeBlocksInFBL + 1 := hlen
      have hsixtyFour : 64 ≤ g.leastFreeBlocksInFBL := g.leastFreeBlocksInFBL_ge
      omega
    · simpa only [hfm] using h.copied
    · exact fun hnone => absurd hnone ha1
    · simpa using hlen
    · simp only [hsame]
      have hle := h.rep.frontier_le
      omega
  · omega

/-- Replacing the current block during the copying leaves one with a free page. -/
theorem Copying.replaceFullBlock (h : Copying g good clusters b total i free s)
    (hgood : good ⊆ g.blocks) (htotal : total < 2 * g.maxPage) :
    ∃ s' free', replaceFullBlock g s = .ok s' ∧ Copying g good clusters b total i free' s' ∧
      s'.currentFreeBlockID ≠ -1 ∧ s'.currentFreePageID < g.maxPage ∧ KeepsStored s s' := by
  by_cases hfull : g.maxPage ≤ s.currentFreePageID
  · obtain ⟨a, d', rest, hget, -, hag, -, -, h'⟩ := h.getFreeBlock hgood htotal hfull
    have ha := (g.mem_blocks.mp (hgood hag)).1
    have hpos := g.maxPage_pos
    refine ⟨_, rest, ?_, h', ?_, ?_, fun _ => Iff.rfl, rfl, rfl⟩
    · simp only [Flash.replaceFullBlock, if_pos hfull, hget]
      rfl
    · simp only
      omega
    · simp only
      omega
  · refine ⟨s, free, ?_, h, ?_, by omega, KeepsStored.refl s⟩
    · simp [Flash.replaceFullBlock, hfull]
    · exact fun hnone => hfull (h.no_current hnone)

/-- The pages of the victim are invalid or hold a cluster. -/
theorem Copying.content (h : Copying g good clusters b total i free s) {p : Int}
    (hp : p ∈ g.pages) : s.dev.flashMemory b p = invalidPage ∨
      (s.dev.flashMemory b p ≠ invalidPage ∧ s.dev.flashMemory b p ≠ freePage ∧
        0 ≤ s.dev.flashMemory b p ∧ s.dev.flashMemory b p < clusters) := by
  have hbgood := h.rep.listed.mem_good b h.mem
  have hnf := h.rep.full b hbgood (fun _ => rfl)
    (fun he => h.rep.current_unlisted (he ▸ h.mem)) p hp
  by_cases hinv : s.dev.flashMemory b p = invalidPage
  · exact .inl hinv
  · obtain ⟨hc, hcl⟩ := ((h.rep.pages.content b hbgood p hp).resolve_left hnf).resolve_left hinv
    exact .inr ⟨hinv, hnf, hc, hcl⟩

/-- A round passes an invalid page by. -/
theorem Copying.skip (h : Copying g good clusters b total i free s)
    (hinv : s.dev.flashMemory b i = invalidPage) :
    Copying g good clusters b total (i + 1) free s := by
  refine ⟨h.rep, h.last, ?_, h.no_current, h.budget⟩
  intro p hp hpi
  by_cases hpe : p = i
  · exact hpe ▸ hinv
  · exact h.copied p hp (by omega)

/-- A round copies the cluster of its page to the page at the frontier. -/
theorem Copying.copy (h : Copying g good clusters b total i free s) (hgood : good ⊆ g.blocks)
    (hi : i < g.maxPage) (hcur : s.currentFreeBlockID ≠ -1)
    (hpage : s.currentFreePageID < g.maxPage) {c : Int} (hcdef : s.dev.flashMemory b i = c)
    (hc : 0 ≤ c) (hcl : c < clusters) :
    ∃ s', ftlWriteOneCluster g s c = .ok s' ∧ Copying g good clusters b total (i + 1) free s' ∧
      s'.dev.flashMemory = setPage (setPage s.dev.flashMemory b i invalidPage)
        s.currentFreeBlockID s.currentFreePageID c ∧ KeepsStored s s' := by
  have hbgood := h.rep.listed.mem_good b h.mem
  have hip : (i : Int) ∈ g.pages := g.mem_pages.mpr ⟨by omega, by omega⟩
  have hmap : s.ftlTable c = ⟨b, i⟩ := by
    rw [← hcdef]
    exact h.rep.pages.mapped b hbgood i hip (by rw [hcdef]; exact hc)
  have hstored : (s.ftlTable c).block ≠ ftlPointToNull := by
    rw [hmap]
    exact g.ne_null_of_mem_blocks (hgood hbgood)
  obtain ⟨hwrite, hrep⟩ := h.rep.write hgood hc hcl hcur hpage
  have hpages : (forgetCluster s c).dev.flashMemory =
      setPage s.dev.flashMemory b i invalidPage := by
    rw [forgetCluster_mapped hstored, hmap]
  have hcount : (forgetCluster s c).dev.validPageCnt =
      Function.update s.dev.validPageCnt b (s.dev.validPageCnt b - 1) := by
    rw [forgetCluster_mapped hstored, hmap]
  have hbcur : b ≠ s.currentFreeBlockID := fun he => h.rep.current_unlisted (he ▸ h.mem)
  have hblock : (ftlProgram (forgetCluster s c) c).dev.flashMemory b =
      Function.update (s.dev.flashMemory b) i invalidPage := by
    simp only [ftlProgram, forgetCluster_currentFreeBlockID]
    rw [setPage_block_of_ne hbcur, hpages, setPage_block_self]
  have hvalid : (ftlProgram (forgetCluster s c) c).dev.validPageCnt b =
      s.dev.validPageCnt b - 1 := by
    simp only [ftlProgram, forgetCluster_currentFreeBlockID]
    rw [Function.update_of_ne hbcur, hcount, Function.update_self]
  have hnext : (ftlProgram (forgetCluster s c) c).currentFreePageID =
      s.currentFreePageID + 1 := by
    simp [ftlProgram]
  refine ⟨_, hwrite, ⟨hrep, h.last, ?_, ?_, ?_⟩, ?_, ⟨?_, ?_, ?_⟩⟩
  · intro p hp hpi
    rw [hblock]
    by_cases hpe : p = i
    · rw [hpe, Function.update_self]
    · rw [Function.update_of_ne hpe]
      exact h.copied p hp (by omega)
  · intro hnone
    simp only [ftlProgram, forgetCluster_currentFreeBlockID] at hnone
    exact absurd hnone hcur
  · rw [hvalid, hnext]
    rcases h.budget with ⟨hlen, hsum⟩ | ⟨hlen, hsum⟩
    · exact .inl ⟨hlen, by omega⟩
    · exact .inr ⟨hlen, by omega⟩
  · simp only [ftlProgram, forgetCluster_currentFreeBlockID, forgetCluster_currentFreePageID]
    rw [hpages]
  · intro c'
    simp only [ftlProgram, forgetCluster_ftlTable, forgetCluster_currentFreeBlockID,
      Function.update_idem]
    by_cases hcc : c' = c
    · subst c'
      rw [Function.update_self]
      exact iff_of_false hcur hstored
    · rw [Function.update_of_ne hcc]
  · simp [ftlProgram]
  · simp [ftlProgram]

/-- One round of the loop copies its page. -/
theorem Copying.copyLivePage (h : Copying g good clusters b total i free s)
    (hgood : good ⊆ g.blocks) (htotal : total < 2 * g.maxPage) (hi : i < g.maxPage) :
    ∃ s' free', copyLivePage g b s i = .ok s' ∧
      Copying g good clusters b total (i + 1) free' s' ∧ KeepsStored s s' := by
  obtain ⟨s₁, free₁, hok, h₁, hcur, hpage, hkeeps⟩ := h.replaceFullBlock hgood htotal
  have hip : (i : Int) ∈ g.pages := g.mem_pages.mpr ⟨by omega, by omega⟩
  simp only [Flash.copyLivePage, hok]
  change ∃ s' free', (if s₁.dev.flashMemory b i ≠ invalidPage ∧ s₁.dev.flashMemory b i ≠ freePage
    then ftlWriteOneCluster g s₁ (s₁.dev.flashMemory b i) else .ok s₁) = .ok s' ∧ _
  rcases h₁.content hip with hinv | ⟨hinv, hnf, hc, hcl⟩
  · exact ⟨s₁, free₁, by simp [hinv], h₁.skip hinv, hkeeps⟩
  · obtain ⟨s₂, hwrite, h₂, -, hkeeps₂⟩ := h₁.copy hgood hi hcur hpage rfl hc hcl
    refine ⟨s₂, free₁, ?_, h₂, hkeeps.trans hkeeps₂⟩
    rw [if_pos ⟨hinv, hnf⟩]
    exact hwrite

/-- The whole loop copies every page of the victim. -/
theorem Copying.copyAll (hgood : good ⊆ g.blocks) (htotal : total < 2 * g.maxPage)
    (h : Copying g good clusters b total 0 free s) {n : Nat} (hn : n ≤ g.maxPage) :
    ∃ s' free', (List.range n).foldlM (Flash.copyLivePage g b) s = .ok s' ∧
      Copying g good clusters b total n free' s' ∧ KeepsStored s s' := by
  induction n with
  | zero => exact ⟨s, free, rfl, h, KeepsStored.refl s⟩
  | succ n ih =>
    obtain ⟨s₁, free₁, hok₁, h₁, hkeeps₁⟩ := ih (by omega)
    obtain ⟨s₂, free₂, hok₂, h₂, hkeeps₂⟩ := h₁.copyLivePage hgood htotal (by omega)
    refine ⟨s₂, free₂, ?_, h₂, hkeeps₁.trans hkeeps₂⟩
    rw [List.range_succ, List.foldlM_append, hok₁]
    change List.foldlM (Flash.copyLivePage g b) s₁ [n] = _
    rw [List.foldlM_cons, hok₂]
    rfl

end Copying

/-- What `FTLEraseOneBlock` leaves: the copied pages fill the current block, or spill over into
a new one. -/
structure Erased (g : Geometry) (good : Finset Int) (clusters : Int) (b : Int) (s s' : Ftl)
    (free' : List Int) : Prop where
  rep : Rep g good clusters free' none s'
  current : s'.currentFreeBlockID ≠ -1
  room : s'.currentFreePageID < g.maxPage
  keeps : KeepsStored s s'
  budget :
    (free'.length = g.leastFreeBlocksInFBL + 1 ∧
      s'.currentFreePageID = s.currentFreePageID + s.dev.validPageCnt b) ∨
    (free'.length = g.leastFreeBlocksInFBL ∧
      s'.currentFreePageID + g.maxPage = s.currentFreePageID + s.dev.validPageCnt b)

/-- The copying loop starts with the victim at the end of the list. -/
theorem Rep.copying (h : Rep g good clusters free none s)
    (hlen : free.length = g.leastFreeBlocksInFBL)
    (hnone : s.currentFreeBlockID = -1 → g.maxPage ≤ s.currentFreePageID)
    (hb : b ∈ good) (hnot : b ∉ free) (hcur : b ≠ s.currentFreeBlockID)
    (hvalid : s.dev.validPageCnt b < g.maxPage) :
    Copying g good clusters b (s.currentFreePageID + s.dev.validPageCnt b) 0 (free ++ [b])
        { s with dev := putFreeBlock g s.dev b } ∧
      s.currentFreePageID + s.dev.validPageCnt b < 2 * g.maxPage := by
  have hpos := g.leastFreeBlocksInFBL_pos
  have hne : free ≠ [] := by
    rintro rfl
    simp only [List.length_nil] at hlen
    omega
  have hle := h.frontier_le
  refine ⟨⟨h.listVictim hb hnot hcur hne, ⟨free, hne, rfl⟩, ?_, hnone, .inl ⟨?_, rfl⟩⟩, by omega⟩
  · intro p hp hp0
    have := (g.mem_pages.mp hp).1
    omega
  · simp [hlen]

/-- At the reserve, erasing a full block with an invalid page returns and keeps the invariant. -/
theorem Rep.erase (h : Rep g good clusters free none s) (hgood : good ⊆ g.blocks)
    (hlen : free.length = g.leastFreeBlocksInFBL)
    (hnone : s.currentFreeBlockID = -1 → g.maxPage ≤ s.currentFreePageID)
    (hb : b ∈ good) (hnot : b ∉ free) (hcur : b ≠ s.currentFreeBlockID)
    (hvalid : s.dev.validPageCnt b < g.maxPage) :
    ∃ s' free', ftlEraseOneBlock g s b = .ok s' ∧ Erased g good clusters b s s' free' := by
  obtain ⟨hcopying, htotal⟩ := h.copying hlen hnone hb hnot hcur hvalid
  obtain ⟨s₁, free₁, hok₁, h₁, hkeeps₁⟩ := hcopying.copyAll hgood htotal le_rfl
  obtain ⟨s₂, free₂, hok₂, h₂, hcur₂, hroom₂, hkeeps₂⟩ := h₁.replaceFullBlock hgood htotal
  have hinvalid : ∀ p ∈ g.pages, s₂.dev.flashMemory b p = invalidPage := fun p hp =>
    h₂.copied p hp (g.mem_pages.mp hp).2
  have hzero : s₂.dev.validPageCnt b = 0 := by
    rw [h₂.rep.counted.valid b (hgood hb), Nat.cast_eq_zero, countCells_eq_zero]
    intro p hp
    rw [hinvalid p hp]
    decide
  have hkeeps := hkeeps₁.trans hkeeps₂
  refine ⟨cleanBlock g s₂ b, free₂, ?_, h₂.rep.clean h₂.mem hinvalid, hcur₂, hroom₂,
    ⟨hkeeps.table, hkeeps.scan, hkeeps.divider⟩, ?_⟩
  · simp only [ftlEraseOneBlock, hok₁]
    change (do let s ← Flash.replaceFullBlock g s₁; Except.ok (cleanBlock g s b)) = _
    rw [hok₂]
    rfl
  · rcases h₂.budget with ⟨hlen₂, hsum⟩ | ⟨hlen₂, hsum⟩
    · exact .inl ⟨hlen₂, by simp only [cleanBlock]; omega⟩
    · exact .inr ⟨hlen₂, by simp only [cleanBlock]; omega⟩

end WiscKey.Flash
