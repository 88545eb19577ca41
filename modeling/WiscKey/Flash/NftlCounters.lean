import WiscKey.Flash.NftlRun

/-!
# The page counters of the block sets

`ValidPageCnt` and `InvalidPageCnt` of every block of a set count its pages that hold a
cluster and its invalid pages. A replacement block is written from its first page, so that
the two counts add up to its write position.
-/

namespace WiscKey.Flash

variable {g : Geometry} {good : Finset Int} {free : List Int} {s s' : Nftl} {c l : Int}

/-- The two counters of a block count its pages. -/
def Exact (g : Geometry) (valid invalid : Int) (pages : Int → Int) : Prop :=
  valid = countCells g.pages isCluster pages ∧
    invalid = countCells g.pages (· = invalidPage) pages

section Exact

variable {valid invalid p : Int} {pages pages' : Int → Int}

/-- A block of free pages. -/
theorem Exact.erased (hfree : ∀ p ∈ g.pages, pages p = freePage) : Exact g 0 0 pages := by
  constructor
  · rw [countCells_eq_zero.mpr fun p hp => by rw [hfree p hp]; decide]
    rfl
  · rw [countCells_eq_zero.mpr fun p hp => by rw [hfree p hp]; decide]
    rfl

/-- Only the pages of the device count. -/
theorem Exact.congr (h : Exact g valid invalid pages) (heq : ∀ p ∈ g.pages, pages' p = pages p) :
    Exact g valid invalid pages' := by
  have hcount : ∀ q : Int → Prop, ∀ _ : DecidablePred q,
      countCells g.pages q pages' = countCells g.pages q pages := by
    intro q _
    unfold countCells
    congr 1
    apply Finset.filter_congr
    intro p hp
    rw [heq p hp]
  obtain ⟨hvalid, hinvalid⟩ := h
  exact ⟨by rw [hvalid, hcount], by rw [hinvalid, hcount]⟩

/-- A cluster goes to a free page. -/
theorem Exact.program (h : Exact g valid invalid pages) (hp : p ∈ g.pages)
    (hfree : pages p = freePage) (hc : 0 ≤ c) :
    Exact g (valid + 1) invalid (Function.update pages p c) := by
  obtain ⟨hvalid, hinvalid⟩ := h
  constructor
  · have hold : ¬ isCluster (pages p) := by rw [hfree]; decide
    have hnew : isCluster c := hc
    rw [countCells_update_add hp hold hnew, hvalid]
    rfl
  · rw [countCells_update_of_iff, hinvalid]
    rw [hfree]
    refine iff_of_false ?_ (by decide)
    rintro rfl
    exact absurd hc (by decide)

/-- A cluster is given up. -/
theorem Exact.invalidate (h : Exact g valid invalid pages) (hp : p ∈ g.pages)
    (hc : 0 ≤ pages p) :
    Exact g (valid - 1) (invalid + 1) (Function.update pages p invalidPage) := by
  obtain ⟨hvalid, hinvalid⟩ := h
  constructor
  · have hsub := countCells_update_sub (a := invalidPage) (q := isCluster) hp hc (by decide)
    omega
  · have hne : ¬ pages p = invalidPage := fun heq => absurd (heq ▸ hc) (by decide)
    rw [countCells_update_add (q := (· = invalidPage)) hp hne rfl, hinvalid]
    rfl

end Exact

/-- The counters of block `b` in a device are exact. -/
def Device.Counts (g : Geometry) (d : Device) (b : Int) : Prop :=
  Exact g (d.validPageCnt b) (d.invalidPageCnt b) (d.flashMemory b)

/-- The counters of every block of a set are exact, and exactly the pages of a replacement
block from its write position on are free. -/
structure Counted (g : Geometry) (s : Nftl) : Prop where
  exact : ∀ l k, (s.nftlTable l).block k ≠ nftlPointToNull → s.dev.Counts g ((s.nftlTable l).block k)
  filled : ∀ l, (s.nftlTable l).replacementBlock ≠ nftlPointToNull → ∀ p ∈ g.pages,
    (s.dev.flashMemory (s.nftlTable l).replacementBlock p = freePage ↔
      (s.nftlTable l).currentFreePageIDinRB ≤ p)

/-- The blocks outside a set have the counters they had. -/
def SameCounts (b₁ b₂ b₃ : Int) (d d' : Device) : Prop :=
  ∀ b, b ≠ b₁ → b ≠ b₂ → b ≠ b₃ →
    d'.validPageCnt b = d.validPageCnt b ∧ d'.invalidPageCnt b = d.invalidPageCnt b

section Merge

variable {list : List Int} {fm : Int → Int → Int} {fb b : Int} {moved : Int → Prop}
  {st : Device × Int} {d₀ : Device} {e : NFTLElement}

/-- What a copy does to the counters. -/
theorem copyPage_counts (d : Device) (hfb : fb ∈ g.blocks) (hb : b ≠ fb) (target i : Int) :
    ∃ d', copyPage g d fb target b i = .ok d' ∧
      d'.flashMemory fb = Function.update (d.flashMemory fb) target (d.flashMemory b i) ∧
      d'.validPageCnt fb = d.validPageCnt fb + 1 ∧
      d'.invalidPageCnt fb = d.invalidPageCnt fb ∧
      ∀ b', b' ≠ fb → b' ≠ b →
        d'.validPageCnt b' = d.validPageCnt b' ∧ d'.invalidPageCnt b' = d.invalidPageCnt b' := by
  obtain ⟨hfb0, hfbm⟩ := g.mem_blocks.mp hfb
  unfold copyPage programPage
  rw [if_neg (by omega)]
  refine ⟨_, rfl, ?_, ?_, ?_, ?_⟩
  · simp [addValid, setPage]
  · simp [addValid, hb.symm]
  · simp [addValid, hb.symm]
  · intro b' hbf hbb
    simp [addValid, hbf, hbb]

/-- The counters in the middle of the merging loop: those of the new block are exact. -/
structure Tallied (g : Geometry) (d₀ : Device) (fb : Int) (e : NFTLElement) (st : Device × Int) :
    Prop where
  exact : st.1.Counts g fb
  other : SameCounts fb e.primaryBlock e.replacementBlock d₀ st.1

/-- A move counts a cluster that was not moved before. -/
theorem Tallied.movePage (h : Tallied g d₀ fb e st) (hcopied : Copied g good list fm fb l moved st)
    (hfb : fb ∈ g.blocks) {k : Bool} {target : Int} {i : Nat} (hb : e.block k ≠ fb)
    (htarget : 0 ≤ fm (e.block k) i →
      target = g.logicalPage (fm (e.block k) i) ∧ g.logicalBlock (fm (e.block k) i) = l)
    (hcontent : fm (e.block k) i = freePage ∨ fm (e.block k) i = invalidPage ∨
      0 ≤ fm (e.block k) i)
    (hnew : 0 ≤ fm (e.block k) i → ¬ moved (fm (e.block k) i)) :
    Meets (fun _ => False) (Tallied g d₀ fb e) (movePage g fb (e.block k) i target st) := by
  obtain ⟨d, cur⟩ := st
  have hpage : d.flashMemory (e.block k) i = fm (e.block k) i :=
    congrFun (hcopied.other (e.block k) hb) i
  unfold Flash.movePage
  simp only [hpage]
  split
  · rename_i hlive
    have hc : 0 ≤ fm (e.block k) i := by
      rcases hcontent with hfree | hinv | hc
      · exact absurd hfree hlive.2
      · exact absurd hinv hlive.1
      · exact hc
    obtain ⟨rfl, hl⟩ := htarget hc
    have htp := g.logicalPage_mem hc
    -- the page of the cluster is free: its offset is that of no moved cluster
    have hfree : d.flashMemory fb (g.logicalPage (fm (e.block k) i)) = freePage := by
      refine (hcopied.only _ htp).resolve_right ?_
      rintro ⟨c, hm, hp⟩
      have hsame := g.eq_of_logical (hl.trans (hcopied.source c hm).2.symm) hp
      exact hnew hc (hsame ▸ hm)
    obtain ⟨d', hcopy, hfm, hvalid, hinvalid, hother⟩ :=
      copyPage_counts d hfb hb (g.logicalPage (fm (e.block k) i)) i
    rw [hcopy]
    refine ⟨?_, ?_⟩
    · unfold Device.Counts
      simp only
      rw [hfm, hvalid, hinvalid, hpage]
      exact Exact.program h.exact htp hfree hc
    · intro b hbf hbp hbr
      have hbk : b ≠ e.block k := by
        cases k with
        | false => exact hbp
        | true => exact hbr
      obtain ⟨hv, hi⟩ := hother b hbf hbk
      obtain ⟨hv₀, hi₀⟩ := h.other b hbf hbp hbr
      exact ⟨hv.trans hv₀, hi.trans hi₀⟩
  · exact h

/-- No cluster is on two of the pages that the merging loop reads. -/
structure OnePage (g : Geometry) (fm : Int → Int → Int) (e : NFTLElement) : Prop where
  page : ∀ k k', ∀ i < g.maxPage, ∀ i' < g.maxPage, 0 ≤ fm (e.block k) i →
    fm (e.block k) (i : Nat) = fm (e.block k') (i' : Nat) → k = k' ∧ i = i'

/-- One round of the merging loop counts the clusters it copies. -/
theorem Tallied.mergePage {i : Nat} (h : Tallied g d₀ fb e st)
    (hcopied : Copied g good list fm fb l (movedBelow fm e i) st)
    (hsource : MergeSource g fm fb l e) (hone : OnePage g fm e) (hfb : fb ∈ g.blocks)
    (hi : i < g.maxPage) : Meets (fun _ => False) (Tallied g d₀ fb e) (mergePage g e fb st i) := by
  have hip : (i : Int) ∈ g.pages := g.mem_pages.mpr ⟨Int.natCast_nonneg i, by exact_mod_cast hi⟩
  -- the clusters of page `i` are not those of an earlier page
  have hbelow : ∀ k, 0 ≤ fm (e.block k) i → ¬ movedBelow fm e i (fm (e.block k) i) := by
    rintro k hc ⟨-, j, hj, hpage | hpage⟩
    · exact Nat.ne_of_gt hj
        (hone.page k false i hi j (hj.trans hi) hc (by exact hpage.symm)).2
    · exact Nat.ne_of_gt hj
        (hone.page k true i hi j (hj.trans hi) hc (by exact hpage.symm)).2
  unfold Flash.mergePage
  have hfirst : Meets (fun _ => False) (Tallied g d₀ fb e)
      (Flash.movePage g fb (e.block false) i i st) := by
    refine h.movePage hcopied hfb hsource.primary_ne ?_ (hsource.content hip false).1 (hbelow false)
    intro hlive
    rcases hsource.primary i hip with hc | hc | hc
    · exact absurd (hc ▸ hlive : (0 : Int) ≤ freePage) (by decide)
    · exact absurd (hc ▸ hlive : (0 : Int) ≤ invalidPage) (by decide)
    · exact hc.2
  refine ((hcopied.movePrimary hsource hfb hi).and hfirst).bind fun st₁ hst₁ => ?_
  obtain ⟨h₁, ht₁⟩ := hst₁
  have hpage : st₁.1.flashMemory e.replacementBlock i = fm e.replacementBlock i :=
    congrFun (h₁.other _ hsource.replacement_ne) i
  simp only [hpage]
  obtain ⟨hcontent, hset⟩ := hsource.content hip true
  refine Tallied.movePage (k := true) ht₁ h₁ hfb hsource.replacement_ne
    (fun hlive => ⟨rfl, hset hlive⟩) hcontent fun hlive => ?_
  rintro (hm | ⟨-, hm⟩)
  · exact hbelow true hlive hm
  · have hk := (hone.page true false i hi i hi hlive (by exact hm.symm)).1
    cases hk

end Merge

/-- No two pages of a set hold the same cluster. -/
theorem BlockSets.onePage (h : BlockSets g good free s) (hgood : good ⊆ g.blocks)
    (hrepl : (s.nftlTable l).replacementBlock ≠ nftlPointToNull) :
    OnePage g s.dev.flashMemory (s.nftlTable l) := by
  have hne : ∀ k, (s.nftlTable l).block k ≠ nftlPointToNull := by
    intro k
    cases k with
    | false => exact h.sets.primary l hrepl
    | true => exact hrepl
  have hmem : ∀ k, (s.nftlTable l).block k ∈ g.blocks := fun k => hgood (h.sets.owned l k (hne k)).1
  have hpage : ∀ i < g.maxPage, (i : Int) ∈ g.pages := fun i hi =>
    g.mem_pages.mpr ⟨Int.natCast_nonneg i, by exact_mod_cast hi⟩
  refine ⟨fun k k' i hi i' hi' hc heq => ?_⟩
  obtain ⟨hb, hp⟩ := h.pages.unique _ (hmem k) i (hpage i hi) _ (hmem k') i' (hpage i' hi') heq hc
  exact ⟨(h.sets.distinct l k l k' hb (hne k)).2, Int.ofNat.inj hp⟩

/-- Exact counters are the same over the same pages. -/
theorem Device.Counts.congr {d d' : Device} {b : Int} (h : d.Counts g b)
    (hcounts : d'.validPageCnt b = d.validPageCnt b ∧ d'.invalidPageCnt b = d.invalidPageCnt b)
    (hpages : ∀ p ∈ g.pages, d'.flashMemory b p = d.flashMemory b p) : d'.Counts g b := by
  unfold Device.Counts
  rw [hcounts.1, hcounts.2]
  exact Exact.congr h hpages

/-- `NFTLMergeBlocks` keeps the counters exact. -/
theorem Counted.merge {fb : Int} (hcount : Counted g s) (h : BlockSets g good (fb :: free) s)
    (hgood : good ⊆ g.blocks) (hrepl : (s.nftlTable l).replacementBlock ≠ nftlPointToNull)
    (hok : nftlMergeBlocks g s l = .ok s') : Counted g s' := by
  have hfbk := hgood (h.listed.mem_good fb List.mem_cons_self)
  have hprim := h.sets.primary l hrepl
  have hsource := h.mergeSource hrepl hgood
  obtain ⟨d, hget, hlisted, hfm, hvalid, hinvalid⟩ := h.exchange hgood hrepl
  have herased := h.erased fb List.mem_cons_self
  have hstart : Tallied g s.dev fb (s.nftlTable l) (d, 0) := by
    refine ⟨?_, fun b hb _ _ => ?_⟩
    · unfold Device.Counts
      simp only
      rw [hvalid, hinvalid, Function.update_self, Function.update_self, hfm]
      exact Exact.erased herased
    · simp only
      rw [hvalid, hinvalid, Function.update_of_ne hb, Function.update_of_ne hb]
      exact ⟨rfl, rfl⟩
  obtain ⟨⟨d', page⟩, hfold, hcopied, htally⟩ :=
    (Meets.foldlM_range (fun n st =>
        Copied g good (free ++ [(s.nftlTable l).primaryBlock] ++ [(s.nftlTable l).replacementBlock])
          s.dev.flashMemory fb l (movedBelow s.dev.flashMemory (s.nftlTable l) n) st ∧
        Tallied g s.dev fb (s.nftlTable l) st)
      ⟨.start hlisted hfm herased, hstart⟩
      fun i hi st hst => (hst.1.mergePage hsource hfbk hi).and
        (hst.2.mergePage hst.1 hsource (h.onePage hgood hrepl) hfbk hi)).exists_ok
  rw [mergeBlocks_eq hget hfold] at hok
  obtain rfl := Except.ok.inj hok
  refine ⟨?_, ?_⟩
  · intro l' k hne
    by_cases hl : l' = l
    · subst l'
      simp only [Function.update_self] at hne ⊢
      cases k with
      | true => exact absurd rfl hne
      | false =>
        refine Device.Counts.congr htally.exact ⟨?_, ?_⟩ fun p hp => ?_
        · simp [eraseBlock, NFTLElement.block, hsource.primary_ne.symm, hsource.replacement_ne.symm]
        · simp [eraseBlock, NFTLElement.block, hsource.primary_ne.symm, hsource.replacement_ne.symm]
        · simp only [NFTLElement.block]
          rw [eraseBlocks_page hp, if_neg hsource.replacement_ne.symm,
            if_neg hsource.primary_ne.symm]
    · simp only [Function.update_of_ne hl] at hne ⊢
      have hbf : (s.nftlTable l').block k ≠ fb := fun he =>
        (h.sets.owned l' k hne).2 (he ▸ List.mem_cons_self)
      have hbp : (s.nftlTable l').block k ≠ (s.nftlTable l).primaryBlock := fun he =>
        hl (h.sets.distinct l' k l false he hne).1
      have hbr : (s.nftlTable l').block k ≠ (s.nftlTable l).replacementBlock := fun he =>
        hl (h.sets.distinct l' k l true he hne).1
      obtain ⟨hv, hi⟩ := htally.other _ hbf hbp hbr
      refine Device.Counts.congr (hcount.exact l' k hne) ⟨?_, ?_⟩ fun p hp => ?_
      · simpa [eraseBlock, hbp, hbr] using hv
      · simpa [eraseBlock, hbp, hbr] using hi
      · rw [eraseBlocks_page hp, if_neg hbr, if_neg hbp]
        exact congrFun (hcopied.other _ hbf) p
  · intro l' hne p hp
    by_cases hl : l' = l
    · subst l'
      simp only [Function.update_self] at hne
      exact absurd rfl hne
    · simp only [Function.update_of_ne hl] at hne ⊢
      have hbf : (s.nftlTable l').replacementBlock ≠ fb := fun he =>
        (h.sets.owned l' true hne).2 (he ▸ List.mem_cons_self)
      have hbp : (s.nftlTable l').replacementBlock ≠ (s.nftlTable l).primaryBlock := fun he =>
        hl (h.sets.distinct l' true l false he hne).1
      have hbr : (s.nftlTable l').replacementBlock ≠ (s.nftlTable l).replacementBlock := fun he =>
        hl (h.sets.distinct l' true l true he hne).1
      have hsame : d'.flashMemory (s.nftlTable l').replacementBlock p =
          s.dev.flashMemory (s.nftlTable l').replacementBlock p := congrFun (hcopied.other _ hbf) p
      rw [eraseBlocks_page hp, if_neg hbr, if_neg hbp, hsame]
      exact hcount.filled l' hne p hp

/-- Only the pages, the counters and the table matter. -/
theorem Counted.congr (h : Counted g s) (hfm : s'.dev.flashMemory = s.dev.flashMemory)
    (hvalid : s'.dev.validPageCnt = s.dev.validPageCnt)
    (hinvalid : s'.dev.invalidPageCnt = s.dev.invalidPageCnt)
    (htable : s'.nftlTable = s.nftlTable) : Counted g s' := by
  refine ⟨?_, ?_⟩
  · intro l k hne
    unfold Device.Counts
    rw [hfm, hvalid, hinvalid, htable]
    exact h.exact l k (htable ▸ hne)
  · intro l hne
    rw [hfm, htable]
    exact h.filled l (htable ▸ hne)

/-- `NFTLGarbageCollection` keeps the counters exact. -/
theorem Counted.collect (hcount : Counted g s) (h : BlockSets g good free s)
    (hgood : good ⊆ g.blocks) : Meets notExit (Counted g) (nftlGarbageCollection g s l) := by
  unfold nftlGarbageCollection
  refine (findVictimSet_meets (g := g) (l := l) (s := s)).bind ?_
  rintro ⟨found, s₁⟩ ⟨⟨k, rfl⟩, hfound⟩
  cases found with
  | false => exact hcount.congr rfl rfl rfl rfl
  | true =>
    have hv := hfound rfl
    simp only [isVictimSet, Bool.and_eq_true, bne_iff_ne] at hv
    obtain ⟨⟨⟨-, hprim⟩, hrepl⟩, -⟩ := hv
    have h₁ : BlockSets g good free { s with currentScanningBlockSetID := k } := h.rescan rfl rfl
    obtain ⟨fb, rest, rfl⟩ := h.exists_free hprim
    obtain ⟨s₂, hok, -, -⟩ := h₁.merge hgood hrepl
    have hcount₁ : Counted g { s with currentScanningBlockSetID := k } :=
      hcount.congr rfl rfl rfl rfl
    simp only [if_true, hok]
    exact hcount₁.merge h₁ hgood hrepl hok

/-- A block that no set has yet: its pages are free and its counters are exact. -/
structure Blank (g : Geometry) (b : Int) (s : Nftl) : Prop where
  counts : s.dev.Counts g b
  free : ∀ p ∈ g.pages, s.dev.flashMemory b p = freePage

/-- An allocation keeps the counters exact and gives a blank block. -/
theorem Counted.allocate (hcount : Counted g s) (h : BlockSets g good free s)
    (hgood : good ⊆ g.blocks) {fuel : Nat} :
    Meets notExit (fun r => Counted g r.2 ∧ Blank g r.1 r.2) (nftlAllocate g l fuel s) := by
  induction fuel generalizing s free with
  | zero => exact (by decide : Fault.outOfFuel ≠ Fault.exit)
  | succ fuel ih =>
    rw [nftlAllocate]
    rcases Nat.lt_or_ge g.leastFreeBlocksInFBL free.length with hleast | hleast
    · obtain ⟨b, rest, rfl⟩ := List.exists_cons_of_length_pos (Nat.zero_lt_of_lt hleast)
      obtain ⟨d', hget, -, hfm, hvalid, hinvalid⟩ :=
        getFreeBlock_above h.listed hgood (Nat.le_of_lt_succ hleast)
      rw [hget]
      have hb : b ≠ -1 :=
        ne_nftlNull_of_mem_blocks (hgood (h.listed.mem_good b List.mem_cons_self))
      have hblank : ∀ p ∈ g.pages, d'.flashMemory b p = freePage := by
        rw [hfm]
        exact h.erased b List.mem_cons_self
      change Meets notExit _ (if b = -1 then _ else _)
      rw [if_neg hb]
      refine ⟨⟨?_, ?_⟩, ⟨?_, hblank⟩⟩
      · intro l' k hne
        have hbk : (s.nftlTable l').block k ≠ b := fun he =>
          (h.sets.owned l' k hne).2 (he ▸ List.mem_cons_self)
        refine (hcount.exact l' k hne).congr ⟨?_, ?_⟩ fun p _ => ?_
        · simp only
          rw [hvalid, Function.update_of_ne hbk]
        · simp only
          rw [hinvalid, Function.update_of_ne hbk]
        · simp only
          rw [hfm]
      · intro l' hne p hp
        simp only
        rw [hfm]
        exact hcount.filled l' hne p hp
      · unfold Device.Counts
        simp only
        rw [hvalid, hinvalid, Function.update_self, Function.update_self]
        exact Exact.erased hblank
    · rw [getFreeBlock_reserve h.listed hleast]
      refine ((h.collect hgood).and (hcount.collect h hgood)).bind fun s₁ hs₁ => ?_
      obtain ⟨⟨⟨free₁, h₁⟩, -⟩, hcount₁⟩ := hs₁
      exact ih hcount₁ h₁

/-- A set gets a blank block. -/
theorem Counted.assign {b : Int} (hcount : Counted g s) (hblank : Blank g b s) {e : NFTLElement}
    (hblock : ∀ k, e.block k = b ∨ e.block k = (s.nftlTable l).block k)
    (hposition : e.replacementBlock ≠ nftlPointToNull →
      (e.replacementBlock = b ∧ e.currentFreePageIDinRB = 0) ∨
        (e.replacementBlock = (s.nftlTable l).replacementBlock ∧
          e.currentFreePageIDinRB = (s.nftlTable l).currentFreePageIDinRB)) :
    Counted g { s with nftlTable := Function.update s.nftlTable l e } := by
  refine ⟨?_, ?_⟩
  · intro l' k hne
    by_cases hl : l' = l
    · subst l'
      simp only [Function.update_self] at hne ⊢
      rcases hblock k with hk | hk
      · rw [hk]
        exact hblank.counts
      · rw [hk] at hne ⊢
        exact hcount.exact l k hne
    · simp only [Function.update_of_ne hl] at hne ⊢
      exact hcount.exact l' k hne
  · intro l' hne p hp
    by_cases hl : l' = l
    · subst l'
      simp only [Function.update_self] at hne ⊢
      rcases hposition hne with ⟨hb, hpos⟩ | ⟨hb, hpos⟩
      · rw [hb, hpos]
        exact iff_of_true (hblank.free p hp) (g.mem_pages.mp hp).1
      · rw [hb] at hne ⊢
        rw [hpos]
        exact hcount.filled l hne p hp
    · simp only [Function.update_of_ne hl] at hne ⊢
      exact hcount.filled l' hne p hp

/-- The first step of a write keeps the counters exact. -/
theorem Counted.ensurePrimaryBlock (hcount : Counted g s) (h : BlockSets g good free s)
    (hgood : good ⊆ g.blocks) {fuel : Nat} :
    Meets notExit (Counted g) (ensurePrimaryBlock g fuel s l) := by
  unfold Flash.ensurePrimaryBlock
  split
  · refine (hcount.allocate h hgood).bind ?_
    rintro ⟨b, s₁⟩ ⟨hcount₁, hblank⟩
    refine hcount₁.assign hblank ?_ fun _ => .inr ⟨rfl, rfl⟩
    intro k
    cases k with
    | false => exact .inl rfl
    | true => exact .inr rfl
  · exact hcount

/-- The first half of the loop around the replacement block keeps the counters exact. -/
theorem Counted.allocateReplacementBlock (hcount : Counted g s) (h : BlockSets g good free s)
    (hgood : good ⊆ g.blocks) {fuel : Nat} :
    Meets notExit (Counted g) (allocateReplacementBlock g fuel s l) := by
  unfold Flash.allocateReplacementBlock
  split
  · refine (hcount.allocate h hgood).bind ?_
    rintro ⟨b, s₁⟩ ⟨hcount₁, hblank⟩
    refine hcount₁.assign hblank ?_ fun _ => .inl ⟨rfl, rfl⟩
    intro k
    cases k with
    | false => exact .inr rfl
    | true => exact .inl rfl
  · exact hcount

/-- The loop around the replacement block keeps the counters exact. -/
theorem Counted.ensureReplacementPage (hcount : Counted g s) (h : BlockSets g good free s)
    (hgood : good ⊆ g.blocks) (hprim : (s.nftlTable l).primaryBlock ≠ nftlPointToNull)
    {fuel : Nat} : Meets notExit (Counted g) (ensureReplacementPage g l fuel s) := by
  induction fuel generalizing s free with
  | zero => exact (by decide : Fault.outOfFuel ≠ Fault.exit)
  | succ fuel ih =>
    rw [Flash.ensureReplacementPage]
    refine ((h.allocateReplacementBlock hgood hprim).and
      (hcount.allocateReplacementBlock h hgood)).bind ?_
    rintro s₁ ⟨⟨⟨free₁, h₁⟩, hprim₁, hrepl₁, -, -⟩, hcount₁⟩
    have hpos := h₁.sets.position _ hrepl₁
    by_cases hfull : g.maxPage ≤ (s₁.nftlTable l).currentFreePageIDinRB
    · simp only [if_pos hfull]
      rw [if_neg (by omega)]
      obtain ⟨fb, rest, rfl⟩ := h₁.exists_free hprim₁
      obtain ⟨s₂, hok, hm, h₂⟩ := h₁.merge hgood hrepl₁
      have hprim₂ : (s₂.nftlTable l).primaryBlock ≠ nftlPointToNull := by
        obtain ⟨page, htable⟩ := hm.table
        rw [htable, Function.update_self]
        exact ne_nftlNull_of_mem_blocks (hgood (h₁.listed.mem_good fb List.mem_cons_self))
      rw [hok]
      exact ih (hcount₁.merge h₁ hgood hrepl₁ hok) h₂ hprim₂
    · simp only [if_neg hfull]
      exact hcount₁

section Store

/-- The write position of a replacement block with room is a free page. -/
theorem Counted.slot_free (hcount : Counted g s) (h : BlockSets g good free s)
    (hready : ReadyToUpdate g c s) :
    let e := s.nftlTable (g.logicalBlock c)
    e.currentFreePageIDinRB ∈ g.pages ∧
      s.dev.flashMemory e.replacementBlock e.currentFreePageIDinRB = freePage := by
  obtain ⟨hge, -⟩ := h.sets.position _ hready.replacement
  have hpage := g.mem_pages.mpr ⟨hge, hready.room⟩
  exact ⟨hpage, (hcount.filled _ hready.replacement _ hpage).mpr le_rfl⟩

/-- The device of a write once its cluster is dropped: the counters are exact but for the page
that the replacement block is about to get. -/
structure Prepared (g : Geometry) (l : Int) (s : Nftl) (d : Device) : Prop where
  other : ∀ l' k, (s.nftlTable l').block k ≠ nftlPointToNull → ¬ (l' = l ∧ k = true) →
    d.Counts g ((s.nftlTable l').block k)
  pending : Exact g (d.validPageCnt (s.nftlTable l).replacementBlock - 1)
    (d.invalidPageCnt (s.nftlTable l).replacementBlock)
    (d.flashMemory (s.nftlTable l).replacementBlock)
  free : ∀ l', (s.nftlTable l').replacementBlock ≠ nftlPointToNull → ∀ p ∈ g.pages,
    (d.flashMemory (s.nftlTable l').replacementBlock p = freePage ↔
      s.dev.flashMemory (s.nftlTable l').replacementBlock p = freePage)

/-- Appending the cluster makes the counters exact again. -/
theorem Prepared.append {d : Device} (hd : Prepared g (g.logicalBlock c) s d)
    (hcount : Counted g s) (h : BlockSets g good free s) (hc : 0 ≤ c)
    (hready : ReadyToUpdate g c s) :
    Counted g (appendReplacement { s with dev := d } (g.logicalBlock c) c) := by
  obtain ⟨hslot, hslotfree⟩ := hcount.slot_free h hready
  have hdfree := (hd.free _ hready.replacement _ hslot).mpr hslotfree
  have hblock : ∀ l' k, ((appendReplacement { s with dev := d } (g.logicalBlock c) c).nftlTable
      l').block k = (s.nftlTable l').block k := by
    intro l' k
    simp only [appendReplacement]
    by_cases hl : l' = g.logicalBlock c
    · subst l'
      rw [Function.update_self]
      cases k <;> rfl
    · rw [Function.update_of_ne hl]
  refine ⟨?_, ?_⟩
  · intro l' k hne
    rw [hblock] at hne ⊢
    unfold Device.Counts
    simp only [appendReplacement, setPage]
    by_cases hlk : l' = g.logicalBlock c ∧ k = true
    · obtain ⟨rfl, rfl⟩ := hlk
      have hexact := hd.pending.program hslot hdfree hc
      rw [Int.sub_add_cancel] at hexact
      simp only [NFTLElement.block]
      rwa [Function.update_self]
    · have hbr : (s.nftlTable l').block k ≠ (s.nftlTable (g.logicalBlock c)).replacementBlock :=
        fun he => hlk (h.sets.distinct l' k _ true he hne)
      rw [Function.update_of_ne hbr]
      exact hd.other l' k hne hlk
  · intro l' hne p hp
    have hrepl := hblock l' true
    simp only [NFTLElement.block] at hrepl
    rw [hrepl] at hne ⊢
    simp only [appendReplacement]
    by_cases hl : l' = g.logicalBlock c
    · subst l'
      rw [Function.update_self]
      simp only
      by_cases hpp : p = (s.nftlTable (g.logicalBlock c)).currentFreePageIDinRB
      · rw [hpp, setPage_self]
        refine iff_of_false ?_ (by omega)
        rintro rfl
        exact absurd hc (by decide)
      · rw [setPage_of_ne fun he => hpp he.2, hd.free _ hne p hp, hcount.filled _ hne p hp]
        omega
    · rw [Function.update_of_ne hl, setPage_of_ne, hd.free _ hne p hp]
      · exact hcount.filled _ hne p hp
      · exact fun he => hl (h.sets.distinct l' true _ true he.1 hne).1

/-- Giving up the page of the primary block prepares the write. -/
theorem Counted.prepare_primary (hcount : Counted g s) (h : BlockSets g good free s)
    (hready : ReadyToUpdate g c s) (hc : 0 ≤ c)
    (hpage : 0 ≤ s.dev.flashMemory (s.nftlTable (g.logicalBlock c)).primaryBlock
      (g.logicalPage c)) :
    let e := s.nftlTable (g.logicalBlock c)
    Prepared g (g.logicalBlock c) s (addValid (addValid (markInvalid s.dev e.primaryBlock
      (g.logicalPage c)) e.primaryBlock (-1)) e.replacementBlock 1) := by
  have hpr : (s.nftlTable (g.logicalBlock c)).replacementBlock ≠
      (s.nftlTable (g.logicalBlock c)).primaryBlock := by
    intro he
    have hk := (h.sets.distinct _ true _ false he hready.replacement).2
    cases hk
  have hprim : Exact g _ _ _ := (hcount.exact (g.logicalBlock c) false hready.primary).invalidate
    (g.logicalPage_mem hc) hpage
  have hrepl : Exact g _ _ _ := hcount.exact (g.logicalBlock c) true hready.replacement
  simp only [NFTLElement.block] at hprim hrepl
  refine ⟨?_, ?_, ?_⟩
  · intro l' k hne hlk
    have hbr : (s.nftlTable l').block k ≠ (s.nftlTable (g.logicalBlock c)).replacementBlock :=
      fun he => hlk (h.sets.distinct l' k _ true he hne)
    unfold Device.Counts
    by_cases hlp : l' = g.logicalBlock c ∧ k = false
    · obtain ⟨rfl, rfl⟩ := hlp
      simpa [addValid, markInvalid, setPage, NFTLElement.block, hpr.symm, Int.sub_eq_add_neg]
        using hprim
    · have hbp : (s.nftlTable l').block k ≠ (s.nftlTable (g.logicalBlock c)).primaryBlock :=
        fun he => hlp (h.sets.distinct l' k _ false he hne)
      simpa [Device.Counts, addValid, markInvalid, setPage, hbr, hbp] using hcount.exact l' k hne
  · simpa [addValid, markInvalid, setPage, hpr] using hrepl
  · intro l' hne p _
    have hbp : (s.nftlTable l').replacementBlock ≠ (s.nftlTable (g.logicalBlock c)).primaryBlock := by
      intro he
      have hk := (h.sets.distinct l' true _ false he hne).2
      cases hk
    simp [addValid, markInvalid, setPage, hbp]

/-- Giving up a page of the replacement block prepares the write. -/
theorem Counted.prepare_replacement (hcount : Counted g s) (h : BlockSets g good free s)
    (hready : ReadyToUpdate g c s) {i : Int} (hi : i ∈ g.pages)
    (hc : 0 ≤ s.dev.flashMemory (s.nftlTable (g.logicalBlock c)).replacementBlock i) {d : Device}
    (hfm : d.flashMemory =
      setPage s.dev.flashMemory (s.nftlTable (g.logicalBlock c)).replacementBlock i invalidPage)
    (hvalid : d.validPageCnt = s.dev.validPageCnt)
    (hinvalid : d.invalidPageCnt = Function.update s.dev.invalidPageCnt
      (s.nftlTable (g.logicalBlock c)).replacementBlock
      (s.dev.invalidPageCnt (s.nftlTable (g.logicalBlock c)).replacementBlock + 1)) :
    Prepared g (g.logicalBlock c) s d := by
  have hrepl : Exact g _ _ _ :=
    (hcount.exact (g.logicalBlock c) true hready.replacement).invalidate hi hc
  simp only [NFTLElement.block] at hrepl
  refine ⟨?_, ?_, ?_⟩
  · intro l' k hne hlk
    have hbr : (s.nftlTable l').block k ≠ (s.nftlTable (g.logicalBlock c)).replacementBlock :=
      fun he => hlk (h.sets.distinct l' k _ true he hne)
    refine (hcount.exact l' k hne).congr ⟨by rw [hvalid], ?_⟩ fun p _ => ?_
    · rw [hinvalid, Function.update_of_ne hbr]
    · rw [hfm, setPage_block_of_ne hbr]
  · rw [hvalid, hinvalid, hfm, Function.update_self, setPage, Function.update_self]
    exact hrepl
  · intro l' hne p hp
    rw [hfm]
    by_cases hpi : (s.nftlTable l').replacementBlock =
        (s.nftlTable (g.logicalBlock c)).replacementBlock ∧ p = i
    · rw [hpi.1, hpi.2, setPage_self]
      refine iff_of_false (by decide) fun hfree => ?_
      rw [hfree] at hc
      exact absurd hc (by decide)
    · rw [setPage_of_ne hpi]

/-- A cluster without a page needs no preparation but its count. -/
theorem Counted.prepare_new (hcount : Counted g s) (h : BlockSets g good free s)
    (hready : ReadyToUpdate g c s) :
    Prepared g (g.logicalBlock c) s
      (addValid s.dev (s.nftlTable (g.logicalBlock c)).replacementBlock 1) := by
  have hrepl : Exact g _ _ _ := hcount.exact (g.logicalBlock c) true hready.replacement
  simp only [NFTLElement.block] at hrepl
  refine ⟨?_, ?_, fun _ _ _ _ => Iff.rfl⟩
  · intro l' k hne hlk
    have hbr : (s.nftlTable l').block k ≠ (s.nftlTable (g.logicalBlock c)).replacementBlock :=
      fun he => hlk (h.sets.distinct l' k _ true he hne)
    simpa [Device.Counts, addValid, hbr] using hcount.exact l' k hne
  · simpa [addValid] using hrepl

/-- CASE 2 to CASE 4 keep the counters exact. -/
theorem Counted.storeUpdate (hcount : Counted g s) (h : BlockSets g good free s)
    (hc : 0 ≤ c) (hready : ReadyToUpdate g c s) {k : UpdateCase}
    (hcase : updateCase g s c = some k) (hok : storeUpdate g s c k = .ok s') : Counted g s' := by
  -- what a search that finds the cluster says of its page
  have hfound : ∀ i, searchReplacementBlock s.dev.flashMemory
      (s.nftlTable (g.logicalBlock c)).replacementBlock c
      (s.nftlTable (g.logicalBlock c)).currentFreePageIDinRB.toNat = some i →
      (i : Int) ∈ g.pages ∧
        0 ≤ s.dev.flashMemory (s.nftlTable (g.logicalBlock c)).replacementBlock i := by
    intro i hi
    obtain ⟨hlt, heq⟩ := searchReplacementBlock_some hi
    rw [heq]
    exact ⟨(h.position_mem hready.replacement hlt).2, hc⟩
  cases k with
  | inPrimary =>
    obtain rfl := Except.ok.inj hok
    refine (hcount.prepare_primary h hready hc ?_).append hcount h hc hready
    simp only [updateCase] at hcase
    split at hcase
    · rename_i heq
      rwa [heq]
    · split at hcase
      · cases hcase
      · split at hcase <;> cases hcase
  | inReplacement =>
    simp only [Flash.storeUpdate] at hok
    split at hok
    · cases hok
    · rename_i i hi
      obtain rfl := Except.ok.inj hok
      obtain ⟨hip, hlive⟩ := hfound i hi
      refine Prepared.append ?_ hcount h hc hready
      exact hcount.prepare_replacement h hready hip hlive rfl rfl rfl
  | outOfOrder =>
    simp only [Flash.storeUpdate] at hok
    split at hok
    · obtain rfl := Except.ok.inj hok
      exact (hcount.prepare_new h hready).append hcount h hc hready
    · rename_i i hi
      obtain rfl := Except.ok.inj hok
      obtain ⟨hip, hlive⟩ := hfound i hi
      refine Prepared.append ?_ hcount h hc hready
      refine hcount.prepare_replacement h hready hip hlive rfl ?_ rfl
      -- one page of the block becomes invalid and one valid
      simp [addValid, markInvalid]

/-- CASE 1 keeps the counters exact. -/
theorem Counted.storePrimary (hcount : Counted g s) (h : BlockSets g good free s) (hc : 0 ≤ c)
    (hprim : (s.nftlTable (g.logicalBlock c)).primaryBlock ≠ nftlPointToNull)
    (hfits : fitsPrimaryBlock g s c = true) : Counted g (storePrimary g s c) := by
  simp only [fitsPrimaryBlock, Bool.and_eq_true, beq_iff_eq, decide_eq_true_eq] at hfits
  have hexact : Exact g _ _ _ := (hcount.exact (g.logicalBlock c) false hprim).program
    (g.logicalPage_mem hc) hfits.1 hc
  simp only [NFTLElement.block] at hexact
  have hblock : ∀ l' k, ((Flash.storePrimary g s c).nftlTable l').block k =
      (s.nftlTable l').block k := by
    intro l' k
    simp only [Flash.storePrimary]
    by_cases hl : l' = g.logicalBlock c
    · subst l'
      rw [Function.update_self]
      cases k <;> rfl
    · rw [Function.update_of_ne hl]
  have hposition : ∀ l', ((Flash.storePrimary g s c).nftlTable l').currentFreePageIDinRB =
      (s.nftlTable l').currentFreePageIDinRB := by
    intro l'
    simp only [Flash.storePrimary]
    by_cases hl : l' = g.logicalBlock c
    · subst l'
      rw [Function.update_self]
    · rw [Function.update_of_ne hl]
  refine ⟨?_, ?_⟩
  · intro l' k hne
    rw [hblock] at hne ⊢
    by_cases hlp : l' = g.logicalBlock c ∧ k = false
    · obtain ⟨rfl, rfl⟩ := hlp
      simpa [Device.Counts, Flash.storePrimary, addValid, setPage, NFTLElement.block] using hexact
    · have hbp : (s.nftlTable l').block k ≠ (s.nftlTable (g.logicalBlock c)).primaryBlock :=
        fun he => hlp (h.sets.distinct l' k _ false he hne)
      simpa [Device.Counts, Flash.storePrimary, addValid, setPage, hbp] using hcount.exact l' k hne
  · intro l' hne p hp
    have hrepl := hblock l' true
    simp only [NFTLElement.block] at hrepl
    rw [hrepl] at hne
    have hbp : (s.nftlTable l').replacementBlock ≠ (s.nftlTable (g.logicalBlock c)).primaryBlock := by
      intro he
      have hk := (h.sets.distinct l' true _ false he hne).2
      cases hk
    rw [hposition, hrepl]
    simpa [Flash.storePrimary, addValid, setPage, hbp] using hcount.filled l' hne p hp

end Store

/-- `NFTLWriteOneCluster` keeps the counters exact. -/
theorem Counted.write (hcount : Counted g s) (h : BlockSets g good free s)
    (hgood : good ⊆ g.blocks) (hc : 0 ≤ c) (fuel : Nat) :
    Meets notExit (Counted g) (nftlWriteOneCluster g fuel s c) := by
  unfold nftlWriteOneCluster
  simp only
  split
  · exact (by decide : Fault.badIndex ≠ Fault.exit)
  refine ((h.ensurePrimaryBlock hgood).and (hcount.ensurePrimaryBlock h hgood)).bind ?_
  rintro s₁ ⟨⟨⟨free₁, h₁⟩, hprim₁, -⟩, hcount₁⟩
  by_cases hfits : fitsPrimaryBlock g s₁ c = true
  · rw [if_pos hfits]
    exact hcount₁.storePrimary h₁ hc hprim₁ hfits
  · rw [if_neg hfits]
    rw [h₁.fitsPrimaryBlock_iff hgood hc hprim₁, not_le] at hfits
    refine ((h₁.ensureReplacementPage hgood hc hprim₁ hfits).and
      (hcount₁.ensureReplacementPage h₁ hgood hprim₁)).bind ?_
    rintro s₂ ⟨⟨⟨free₂, h₂⟩, hready, -⟩, hcount₂⟩
    obtain ⟨k, hcase⟩ := h₂.updateCase_isSome hgood hc hready
    obtain ⟨s', hok, -, -⟩ := h₂.storeUpdate hgood hc hready hcase
    simp only [hcase, hok]
    exact hcount₂.storeUpdate h₂ hc hready hcase hok

/-- Returning writes keep the counters exact. -/
theorem Counted.writes {written cs : List Int} (hrun : NftlWrites g s cs s')
    (hcount : Counted g s) (h : Kept g good written s) (hgood : good ⊆ g.blocks)
    (hcs : ∀ c ∈ cs, 0 ≤ c) : Counted g s' := by
  induction hrun generalizing written with
  | nil => exact hcount
  | cons head tail ih =>
    have hc := hcs _ List.mem_cons_self
    have hkept₁ := h.write hgood hc head
    obtain ⟨⟨free, hsets⟩, -, -⟩ := h
    obtain ⟨fuel, hok⟩ := head
    have hcount₁ := (hcount.write hsets hgood hc fuel).of_ok hok
    exact ih hcount₁ hkept₁ fun c hc => hcs c (List.mem_cons_of_mem _ hc)

/-- The two counters of a replacement block add up to its write position. -/
theorem Counted.sum_eq_position (hcount : Counted g s) (h : BlockSets g good free s)
    (hrepl : (s.nftlTable l).replacementBlock ≠ nftlPointToNull) :
    s.dev.validPageCnt (s.nftlTable l).replacementBlock +
      s.dev.invalidPageCnt (s.nftlTable l).replacementBlock =
        (s.nftlTable l).currentFreePageIDinRB := by
  obtain ⟨hvalid, hinvalid⟩ := hcount.exact l true hrepl
  obtain ⟨hge, hle⟩ := h.sets.position l hrepl
  simp only [NFTLElement.block] at hvalid hinvalid
  -- the pages before the position hold a cluster or are invalid, and no page holds both
  have hsplit : (intRange (s.nftlTable l).currentFreePageIDinRB.toNat) =
      (g.pages.filter fun p =>
        isCluster (s.dev.flashMemory (s.nftlTable l).replacementBlock p)) ∪
      (g.pages.filter fun p =>
        s.dev.flashMemory (s.nftlTable l).replacementBlock p = invalidPage) := by
    ext p
    rw [mem_intRange_toNat, Finset.mem_union, Finset.mem_filter, Finset.mem_filter, ← and_or_left]
    constructor
    · intro hp
      have hpage := g.mem_pages.mpr ⟨hp.1, by omega⟩
      refine ⟨hpage, ?_⟩
      have hnot := (hcount.filled l hrepl p hpage).not.mpr (by omega)
      rcases h.pages.content _ (h.sets.owned l true hrepl).1 p hpage with hc | hc | hc
      · exact absurd hc hnot
      · exact .inr hc
      · exact .inl hc
    · rintro ⟨hpage, hc⟩
      refine ⟨(g.mem_pages.mp hpage).1, ?_⟩
      by_contra hlt
      have hfree := (hcount.filled l hrepl p hpage).mpr (by omega)
      rcases hc with hc | hc
      · rw [hfree] at hc
        exact absurd hc (by decide)
      · exact absurd (hfree.symm.trans hc) (by decide)
  have hdisjoint : Disjoint
      (g.pages.filter fun p =>
        isCluster (s.dev.flashMemory (s.nftlTable l).replacementBlock p))
      (g.pages.filter fun p =>
        s.dev.flashMemory (s.nftlTable l).replacementBlock p = invalidPage) := by
    rw [Finset.disjoint_filter]
    intro p _ hc hinv
    rw [hinv] at hc
    exact absurd hc (by decide)
  have hcard := congrArg Finset.card hsplit
  rw [card_intRange, Finset.card_union_of_disjoint hdisjoint] at hcard
  rw [hvalid, hinvalid]
  unfold countCells
  simp only
  omega

/-- The counters of the blocks in the table, where clusters are the numbers below
`clusters`. -/
structure CountersExact (g : Geometry) (clusters : Int) (s : Nftl) : Prop where
  /-- `ValidPageCnt` is the number of pages that hold a cluster number. -/
  valid : ∀ l k, (s.nftlTable l).block k ≠ nftlPointToNull →
    s.dev.validPageCnt ((s.nftlTable l).block k) = (g.pages.filter fun p =>
      0 ≤ s.dev.flashMemory ((s.nftlTable l).block k) p ∧
        s.dev.flashMemory ((s.nftlTable l).block k) p < clusters).card
  /-- `InvalidPageCnt` is the number of pages that hold `INVALID_PAGE`. -/
  invalid : ∀ l k, (s.nftlTable l).block k ≠ nftlPointToNull →
    s.dev.invalidPageCnt ((s.nftlTable l).block k) = (g.pages.filter fun p =>
      s.dev.flashMemory ((s.nftlTable l).block k) p = invalidPage).card
  /-- The two counters of a replacement block add up to its first free page. -/
  position : ∀ l, (s.nftlTable l).replacementBlock ≠ nftlPointToNull →
    s.dev.validPageCnt (s.nftlTable l).replacementBlock +
      s.dev.invalidPageCnt (s.nftlTable l).replacementBlock = (s.nftlTable l).currentFreePageIDinRB

/-- After every run from the empty table the counters are exact. -/
theorem nftlWrites_countersExact {draws : Draws} {cs : List Int}
    (hcs : ∀ c ∈ cs, admissible g draws c)
    (hrun : NftlWrites g (openNFTL (initializeFlashMemory g draws)) cs s) :
    CountersExact g (maxCluster g (initializeFlashMemory g draws).badBlockCnt) s := by
  obtain ⟨free, hfresh⟩ := initializeFlashMemory_fresh g draws
  have hkept₀ := hfresh.kept
  have hcount : Counted g (openNFTL (initializeFlashMemory g draws)) := by
    have hnull : ∀ l k, ((openNFTL (initializeFlashMemory g draws)).nftlTable l).block k =
        nftlPointToNull := by
      intro l k
      cases k <;> rfl
    exact ⟨fun l k hne => absurd (hnull l k) hne, fun l hne => absurd rfl hne⟩
  have hnonneg : ∀ c ∈ cs, 0 ≤ c := fun c hc => (hcs c hc).1
  have hcount' := hcount.writes hrun hkept₀ hfresh.good_blocks hnonneg
  obtain ⟨⟨free', hsets⟩, hstored, -⟩ := hkept₀.writes hrun hfresh.good_blocks hnonneg
  refine ⟨fun l k hne => ?_, fun l k hne => (hcount'.exact l k hne).2,
    fun l hrepl => hcount'.sum_eq_position hsets hrepl⟩
  rw [(hcount'.exact l k hne).1]
  unfold countCells
  congr 2
  ext p
  rw [Finset.mem_filter, Finset.mem_filter]
  refine and_congr_right fun hp => ⟨fun hc => ⟨hc, ?_⟩, And.left⟩
  -- a page holds a written cluster only
  have hblock := hfresh.good_blocks (hsets.sets.owned l k hne).1
  have hwritten := (hstored _ hc).mp ⟨_, hblock, p, hp, rfl⟩
  exact (hcs _ (by simpa using hwritten)).2

/-- The counters after a cluster is stored, updated and updated again. -/
theorem nftlWrites_countersExact_small : ∃ s,
    NftlWrites smallGeometry (openNFTL (initializeFlashMemory smallGeometry smallDraws))
      [1, 1, 1] s ∧
    CountersExact smallGeometry
      (maxCluster smallGeometry (initializeFlashMemory smallGeometry smallDraws).badBlockCnt) s := by
  obtain ⟨s, hrun⟩ : ∃ s, NftlWrites smallGeometry
      (openNFTL (initializeFlashMemory smallGeometry smallDraws)) [1, 1, 1] s :=
    Run.of_foldlM (fun _ _ _ hok => ⟨3, hok⟩)
      (by decide +kernel : (List.foldlM (nftlWriteOneCluster smallGeometry 3)
        (openNFTL (initializeFlashMemory smallGeometry smallDraws)) [1, 1, 1]).isOk = true)
  exact ⟨s, hrun, nftlWrites_countersExact (by unfold admissible; decide +kernel) hrun⟩

end WiscKey.Flash
