import WiscKey.Flash.NftlInvariant
import WiscKey.Library.Outcome

/-!
# Merging a block set

The merging loop copies exactly the clusters of its set, each to its own offset of the new
block. A merge returns, keeps every cluster stored and leaves the other sets alone.
-/

namespace WiscKey.Flash

variable {g : Geometry} {good : Finset Int} {free list : List Int} {s : Nftl}
  {fm : Int → Int → Int} {fb l : Int} {moved : Int → Prop} {st : Device × Int}

/-- The device and the first free page in the middle of the merging loop: block `fb` holds
the clusters moved so far and nothing else, and no other block has changed. -/
structure Copied (g : Geometry) (good : Finset Int) (list : List Int) (fm : Int → Int → Int)
    (fb l : Int) (moved : Int → Prop) (st : Device × Int) : Prop where
  listed : FreeListed good list st.1
  other : ∀ b, b ≠ fb → st.1.flashMemory b = fm b
  source : ∀ c, moved c → 0 ≤ c ∧ g.logicalBlock c = l
  holds : ∀ c, moved c → st.1.flashMemory fb (g.logicalPage c) = c
  only : ∀ p ∈ g.pages, st.1.flashMemory fb p = freePage ∨
    ∃ c, moved c ∧ p = g.logicalPage c
  nonneg : 0 ≤ st.2
  le : st.2 ≤ g.maxPage
  behind : ∀ c, moved c → g.logicalPage c < st.2
  last : 0 < st.2 → ∃ c, moved c ∧ g.logicalPage c + 1 = st.2

theorem Copied.congr {moved' : Int → Prop} (h : Copied g good list fm fb l moved st)
    (hiff : ∀ c, moved c ↔ moved' c) : Copied g good list fm fb l moved' st := by
  obtain rfl : moved = moved' := funext fun c => propext (hiff c)
  exact h

/-- A move copies a cluster to its offset of the new block, and leaves any other page. -/
theorem Copied.movePage (h : Copied g good list fm fb l moved st) (hfb : fb ∈ g.blocks)
    {b : Int} (target : Int) {i : Nat} (hb : b ≠ fb)
    (hcontent : fm b i = freePage ∨ fm b i = invalidPage ∨ 0 ≤ fm b i)
    (htarget : 0 ≤ fm b i → target = g.logicalPage (fm b i) ∧ g.logicalBlock (fm b i) = l) :
    Meets (fun _ => False)
      (Copied g good list fm fb l fun c => moved c ∨ (0 ≤ c ∧ fm b i = c))
      (movePage g fb b i target st) := by
  obtain ⟨d, cur⟩ := st
  have hpage : d.flashMemory b i = fm b i := congrFun (h.other b hb) i
  unfold Flash.movePage
  simp only [hpage]
  by_cases hlive : 0 ≤ fm b i
  · obtain ⟨rfl, hl⟩ := htarget hlive
    have hne : fm b i ≠ invalidPage ∧ fm b i ≠ freePage :=
      ⟨fun he => absurd (he ▸ hlive) (by decide), fun he => absurd (he ▸ hlive) (by decide)⟩
    obtain ⟨d₁, hcopy, hfm, hlisted⟩ := @copyPage_ok g good b fb d hfb (g.logicalPage (fm b i)) i
    rw [if_pos hne, hcopy]
    rw [hpage] at hfm
    have hpm := g.logicalPage_mem hlive
    obtain ⟨hp0, hpM⟩ := g.mem_pages.mp hpm
    refine ⟨hlisted _ h.listed, ?_, ?_, ?_, ?_, ?_, ?_, ?_, ?_⟩
    · intro b' hb'
      simp only [hfm]
      rw [setPage_block_of_ne hb']
      exact h.other b' hb'
    · rintro c (hc | ⟨hc, rfl⟩)
      · exact h.source c hc
      · exact ⟨hc, hl⟩
    · intro c hc
      simp only [hfm]
      by_cases hp : g.logicalPage c = g.logicalPage (fm b i)
      · rw [hp, setPage_self]
        rcases hc with hc | ⟨-, rfl⟩
        · exact g.eq_of_logical (hl.trans (h.source c hc).2.symm) hp.symm
        · rfl
      · rw [setPage_of_ne fun he => hp he.2]
        rcases hc with hc | ⟨-, rfl⟩
        · exact h.holds c hc
        · exact absurd rfl hp
    · intro p hp
      simp only [hfm]
      by_cases hpp : p = g.logicalPage (fm b i)
      · exact .inr ⟨fm b i, .inr ⟨hlive, rfl⟩, hpp⟩
      · rw [setPage_of_ne fun he => hpp he.2]
        rcases h.only p hp with hfree | ⟨c, hc, hcp⟩
        · exact .inl hfree
        · exact .inr ⟨c, .inl hc, hcp⟩
    · have hn := h.nonneg
      simp only at hn ⊢
      split <;> omega
    · have hle := h.le
      simp only at hle ⊢
      split <;> omega
    · have hbehind := h.behind
      simp only at hbehind ⊢
      rintro c (hc | ⟨-, rfl⟩)
      · have hlt := hbehind c hc
        split <;> omega
      · split <;> omega
    · have hlast := h.last
      simp only at hlast ⊢
      split
      · exact fun _ => ⟨fm b i, .inr ⟨hlive, rfl⟩, rfl⟩
      · intro hpos
        obtain ⟨c, hc, hcp⟩ := hlast hpos
        exact ⟨c, .inl hc, hcp⟩
  · have hdead : ¬ (fm b i ≠ invalidPage ∧ fm b i ≠ freePage) := by
      rintro ⟨hinv, hfree⟩
      rcases hcontent with hc | hc | hc
      · exact hfree hc
      · exact hinv hc
      · exact hlive hc
    rw [if_neg hdead]
    refine h.congr fun c => ⟨.inl, fun hc => hc.resolve_right ?_⟩
    rintro ⟨hc, rfl⟩
    exact hlive hc

/-- The clusters of the first `n` pages of the two blocks of an entry. -/
def movedBelow (fm : Int → Int → Int) (e : NFTLElement) (n : Nat) (c : Int) : Prop :=
  0 ≤ c ∧ ∃ i : Nat, i < n ∧ (fm e.primaryBlock i = c ∨ fm e.replacementBlock i = c)

theorem movedBelow_succ {e : NFTLElement} {n : Nat} {c : Int} :
    movedBelow fm e (n + 1) c ↔
      (movedBelow fm e n c ∨ (0 ≤ c ∧ fm e.primaryBlock n = c)) ∨
        (0 ≤ c ∧ fm e.replacementBlock n = c) := by
  constructor
  · rintro ⟨hc, i, hi, hpage⟩
    rcases Nat.lt_succ_iff_lt_or_eq.mp hi with hi | rfl
    · exact .inl (.inl ⟨hc, i, hi, hpage⟩)
    · rcases hpage with hpage | hpage
      · exact .inl (.inr ⟨hc, hpage⟩)
      · exact .inr ⟨hc, hpage⟩
  · rintro ((⟨hc, i, hi, hpage⟩ | ⟨hc, hpage⟩) | ⟨hc, hpage⟩)
    · exact ⟨hc, i, Nat.lt_succ_of_lt hi, hpage⟩
    · exact ⟨hc, n, Nat.lt_succ_self n, .inl hpage⟩
    · exact ⟨hc, n, Nat.lt_succ_self n, .inr hpage⟩

/-- The two blocks of the set, as the merging loop needs them. -/
structure MergeSource (g : Geometry) (fm : Int → Int → Int) (fb l : Int) (e : NFTLElement) :
    Prop where
  primary_ne : e.primaryBlock ≠ fb
  replacement_ne : e.replacementBlock ≠ fb
  primary : ∀ p ∈ g.pages, fm e.primaryBlock p = freePage ∨ fm e.primaryBlock p = invalidPage ∨
    (0 ≤ fm e.primaryBlock p ∧ p = g.logicalPage (fm e.primaryBlock p) ∧
      g.logicalBlock (fm e.primaryBlock p) = l)
  replacement : ∀ p ∈ g.pages, fm e.replacementBlock p = freePage ∨
    fm e.replacementBlock p = invalidPage ∨
    (0 ≤ fm e.replacementBlock p ∧ g.logicalBlock (fm e.replacementBlock p) = l)

/-- What the pages of the two blocks hold. -/
theorem MergeSource.content {e : NFTLElement} (h : MergeSource g fm fb l e) {p : Int}
    (hp : p ∈ g.pages) (k : Bool) :
    (fm (e.block k) p = freePage ∨ fm (e.block k) p = invalidPage ∨ 0 ≤ fm (e.block k) p) ∧
      (0 ≤ fm (e.block k) p → g.logicalBlock (fm (e.block k) p) = l) := by
  have hdead : ∀ c : Int, c = freePage ∨ c = invalidPage → ¬ 0 ≤ c := by
    rintro c (rfl | rfl) <;> decide
  cases k with
  | false =>
    rcases h.primary p hp with hc | hc | ⟨hc, -, hl⟩
    · exact ⟨.inl hc, fun hlive => absurd hlive (hdead _ (.inl hc))⟩
    · exact ⟨.inr (.inl hc), fun hlive => absurd hlive (hdead _ (.inr hc))⟩
    · exact ⟨.inr (.inr hc), fun _ => hl⟩
  | true =>
    rcases h.replacement p hp with hc | hc | ⟨hc, hl⟩
    · exact ⟨.inl hc, fun hlive => absurd hlive (hdead _ (.inl hc))⟩
    · exact ⟨.inr (.inl hc), fun hlive => absurd hlive (hdead _ (.inr hc))⟩
    · exact ⟨.inr (.inr hc), fun _ => hl⟩

/-- The first move of a round: page `i` of the primary block. -/
theorem Copied.movePrimary {e : NFTLElement} (h : Copied g good list fm fb l moved st)
    (hsource : MergeSource g fm fb l e) (hfb : fb ∈ g.blocks) {i : Nat} (hi : i < g.maxPage) :
    Meets (fun _ => False)
      (Copied g good list fm fb l fun c => moved c ∨ (0 ≤ c ∧ fm e.primaryBlock i = c))
      (Flash.movePage g fb e.primaryBlock i i st) := by
  have hip : (i : Int) ∈ g.pages := g.mem_pages.mpr ⟨Int.natCast_nonneg i, by exact_mod_cast hi⟩
  refine h.movePage hfb i hsource.primary_ne (hsource.content hip false).1 fun hlive => ?_
  rcases hsource.primary i hip with hc | hc | hc
  · exact absurd (hc ▸ hlive) (by decide)
  · exact absurd (hc ▸ hlive) (by decide)
  · exact hc.2

/-- One round of the merging loop copies the clusters of page `i` of the two blocks. -/
theorem Copied.mergePage {e : NFTLElement} {i : Nat}
    (h : Copied g good list fm fb l (movedBelow fm e i) st) (hsource : MergeSource g fm fb l e)
    (hfb : fb ∈ g.blocks) (hi : i < g.maxPage) :
    Meets (fun _ => False) (Copied g good list fm fb l (movedBelow fm e (i + 1)))
      (Flash.mergePage g e fb st i) := by
  have hip : (i : Int) ∈ g.pages := g.mem_pages.mpr ⟨Int.natCast_nonneg i, by exact_mod_cast hi⟩
  obtain ⟨hcontent, hset⟩ := hsource.content hip true
  unfold Flash.mergePage
  refine (h.movePrimary hsource hfb hi).bind fun st₁ h₁ => ?_
  have hpage : st₁.1.flashMemory e.replacementBlock i = fm e.replacementBlock i :=
    congrFun (h₁.other _ hsource.replacement_ne) i
  simp only [hpage]
  exact (h₁.movePage hfb _ hsource.replacement_ne hcontent fun hlive => ⟨rfl, hset hlive⟩).mono
    fun st₂ h₂ => h₂.congr fun c => movedBelow_succ.symm

/-- Nothing is copied before the first round. -/
theorem Copied.start {e : NFTLElement} {d : Device} (hlisted : FreeListed good list d)
    (hfm : d.flashMemory = fm) (herased : ∀ p ∈ g.pages, fm fb p = freePage) :
    Copied g good list fm fb l (movedBelow fm e 0) (d, 0) := by
  have hnone : ∀ c, ¬ movedBelow fm e 0 c := fun c ⟨_, i, hi, _⟩ => absurd hi (Nat.not_lt_zero i)
  refine ⟨hlisted, fun b _ => by rw [hfm], fun c hc => absurd hc (hnone c),
    fun c hc => absurd hc (hnone c), ?_, le_rfl, Int.natCast_nonneg _,
    fun c hc => absurd hc (hnone c), fun hpos => absurd hpos (lt_irrefl 0)⟩
  intro p hp
  simp only [hfm]
  exact .inl (herased p hp)

/-- The merging loop returns with all clusters of the two blocks copied. -/
theorem Copied.merge {e : NFTLElement} {d : Device} (hsource : MergeSource g fm fb l e)
    (hfb : fb ∈ g.blocks) (hlisted : FreeListed good list d) (hfm : d.flashMemory = fm)
    (herased : ∀ p ∈ g.pages, fm fb p = freePage) :
    Meets (fun _ => False) (Copied g good list fm fb l (movedBelow fm e g.maxPage))
      ((List.range g.maxPage).foldlM (Flash.mergePage g e fb) (d, 0)) :=
  Meets.foldlM_range (fun n => Copied g good list fm fb l (movedBelow fm e n))
    (.start hlisted hfm herased) fun _ hi _ h => h.mergePage hsource hfb hi

/-- What a merge of set `l` into block `fb` leaves. -/
structure MergedSet (g : Geometry) (fb l : Int) (s s' : Nftl) : Prop where
  table : ∃ page, s'.nftlTable = Function.update s.nftlTable l
    ⟨fb, page, nftlPointToNull, nftlPointToNull⟩
  stored : ∀ c, 0 ≤ c → (Stored g s'.dev.flashMemory c ↔ Stored g s.dev.flashMemory c)
  pages : ∀ b, b ≠ fb → b ≠ (s.nftlTable l).primaryBlock → b ≠ (s.nftlTable l).replacementBlock →
    ∀ p ∈ g.pages, s'.dev.flashMemory b p = s.dev.flashMemory b p
  scan : s'.currentScanningBlockSetID = s.currentScanningBlockSetID
  divider : s'.invalidPage2ValidPageDivider = s.invalidPage2ValidPageDivider

section Merge

variable (h : BlockSets g good (fb :: free) s)
  (hrepl : (s.nftlTable l).replacementBlock ≠ nftlPointToNull)

include h hrepl

theorem BlockSets.mergeSource (hgood : good ⊆ g.blocks) :
    MergeSource g s.dev.flashMemory fb l (s.nftlTable l) := by
  have hprim := h.sets.primary l hrepl
  obtain ⟨hpg, hpf⟩ : (s.nftlTable l).primaryBlock ∈ good ∧
      (s.nftlTable l).primaryBlock ∉ fb :: free := h.sets.owned l false hprim
  obtain ⟨hrg, hrf⟩ : (s.nftlTable l).replacementBlock ∈ good ∧
      (s.nftlTable l).replacementBlock ∉ fb :: free := h.sets.owned l true hrepl
  have hne : (s.nftlTable l).primaryBlock ≠ (s.nftlTable l).replacementBlock := by
    intro heq
    have hk := (h.sets.distinct l false l true heq hprim).2
    cases hk
  refine ⟨fun he => hpf (he ▸ List.mem_cons_self), fun he => hrf (he ▸ List.mem_cons_self), ?_, ?_⟩
  · intro p hp
    rcases h.pages.content _ hpg p hp with hc | hc | hc
    · exact .inl hc
    · exact .inr (.inl hc)
    · refine .inr (.inr ⟨hc, ?_⟩)
      rcases h.pages.home _ (hgood hpg) p hp hc with ⟨hb, hpe⟩ | ⟨hb, -⟩
      · exact ⟨hpe, (h.sets.distinct l false _ false hb hprim).1.symm⟩
      · have hk := (h.sets.distinct l false _ true hb hprim).2
        cases hk
  · intro p hp
    rcases h.pages.content _ hrg p hp with hc | hc | hc
    · exact .inl hc
    · exact .inr (.inl hc)
    · refine .inr (.inr ⟨hc, ?_⟩)
      rcases h.pages.home _ (hgood hrg) p hp hc with ⟨hb, -⟩ | ⟨hb, -⟩
      · have hk := (h.sets.distinct l true _ false hb hrepl).2
        cases hk
      · exact (h.sets.distinct l true _ true hb hrepl).1.symm

/-- The clusters the loop moves are those of the set. -/
theorem BlockSets.movedBelow_iff (hgood : good ⊆ g.blocks) (c : Int) :
    movedBelow s.dev.flashMemory (s.nftlTable l) g.maxPage c ↔
      0 ≤ c ∧ g.logicalBlock c = l ∧ Stored g s.dev.flashMemory c := by
  have hprim := h.sets.primary l hrepl
  have hpg : (s.nftlTable l).primaryBlock ∈ good := (h.sets.owned l false hprim).1
  have hrg : (s.nftlTable l).replacementBlock ∈ good := (h.sets.owned l true hrepl).1
  have hsource := h.mergeSource hrepl hgood
  constructor
  · rintro ⟨hc, i, hi, hpage⟩
    have hip : (i : Int) ∈ g.pages := g.mem_pages.mpr ⟨Int.natCast_nonneg i, by exact_mod_cast hi⟩
    rcases hpage with rfl | rfl
    · refine ⟨hc, ?_, _, hgood hpg, i, hip, rfl⟩
      rcases hsource.primary i hip with hm | hm | hm
      · exact absurd (hm ▸ hc) (by decide)
      · exact absurd (hm ▸ hc) (by decide)
      · exact hm.2.2
    · refine ⟨hc, ?_, _, hgood hrg, i, hip, rfl⟩
      rcases hsource.replacement i hip with hm | hm | hm
      · exact absurd (hm ▸ hc) (by decide)
      · exact absurd (hm ▸ hc) (by decide)
      · exact hm.2
  · rintro ⟨hc, hl, b, hb, p, hp, hpage⟩
    obtain ⟨hp0, hpM⟩ := g.mem_pages.mp hp
    have hhome := h.pages.home b hb p hp (hpage ▸ hc)
    rw [hpage] at hhome
    unfold InPlace at hhome
    rw [hl] at hhome
    refine ⟨hc, p.toNat, by omega, ?_⟩
    rw [Int.toNat_of_nonneg hp0, ← hpage]
    rcases hhome with ⟨rfl, -⟩ | ⟨rfl, -⟩
    · exact .inl rfl
    · exact .inr rfl

end Merge

/-- The pages after a merge of set `l` into block `fb`: the clusters of the set are in `fb`,
its two old blocks are erased, and the other blocks are as they were. -/
structure MergedPages (g : Geometry) (fm fm' : Int → Int → Int) (fb l : Int) (e : NFTLElement) :
    Prop where
  old : ∀ b, b = e.primaryBlock ∨ b = e.replacementBlock → ∀ p ∈ g.pages, fm' b p = freePage
  other : ∀ b, b ≠ fb → b ≠ e.primaryBlock → b ≠ e.replacementBlock → ∀ p ∈ g.pages,
    fm' b p = fm b p
  holds : ∀ c, 0 ≤ c → g.logicalBlock c = l → Stored g fm c → fm' fb (g.logicalPage c) = c
  only : ∀ p ∈ g.pages, fm' fb p = freePage ∨
    ∃ c, 0 ≤ c ∧ g.logicalBlock c = l ∧ Stored g fm c ∧ p = g.logicalPage c

variable {fm' : Int → Int → Int} {page : Int}

/-- A merge rebuilds the set: its clusters go to the new block. -/
theorem MergedPages.rebuilt (hm : MergedPages g s.dev.flashMemory fm' fb l (s.nftlTable l))
    (h : BlockSets g good (fb :: free) s) :
    Rebuilt g fb (fun c => 0 ≤ c ∧ g.logicalBlock c = l ∧ Stored g s.dev.flashMemory c)
      s.dev.flashMemory fm' := by
  refine ⟨?_, fun c hc => hm.holds c hc.1 hc.2.1 hc.2.2, ?_, fun c hc => ⟨hc.1, hc.2.2⟩⟩
  · intro b hb p hp hc
    by_cases hbf : b = fb
    · subst b
      rcases hm.only p hp with hfree | ⟨c, hc0, hl, hst, rfl⟩
      · rw [hfree] at hc
        exact absurd hc (by decide)
      · rw [hm.holds c hc0 hl hst]
        exact .inl ⟨⟨hc0, hl, hst⟩, rfl, rfl⟩
    · have hold : b ≠ (s.nftlTable l).primaryBlock ∧ b ≠ (s.nftlTable l).replacementBlock := by
        constructor
        · rintro rfl
          rw [hm.old _ (.inl rfl) p hp] at hc
          exact absurd hc (by decide)
        · rintro rfl
          rw [hm.old _ (.inr rfl) p hp] at hc
          exact absurd hc (by decide)
      have hsame := hm.other b hbf hold.1 hold.2 p hp
      refine .inr ⟨?_, hsame⟩
      rintro ⟨-, rfl, -⟩
      rw [hsame] at hc hold
      rcases h.pages.home b hb p hp hc with ⟨hbe, -⟩ | ⟨hbe, -⟩
      · exact hold.1 hbe
      · exact hold.2 hbe
  · intro b hb p hp hc hmoved
    have hl : g.logicalBlock (s.dev.flashMemory b p) ≠ l := fun hl =>
      hmoved ⟨hc, hl, b, hb, p, hp, rfl⟩
    have hnull := ne_nftlNull_of_mem_blocks hb
    -- a block of set `l` holds no cluster of another set
    have hother : ∀ k, b ≠ (s.nftlTable l).block k := by
      rintro k rfl
      rcases h.pages.home _ hb p hp hc with ⟨hbe, -⟩ | ⟨hbe, -⟩
      · exact hl (h.sets.distinct l k _ false hbe hnull).1.symm
      · exact hl (h.sets.distinct l k _ true hbe hnull).1.symm
    refine hm.other b ?_ (hother false) (hother true) p hp
    rintro rfl
    rw [h.erased b List.mem_cons_self p hp] at hc
    exact absurd hc (by decide)

/-- The pages and the table after a merge still describe each other. -/
theorem MergedPages.inSets (hm : MergedPages g s.dev.flashMemory fm' fb l (s.nftlTable l))
    (h : BlockSets g good (fb :: free) s) (hgood : good ⊆ g.blocks)
    (hrepl : (s.nftlTable l).replacementBlock ≠ nftlPointToNull)
    (hbehind : ∀ c, 0 ≤ c → g.logicalBlock c = l → Stored g s.dev.flashMemory c →
      g.logicalPage c < page)
    (hlast : 0 < page → ∃ c, 0 ≤ c ∧ g.logicalBlock c = l ∧ Stored g s.dev.flashMemory c ∧
      g.logicalPage c + 1 = page) :
    PagesInSets g good fm'
      (Function.update s.nftlTable l ⟨fb, page, nftlPointToNull, nftlPointToNull⟩) := by
  have hfbg := h.listed.mem_good fb List.mem_cons_self
  have hprim := h.sets.primary l hrepl
  have hr := hm.rebuilt h
  have hstored := fun c (hc : 0 ≤ c) => hr.stored_iff (hgood hfbg) hc
  refine ⟨hr.placed h.pages.toPlaced ?_ ?_ ?_ ?_, ?_, ?_, ?_⟩
  · intro b hb p hp
    by_cases hbf : b = fb
    · subst b
      rcases hm.only p hp with hfree | ⟨c, hc, hl, hst, rfl⟩
      · exact .inl hfree
      · rw [hm.holds c hc hl hst]
        exact .inr (.inr hc)
    by_cases hold : b = (s.nftlTable l).primaryBlock ∨ b = (s.nftlTable l).replacementBlock
    · exact .inl (hm.old b hold p hp)
    · rw [not_or] at hold
      rw [hm.other b hbf hold.1 hold.2 p hp]
      exact h.pages.content b hb p hp
  · intro b hb hbad p hp
    rw [hm.other b (fun he => hbad (he ▸ hfbg))
      (fun he => hbad (he ▸ (h.sets.owned l false hprim).1))
      (fun he => hbad (he ▸ (h.sets.owned l true hrepl).1)) p hp]
    exact h.pages.bad_unused b hb hbad p hp
  · rintro c ⟨-, hl, -⟩
    unfold InPlace
    rw [hl, Function.update_self]
    exact .inl ⟨rfl, rfl⟩
  · intro b hb p hp hc hmoved hplace
    have hl : g.logicalBlock (s.dev.flashMemory b p) ≠ l := fun hl =>
      hmoved ⟨hc, hl, b, hb, p, hp, rfl⟩
    unfold InPlace at hplace ⊢
    rwa [Function.update_of_ne hl]
  · intro c hc hst
    rw [hstored c hc] at hst
    by_cases hl : g.logicalBlock c = l
    · rw [hl, Function.update_self]
      exact hbehind c hc hl hst
    · rw [Function.update_of_ne hl]
      exact h.pages.below c hc hst
  · intro c hc hp hinv
    rw [hstored c hc]
    have hpage := g.logicalPage_mem hc
    by_cases hl : g.logicalBlock c = l
    · rw [hl, Function.update_self] at hinv
      simp only at hinv
      rcases hm.only _ hpage with hfree | ⟨c', hc', hl', hst', hp'⟩
      · exact absurd (hfree.symm.trans hinv) (by decide)
      · rw [hp', hm.holds c' hc' hl' hst'] at hinv
        exact absurd (hinv ▸ hc') (by decide)
    · rw [Function.update_of_ne hl] at hp hinv
      have hown : _ ∧ (s.nftlTable (g.logicalBlock c)).primaryBlock ∉ fb :: free :=
        h.sets.owned (g.logicalBlock c) false hp
      have hne : ∀ k, (s.nftlTable (g.logicalBlock c)).primaryBlock ≠ (s.nftlTable l).block k :=
        fun k he => hl (h.sets.distinct (g.logicalBlock c) false l k he hp).1
      rw [hm.other _ (fun he => hown.2 (he ▸ List.mem_cons_self)) (hne false) (hne true) _ hpage]
        at hinv
      exact h.pages.invalid c hc hp hinv
  · intro c hc hp hcur
    rw [hstored c hc]
    by_cases hl : g.logicalBlock c = l
    · rw [hl, Function.update_self] at hcur
      simp only at hcur
      have hp0 := (g.mem_pages.mp (g.logicalPage_mem hc)).1
      obtain ⟨c', hc', hl', hst', hpe⟩ := hlast (by omega)
      obtain rfl : c = c' := g.eq_of_logical (hl.trans hl'.symm) (by omega)
      exact hst'
    · rw [Function.update_of_ne hl] at hp hcur
      exact h.pages.last c hc hp hcur

/-- The blocks of the table after a merge. -/
theorem BlockSets.merge_sets (h : BlockSets g good (fb :: free) s)
    (hrepl : (s.nftlTable l).replacementBlock ≠ nftlPointToNull) (hnull : fb ≠ nftlPointToNull)
    (hpage : 0 ≤ page ∧ page ≤ g.maxPage) :
    SetsOwned g good
      (free ++ [(s.nftlTable l).primaryBlock] ++ [(s.nftlTable l).replacementBlock])
      (Function.update s.nftlTable l ⟨fb, page, nftlPointToNull, nftlPointToNull⟩) := by
  have hprim := h.sets.primary l hrepl
  have hfbg := h.listed.mem_good fb List.mem_cons_self
  have hfbn := (List.nodup_cons.mp h.listed.nodup).1
  have hfb : ∀ l' k, (s.nftlTable l').block k ≠ nftlPointToNull → (s.nftlTable l').block k ≠ fb :=
    fun l' k hne he => (h.sets.owned l' k hne).2 (he ▸ List.mem_cons_self)
  -- the only block of the new entry is `fb`
  have hentry : ∀ k, NFTLElement.block ⟨fb, page, nftlPointToNull, nftlPointToNull⟩ k ≠
      nftlPointToNull → k = false := by
    intro k hne
    cases k with
    | false => rfl
    | true => exact absurd rfl hne
  refine ⟨?_, ?_, ?_, ?_, ?_⟩
  · intro l' k hne
    by_cases hl : l' = l
    · subst l'
      rw [Function.update_self] at hne ⊢
      obtain rfl := hentry k hne
      refine ⟨hfbg, ?_⟩
      simp only [NFTLElement.block, List.mem_append, List.mem_singleton, not_or]
      exact ⟨⟨hfbn, (hfb l false hprim).symm⟩, (hfb l true hrepl).symm⟩
    · rw [Function.update_of_ne hl] at hne ⊢
      obtain ⟨hg, hf⟩ := h.sets.owned l' k hne
      refine ⟨hg, ?_⟩
      simp only [List.mem_append, List.mem_singleton, not_or]
      exact ⟨⟨fun hm => hf (List.mem_cons_of_mem _ hm),
        fun he => hl (h.sets.distinct l' k l false he hne).1⟩,
        fun he => hl (h.sets.distinct l' k l true he hne).1⟩
  · intro l₁ k₁ l₂ k₂ heq hne
    by_cases h₁ : l₁ = l
    · subst l₁
      rw [Function.update_self] at heq hne
      obtain rfl := hentry k₁ hne
      by_cases h₂ : l₂ = l
      · subst l₂
        rw [Function.update_self] at heq
        exact ⟨rfl, (hentry k₂ (heq ▸ hne)).symm⟩
      · rw [Function.update_of_ne h₂] at heq
        exact absurd heq.symm (hfb l₂ k₂ (heq ▸ hnull))
    · rw [Function.update_of_ne h₁] at heq hne
      by_cases h₂ : l₂ = l
      · subst l₂
        rw [Function.update_self] at heq
        obtain rfl := hentry k₂ (heq ▸ hne)
        exact absurd heq (hfb l₁ k₁ hne)
      · rw [Function.update_of_ne h₂] at heq
        exact h.sets.distinct l₁ k₁ l₂ k₂ heq hne
  · intro l' hne
    by_cases hl : l' = l
    · subst l'
      rw [Function.update_self] at hne
      exact absurd rfl hne
    · rw [Function.update_of_ne hl] at hne ⊢
      exact h.sets.primary l' hne
  · intro l' hne
    by_cases hl : l' = l
    · subst l'
      rw [Function.update_self]
      exact hpage
    · rw [Function.update_of_ne hl] at hne ⊢
      exact h.sets.frontier l' hne
  · intro l' hne
    by_cases hl : l' = l
    · subst l'
      rw [Function.update_self] at hne
      exact absurd rfl hne
    · rw [Function.update_of_ne hl] at hne ⊢
      exact h.sets.position l' hne

/-- The two blocks of a set go back on the free list, and the head of the list leaves it. -/
theorem BlockSets.exchange (h : BlockSets g good (fb :: free) s) (hgood : good ⊆ g.blocks)
    (hrepl : (s.nftlTable l).replacementBlock ≠ nftlPointToNull) :
    ∃ d, getFreeBlock g false (putFreeBlock g (putFreeBlock g s.dev
        (s.nftlTable l).primaryBlock) (s.nftlTable l).replacementBlock) = .ok (fb, d) ∧
      FreeListed good
        (free ++ [(s.nftlTable l).primaryBlock] ++ [(s.nftlTable l).replacementBlock]) d ∧
      d.flashMemory = s.dev.flashMemory ∧
      d.validPageCnt = Function.update s.dev.validPageCnt fb 0 ∧
      d.invalidPageCnt = Function.update s.dev.invalidPageCnt fb 0 := by
  have hprim := h.sets.primary l hrepl
  obtain ⟨hpg, hpf⟩ : (s.nftlTable l).primaryBlock ∈ good ∧
      (s.nftlTable l).primaryBlock ∉ fb :: free := h.sets.owned l false hprim
  obtain ⟨hrg, hrf⟩ : (s.nftlTable l).replacementBlock ∈ good ∧
      (s.nftlTable l).replacementBlock ∉ fb :: free := h.sets.owned l true hrepl
  have hne : (s.nftlTable l).replacementBlock ≠ (s.nftlTable l).primaryBlock := by
    intro heq
    have hk := (h.sets.distinct l true l false heq hrepl).2
    cases hk
  have hput := putFreeBlock_listed (g := g) h.listed hpg hpf (List.cons_ne_nil _ _)
  have hnot : (s.nftlTable l).replacementBlock ∉ fb :: free ++ [(s.nftlTable l).primaryBlock] := by
    rw [List.mem_append, List.mem_singleton, not_or]
    exact ⟨hrf, hne⟩
  have hput₂ : FreeListed good
      (fb :: (free ++ [(s.nftlTable l).primaryBlock] ++ [(s.nftlTable l).replacementBlock])) _ :=
    putFreeBlock_listed (g := g) hput hrg hnot (by simp)
  have hleast := h.least l hprim
  simp only [List.length_cons] at hleast
  exact getFreeBlock_above hput₂ hgood (by
    simp only [List.length_append, List.length_singleton]
    omega)

/-- The two blocks after their erase. -/
theorem eraseBlocks_page {d : Device} {b₁ b₂ b p : Int} (hp : p ∈ g.pages) :
    (eraseBlock g (eraseBlock g d b₁) b₂).flashMemory b p =
      if b = b₂ then freePage else if b = b₁ then freePage else d.flashMemory b p := by
  rw [eraseBlock_page hp, eraseBlock_page hp]

/-- A merge takes a block from the list, copies the clusters of the set to it and erases the
two old blocks. -/
theorem mergeBlocks_eq {d : Device} {st : Device × Int}
    (hget : getFreeBlock g false (putFreeBlock g (putFreeBlock g s.dev
      (s.nftlTable l).primaryBlock) (s.nftlTable l).replacementBlock) = .ok (fb, d))
    (hfold : (List.range g.maxPage).foldlM (mergePage g (s.nftlTable l) fb) (d, 0) = .ok st) :
    nftlMergeBlocks g s l = .ok { s with
      dev := eraseBlock g (eraseBlock g st.1 (s.nftlTable l).primaryBlock)
        (s.nftlTable l).replacementBlock
      nftlTable := Function.update s.nftlTable l
        ⟨fb, st.2, nftlPointToNull, nftlPointToNull⟩ } := by
  unfold nftlMergeBlocks
  simp only
  rw [hget]
  simp only [bind, Except.bind]
  rw [hfold]

/-- `NFTLMergeBlocks` returns, keeps the invariant and every cluster. -/
theorem BlockSets.merge (h : BlockSets g good (fb :: free) s) (hgood : good ⊆ g.blocks)
    (hrepl : (s.nftlTable l).replacementBlock ≠ nftlPointToNull) :
    ∃ s', nftlMergeBlocks g s l = .ok s' ∧ MergedSet g fb l s s' ∧
      BlockSets g good
        (free ++ [(s.nftlTable l).primaryBlock] ++ [(s.nftlTable l).replacementBlock]) s' := by
  have hprim := h.sets.primary l hrepl
  have hfbk := hgood (h.listed.mem_good fb List.mem_cons_self)
  have hsource := h.mergeSource hrepl hgood
  have hmoved := h.movedBelow_iff hrepl hgood
  obtain ⟨d, hget, hlisted, hfm, -, -⟩ := h.exchange hgood hrepl
  obtain ⟨⟨d', page⟩, hfold, hcopied⟩ := (Copied.merge hsource hfbk hlisted hfm
    (h.erased fb List.mem_cons_self)).exists_ok
  have hok := mergeBlocks_eq hget hfold
  generalize hdev : eraseBlock g (eraseBlock g d' (s.nftlTable l).primaryBlock)
    (s.nftlTable l).replacementBlock = d'' at hok
  have hpages : ∀ b, ∀ p ∈ g.pages, d''.flashMemory b p =
      if b = (s.nftlTable l).replacementBlock then freePage
      else if b = (s.nftlTable l).primaryBlock then freePage else d'.flashMemory b p := by
    intro b p hp
    rw [← hdev, eraseBlocks_page hp]
  have hm : MergedPages g s.dev.flashMemory d''.flashMemory fb l (s.nftlTable l) := by
    refine ⟨?_, ?_, ?_, ?_⟩
    · rintro b (rfl | rfl) p hp
      · rw [hpages _ p hp]
        simp
      · rw [hpages _ p hp, if_pos rfl]
    · intro b hbf hbp hbr p hp
      rw [hpages b p hp, if_neg hbr, if_neg hbp]
      exact congrFun (hcopied.other b hbf) p
    · intro c hc hl hst
      rw [hpages _ _ (g.logicalPage_mem hc), if_neg hsource.replacement_ne.symm,
        if_neg hsource.primary_ne.symm]
      exact hcopied.holds c ((hmoved c).mpr ⟨hc, hl, hst⟩)
    · intro p hp
      rw [hpages _ p hp, if_neg hsource.replacement_ne.symm, if_neg hsource.primary_ne.symm]
      refine (hcopied.only p hp).imp_right ?_
      rintro ⟨c, hc, rfl⟩
      obtain ⟨hc0, hl, hst⟩ := (hmoved c).mp hc
      exact ⟨c, hc0, hl, hst, rfl⟩
  refine ⟨_, hok, ⟨⟨page, rfl⟩, fun c hc => (hm.rebuilt h).stored_iff hfbk hc, hm.other, rfl, rfl⟩,
    ?_, ?_, ?_, ?_, ?_⟩
  · rw [← hdev]
    exact hcopied.listed.congr rfl rfl rfl rfl
  · refine hm.inSets h hgood hrepl ?_ ?_
    · exact fun c hc hl hst => hcopied.behind c ((hmoved c).mpr ⟨hc, hl, hst⟩)
    · intro hpos
      obtain ⟨c, hc, hcp⟩ := hcopied.last hpos
      obtain ⟨hc0, hl, hst⟩ := (hmoved c).mp hc
      exact ⟨c, hc0, hl, hst, hcp⟩
  · exact h.merge_sets hrepl (ne_nftlNull_of_mem_blocks hfbk) ⟨hcopied.nonneg, hcopied.le⟩
  · intro b hb p hp
    simp only [List.mem_append, List.mem_singleton] at hb
    by_cases hold : b = (s.nftlTable l).primaryBlock ∨ b = (s.nftlTable l).replacementBlock
    · exact hm.old b hold p hp
    · have hfree : b ∈ free := by
        rcases hb with (hb | hb) | hb
        · exact hb
        · exact absurd (.inl hb) hold
        · exact absurd (.inr hb) hold
      rw [not_or] at hold
      have hbf : b ≠ fb := fun he => (List.nodup_cons.mp h.listed.nodup).1 (he ▸ hfree)
      rw [hm.other b hbf hold.1 hold.2 p hp]
      exact h.erased b (List.mem_cons_of_mem _ hfree) p hp
  · intro _ _
    have hleast := h.least l hprim
    simp only [List.length_cons, List.length_append, List.length_nil] at hleast ⊢
    omega

end WiscKey.Flash
