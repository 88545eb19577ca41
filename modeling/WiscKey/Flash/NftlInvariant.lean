import WiscKey.Flash.Nftl
import WiscKey.Flash.Placed

/-!
# The invariant of the block sets

Every page that holds a cluster lies in the set of its logical block, at its own offset of
the primary block or below the write position of the replacement block, and no cluster has
two pages. An invalid page of a primary block stands for a cluster that moved on, and the
first free page of a primary block is one behind the last page ever written to it.
-/

namespace WiscKey.Flash

variable (g : Geometry)

/-- The two places where a block set keeps a cluster of its logical block. -/
def InPlace (table : Int → NFTLElement) (c b p : Int) : Prop :=
  let e := table (g.logicalBlock c)
  (b = e.primaryBlock ∧ p = g.logicalPage c) ∨
    (b = e.replacementBlock ∧ p < e.currentFreePageIDinRB)

/-- The blocks of a set: the primary block, and for `true` the replacement block. -/
def NFTLElement.block (e : NFTLElement) : Bool → Int
  | false => e.primaryBlock
  | true => e.replacementBlock

/-- The clusters are in place. The page of a stored cluster is behind the first free page of
the primary block, an invalid page of it stands for a stored cluster, and so does the page
before the first free one. -/
structure PagesInSets (good : Finset Int) (fm : Int → Int → Int) (table : Int → NFTLElement) :
    Prop extends Placed g good fm (InPlace g table) where
  below : ∀ c, 0 ≤ c → Stored g fm c →
    g.logicalPage c < (table (g.logicalBlock c)).currentFreePageIDinPB
  invalid : ∀ c, 0 ≤ c → (table (g.logicalBlock c)).primaryBlock ≠ nftlPointToNull →
    fm (table (g.logicalBlock c)).primaryBlock (g.logicalPage c) = invalidPage → Stored g fm c
  last : ∀ c, 0 ≤ c → (table (g.logicalBlock c)).primaryBlock ≠ nftlPointToNull →
    (table (g.logicalBlock c)).currentFreePageIDinPB = g.logicalPage c + 1 → Stored g fm c

/-- The blocks of the sets are good, taken from the free list and no two the same. -/
structure SetsOwned (good : Finset Int) (free : List Int) (table : Int → NFTLElement) : Prop where
  owned : ∀ l k, (table l).block k ≠ nftlPointToNull →
    (table l).block k ∈ good ∧ (table l).block k ∉ free
  distinct : ∀ l k l' k', (table l).block k = (table l').block k' →
    (table l).block k ≠ nftlPointToNull → l = l' ∧ k = k'
  primary : ∀ l, (table l).replacementBlock ≠ nftlPointToNull →
    (table l).primaryBlock ≠ nftlPointToNull
  frontier : ∀ l, (table l).primaryBlock ≠ nftlPointToNull →
    0 ≤ (table l).currentFreePageIDinPB ∧ (table l).currentFreePageIDinPB ≤ g.maxPage
  position : ∀ l, (table l).replacementBlock ≠ nftlPointToNull →
    0 ≤ (table l).currentFreePageIDinRB ∧ (table l).currentFreePageIDinRB ≤ g.maxPage

/-- The invariant of the layer. Once a set has a block, the reserve is full. -/
structure BlockSets (good : Finset Int) (free : List Int) (s : Nftl) : Prop where
  listed : FreeListed good free s.dev
  pages : PagesInSets g good s.dev.flashMemory s.nftlTable
  sets : SetsOwned g good free s.nftlTable
  erased : ∀ b ∈ free, ∀ p ∈ g.pages, s.dev.flashMemory b p = freePage
  least : ∀ l, (s.nftlTable l).primaryBlock ≠ nftlPointToNull →
    g.leastFreeBlocksInFBL ≤ free.length

variable {g} {good : Finset Int} {free : List Int} {fm : Int → Int → Int}
  {table table' : Int → NFTLElement} {s : Nftl} {c : Int}

theorem ne_nftlNull_of_mem_blocks {b : Int} (hb : b ∈ g.blocks) : b ≠ nftlPointToNull :=
  g.ne_null_of_mem_blocks hb

/-- A fresh device under an empty table satisfies the invariant. -/
theorem Fresh.blockSets {d : Device} (h : Fresh g good free d) : BlockSets g good free (openNFTL d)
    where
  listed := h.listed
  pages := ⟨h.placed, fun _ hc hst => absurd hst (h.not_stored hc), fun _ _ hne => absurd rfl hne,
    fun _ _ hne => absurd rfl hne⟩
  sets := by
    have hnull : ∀ k, NFTLElement.block
        ⟨nftlPointToNull, nftlPointToNull, nftlPointToNull, nftlPointToNull⟩ k = nftlPointToNull := by
      intro k
      cases k <;> rfl
    exact ⟨fun _ k hne => absurd (hnull k) hne, fun _ k _ _ _ hne => absurd (hnull k) hne,
      fun _ hne => absurd rfl hne, fun _ hne => absurd rfl hne, fun _ hne => absurd rfl hne⟩
  erased b hb p _ := h.unmarked b (h.listed.mem_good b hb) p
  least _ hne := absurd rfl hne

section Reading

/-- A stored cluster has a primary block in its set. -/
theorem BlockSets.primary_of_stored (h : BlockSets g good free s) (hc : 0 ≤ c)
    (hst : Stored g s.dev.flashMemory c) :
    (s.nftlTable (g.logicalBlock c)).primaryBlock ≠ nftlPointToNull := by
  obtain ⟨b, hb, p, hp, rfl⟩ := hst
  rcases h.pages.home b hb p hp hc with ⟨hbe, -⟩ | ⟨hbe, -⟩
  · exact hbe ▸ ne_nftlNull_of_mem_blocks hb
  · exact h.sets.primary _ (hbe ▸ ne_nftlNull_of_mem_blocks hb)

/-- The search finds nothing only where no page below holds the cluster. -/
theorem searchReplacementBlock_none {b : Int} {n : Nat} :
    searchReplacementBlock fm b c n = none ↔ ∀ i < n, fm b i ≠ c := by
  induction n with
  | zero => simp [searchReplacementBlock]
  | succ n ih =>
    rw [searchReplacementBlock]
    by_cases heq : fm b n = c
    · rw [if_pos heq]
      exact iff_of_false (by simp) fun hall => hall n (Nat.lt_succ_self n) heq
    · rw [if_neg heq, ih]
      constructor
      · intro hall i hi
        rcases Nat.lt_succ_iff_lt_or_eq.mp hi with hi | rfl
        · exact hall i hi
        · exact heq
      · exact fun hall i hi => hall i (Nat.lt_succ_of_lt hi)

/-- What the search finds holds the cluster. -/
theorem searchReplacementBlock_some {b : Int} {n i : Nat}
    (h : searchReplacementBlock fm b c n = some i) : i < n ∧ fm b i = c := by
  induction n with
  | zero => cases h
  | succ n ih =>
    rw [searchReplacementBlock] at h
    split at h
    · rename_i heq
      obtain rfl : n = i := Option.some.inj h
      exact ⟨Nat.lt_succ_self _, heq⟩
    · obtain ⟨hi, heq⟩ := ih h
      exact ⟨Nat.lt_succ_of_lt hi, heq⟩

/-- The pages below the write position of a replacement block. -/
theorem BlockSets.position_mem (h : BlockSets g good free s) {l : Int} {i : Nat}
    (hr : (s.nftlTable l).replacementBlock ≠ nftlPointToNull)
    (hi : i < (s.nftlTable l).currentFreePageIDinRB.toNat) :
    (s.nftlTable l).replacementBlock ∈ good ∧ (i : Int) ∈ g.pages := by
  obtain ⟨hge, hle⟩ := h.sets.position l hr
  exact ⟨(h.sets.owned l true hr).1, g.mem_pages.mpr ⟨Int.natCast_nonneg i, by omega⟩⟩

/-- A search that fails finds the cluster nowhere in the replacement block. -/
theorem BlockSets.in_primary_of_search_none (h : BlockSets g good free s) (hc : 0 ≤ c)
    (hst : Stored g s.dev.flashMemory c)
    (hnone : searchReplacementBlock s.dev.flashMemory
      (s.nftlTable (g.logicalBlock c)).replacementBlock c
      (s.nftlTable (g.logicalBlock c)).currentFreePageIDinRB.toNat = none ∨
      (s.nftlTable (g.logicalBlock c)).replacementBlock = nftlPointToNull) :
    s.dev.flashMemory (s.nftlTable (g.logicalBlock c)).primaryBlock (g.logicalPage c) = c := by
  obtain ⟨b, hb, p, hp, rfl⟩ := hst
  rcases h.pages.home b hb p hp hc with ⟨hbe, hpe⟩ | ⟨hbe, hpl⟩
  · rw [← hbe, ← hpe]
  · have hp0 := (g.mem_pages.mp hp).1
    rcases hnone with hnone | hnull
    · refine absurd ?_ (searchReplacementBlock_none.mp hnone p.toNat (by omega))
      rw [Int.toNat_of_nonneg hp0, ← hbe]
    · exact absurd (hbe.trans hnull) (ne_nftlNull_of_mem_blocks hb)

/-- `NFTLReadOneCluster` returns true for exactly the stored clusters. -/
theorem BlockSets.read_iff (h : BlockSets g good free s) (hgood : good ⊆ g.blocks) (hc : 0 ≤ c)
    (hl : g.logicalBlock c < g.maxBlock) :
    nftlReadOneCluster g s c = .ok true ↔ Stored g s.dev.flashMemory c := by
  have hl0 := g.logicalBlock_nonneg hc
  unfold nftlReadOneCluster
  simp only
  rw [if_neg (by omega)]
  by_cases hprim : (s.nftlTable (g.logicalBlock c)).primaryBlock = nftlPointToNull
  · rw [if_pos hprim]
    exact iff_of_false (by simp) fun hst => h.primary_of_stored hc hst hprim
  rw [if_neg hprim]
  have hpg := hgood (h.sets.owned (g.logicalBlock c) false hprim).1
  by_cases hrepl : (s.nftlTable (g.logicalBlock c)).replacementBlock = nftlPointToNull
  · rw [if_neg (not_not.mpr hrepl)]
    simp only [Except.ok.injEq, beq_iff_eq]
    constructor
    · exact fun heq => ⟨_, hpg, _, g.logicalPage_mem hc, heq⟩
    · exact fun hst => h.in_primary_of_search_none hc hst (.inr hrepl)
  rw [if_pos hrepl]
  cases hsearch : searchReplacementBlock s.dev.flashMemory
      (s.nftlTable (g.logicalBlock c)).replacementBlock c
      (s.nftlTable (g.logicalBlock c)).currentFreePageIDinRB.toNat with
  | some i =>
    obtain ⟨hi, heq⟩ := searchReplacementBlock_some hsearch
    obtain ⟨hbg, hip⟩ := h.position_mem hrepl hi
    exact iff_of_true rfl ⟨_, hgood hbg, _, hip, heq⟩
  | none =>
    simp only [Except.ok.injEq, beq_iff_eq]
    constructor
    · exact fun heq => ⟨_, hpg, _, g.logicalPage_mem hc, heq⟩
    · exact fun hst => h.in_primary_of_search_none hc hst (.inl hsearch)

end Reading

section Programming

/-- How an entry may change when its cluster goes to page `p` of block `b`: its blocks stay,
its positions do not go back, and the page is in place behind them. -/
structure Advances (g : Geometry) (c b p : Int) (table table' : Int → NFTLElement) : Prop where
  block : ∀ l k, (table' l).block k = (table l).block k
  replaced : ∀ l, (table l).currentFreePageIDinRB ≤ (table' l).currentFreePageIDinRB
  slot : InPlace g table' c b p
  behind : g.logicalPage c < (table' (g.logicalBlock c)).currentFreePageIDinPB
  last : ∀ l, (table' l).currentFreePageIDinPB = (table l).currentFreePageIDinPB ∨
    (l = g.logicalBlock c ∧
      (table l).currentFreePageIDinPB ≤ (table' l).currentFreePageIDinPB ∧
      (table' l).currentFreePageIDinPB = g.logicalPage c + 1)
  position : ∀ l, (table' l).currentFreePageIDinRB = (table l).currentFreePageIDinRB ∨
    (0 ≤ (table' l).currentFreePageIDinRB ∧ (table' l).currentFreePageIDinRB ≤ g.maxPage)

theorem Advances.primaryBlock {b p : Int} (h : Advances g c b p table table') (l : Int) :
    (table' l).primaryBlock = (table l).primaryBlock := h.block l false

theorem Advances.replacementBlock {b p : Int} (h : Advances g c b p table table') (l : Int) :
    (table' l).replacementBlock = (table l).replacementBlock := h.block l true

theorem Advances.inPlace {b p c' b' p' : Int} (h : Advances g c b p table table')
    (hplace : InPlace g table c' b' p') : InPlace g table' c' b' p' := by
  rcases hplace with ⟨hb, hp⟩ | ⟨hb, hp⟩
  · exact .inl ⟨hb.trans (h.primaryBlock _).symm, hp⟩
  · exact .inr ⟨hb.trans (h.replacementBlock _).symm, hp.trans_le (h.replaced _)⟩

variable {fm' : Int → Int → Int} {b p : Int}

/-- The pages after a cluster is dropped and programmed in a page that held none. -/
theorem PagesInSets.program (h : PagesInSets g good fm table) (hgood : good ⊆ g.blocks)
    (hsets : SetsOwned g good free table) (hc : 0 ≤ c) (hdrop : Dropped g c fm fm')
    (hadv : Advances g c b p table table') (hb : b ∈ good) (hp : p ∈ g.pages)
    (hslot : fm b p < 0) : PagesInSets g good (setPage fm' b p c) table' := by
  have hst := fun c' (hc' : 0 ≤ c') => stored_program hdrop (hgood hb) hp hslot hc'
  refine ⟨h.toPlaced.program hgood hc hdrop hb hslot hadv.slot fun _ _ _ hplace =>
    hadv.inPlace hplace, ?_, ?_, ?_⟩
  · intro c' hc' hst'
    rcases (hst c' hc').mp hst' with hold | rfl
    · have hlt := h.below c' hc' hold
      rcases hadv.last (g.logicalBlock c') with heq | ⟨-, hle, -⟩
      · omega
      · omega
    · exact hadv.behind
  · intro c' hc' hprim hinv
    rw [hadv.primaryBlock] at hprim hinv
    rw [hst c' hc']
    have hpg : (table (g.logicalBlock c')).primaryBlock ∈ good := (hsets.owned _ false hprim).1
    have hpage := g.logicalPage_mem hc'
    have hbp : ¬ ((table (g.logicalBlock c')).primaryBlock = b ∧ g.logicalPage c' = p) := by
      rintro ⟨rfl, rfl⟩
      rw [setPage_self] at hinv
      exact absurd (hinv ▸ hc) (by decide)
    rcases hdrop.program_cases (hgood hpg) hpage hbp with ⟨hcc, -⟩ | ⟨-, hkeep⟩
    · have hplace := h.home _ (hgood hpg) _ hpage (hcc ▸ hc)
      rw [hcc] at hplace
      rcases hplace with ⟨hbe, hpe⟩ | ⟨hbe, -⟩
      · obtain ⟨hl, -⟩ := hsets.distinct (g.logicalBlock c') false (g.logicalBlock c) false hbe hprim
        exact .inr (g.eq_of_logical hl hpe)
      · obtain ⟨-, hk⟩ := hsets.distinct (g.logicalBlock c') false (g.logicalBlock c) true hbe hprim
        cases hk
    · rw [hkeep] at hinv
      exact .inl (h.invalid c' hc' hprim hinv)
  · intro c' hc' hprim hlast
    rw [hadv.primaryBlock] at hprim
    rw [hst c' hc']
    rcases hadv.last (g.logicalBlock c') with heq | ⟨hl, -, heq⟩
    · exact .inl (h.last c' hc' hprim (heq ▸ hlast))
    · exact .inr (g.eq_of_logical hl (by omega))

/-- The invariant after a cluster is dropped and programmed in a page that held none. -/
theorem BlockSets.program (h : BlockSets g good free s) (hgood : good ⊆ g.blocks) (hc : 0 ≤ c)
    {s' : Nftl} (hdrop : Dropped g c s.dev.flashMemory fm')
    (hadv : Advances g c b p s.nftlTable s'.nftlTable) (hb : b ∈ good) (hfree : b ∉ free)
    (hp : p ∈ g.pages) (hslot : s.dev.flashMemory b p < 0)
    (hfm : s'.dev.flashMemory = setPage fm' b p c) (hlisted : FreeListed good free s'.dev) :
    BlockSets g good free s' ∧
      ∀ c', 0 ≤ c' → (Stored g s'.dev.flashMemory c' ↔ Stored g s.dev.flashMemory c' ∨ c' = c) := by
  refine ⟨⟨hlisted, ?_, ⟨?_, ?_, ?_, ?_, ?_⟩, ?_, ?_⟩, ?_⟩
  · rw [hfm]
    exact h.pages.program hgood h.sets hc hdrop hadv hb hp hslot
  · intro l k hne
    rw [hadv.block] at hne ⊢
    exact h.sets.owned l k hne
  · intro l k l' k' heq hne
    rw [hadv.block] at heq hne
    rw [hadv.block] at heq
    exact h.sets.distinct l k l' k' heq hne
  · intro l hne
    rw [hadv.replacementBlock] at hne
    rw [hadv.primaryBlock]
    exact h.sets.primary l hne
  · intro l hne
    rw [hadv.primaryBlock] at hne
    obtain ⟨hge, hle⟩ := h.sets.frontier l hne
    obtain ⟨hp0, hpm⟩ := g.mem_pages.mp (g.logicalPage_mem hc)
    rcases hadv.last l with heq | ⟨-, -, heq⟩
    · omega
    · omega
  · intro l hne
    rw [hadv.replacementBlock] at hne
    have hpos := h.sets.position l hne
    rcases hadv.position l with heq | hnew
    · omega
    · exact hnew
  · intro b' hb' p' hp'
    have hold := h.erased b' hb' p' hp'
    have hbp : ¬ (b' = b ∧ p' = p) := fun hbp => hfree (hbp.1 ▸ hb')
    rw [hfm, setPage_of_ne hbp, hdrop.kept b' (hgood (h.listed.mem_good b' hb')) p' hp', hold]
    rw [hold]
    rintro rfl
    exact absurd hc (by decide)
  · intro l hne
    rw [hadv.primaryBlock] at hne
    exact h.least l hne
  · intro c' hc'
    rw [hfm]
    exact stored_program hdrop (hgood hb) hp hslot hc'

end Programming

section Assigning

variable {b l : Int} {e : NFTLElement} {s' : Nftl}

/-- An entry takes block `b` as the block it lacks. -/
inductive Assigned (b : Int) (e : NFTLElement) : NFTLElement → Prop
  | primary (hnull : e.primaryBlock = nftlPointToNull)
      (hrepl : e.replacementBlock = nftlPointToNull) :
      Assigned b e { e with primaryBlock := b, currentFreePageIDinPB := 0 }
  | replacement (hprim : e.primaryBlock ≠ nftlPointToNull)
      (hnull : e.replacementBlock = nftlPointToNull) :
      Assigned b e { e with replacementBlock := b, currentFreePageIDinRB := 0 }

variable {e' : NFTLElement}

/-- Only the block that was lacking is new. -/
theorem Assigned.block (h : Assigned b e e') :
    ∃ k, e'.block k = b ∧ e.block k = nftlPointToNull ∧ ∀ k', k' ≠ k → e'.block k' = e.block k' := by
  cases h with
  | primary hnull hrepl =>
    refine ⟨false, rfl, hnull, fun k' hk => ?_⟩
    cases k' with
    | false => exact absurd rfl hk
    | true => rfl
  | replacement hprim hnull =>
    refine ⟨true, rfl, hnull, fun k' hk => ?_⟩
    cases k' with
    | false => rfl
    | true => exact absurd rfl hk

/-- The places of a set that gets a block are still in place. -/
theorem Assigned.inPlace (h : Assigned b (table l) e') {b' p' : Int} (hb' : b' ∈ g.blocks)
    (hplace : InPlace g table c b' p') : InPlace g (Function.update table l e') c b' p' := by
  by_cases hl : g.logicalBlock c = l
  · subst hl
    have hne := ne_nftlNull_of_mem_blocks hb'
    unfold InPlace at hplace ⊢
    simp only [Function.update_self]
    generalize table (g.logicalBlock c) = e at h hplace
    cases h with
    | primary hnull hrepl =>
      rcases hplace with ⟨hbe, -⟩ | ⟨hbe, -⟩
      · exact absurd (hbe.trans hnull) hne
      · exact absurd (hbe.trans hrepl) hne
    | replacement hprim hnull =>
      rcases hplace with hplace | ⟨hbe, -⟩
      · exact .inl hplace
      · exact absurd (hbe.trans hnull) hne
  · unfold InPlace at hplace ⊢
    rwa [Function.update_of_ne hl]

/-- A block from the head of the free list joins a set that lacks it. -/
theorem BlockSets.assign (h : BlockSets g good (b :: free) s) (hgood : good ⊆ g.blocks)
    (hassigned : Assigned b (s.nftlTable l) e') (hlisted : FreeListed good free s'.dev)
    (hfm : s'.dev.flashMemory = s.dev.flashMemory)
    (htable : s'.nftlTable = Function.update s.nftlTable l e')
    (hleast : g.leastFreeBlocksInFBL ≤ free.length) : BlockSets g good free s' := by
  have hbg : b ∈ good := h.listed.mem_good b List.mem_cons_self
  have hbnull := ne_nftlNull_of_mem_blocks (hgood hbg)
  have hbfree : b ∉ free := (List.nodup_cons.mp h.listed.nodup).1
  -- a block of the new table is new, at one place, or an old one
  have hblock : ∃ k, (e'.block k = b ∧ ∀ l' k', ¬ (l' = l ∧ k' = k) →
      (s'.nftlTable l').block k' = (s.nftlTable l').block k') := by
    obtain ⟨k, hk, -, hother⟩ := hassigned.block
    refine ⟨k, hk, fun l' k' hne => ?_⟩
    rw [htable]
    by_cases hl : l' = l
    · subst l'
      rw [Function.update_self]
      exact hother k' fun hkk => hne ⟨rfl, hkk⟩
    · rw [Function.update_of_ne hl]
  obtain ⟨k, hk, hold⟩ := hblock
  have hnew : (s'.nftlTable l).block k = b := by
    rw [htable, Function.update_self]
    exact hk
  have hne : ∀ l' k', (s.nftlTable l').block k' ≠ nftlPointToNull →
      (s.nftlTable l').block k' ≠ b := fun l' k' hnull heq =>
    (h.sets.owned l' k' hnull).2 (heq ▸ List.mem_cons_self)
  refine ⟨hlisted, ⟨?_, ?_, ?_, ?_⟩, ⟨?_, ?_, ?_, ?_, ?_⟩, ?_, fun _ _ => hleast⟩
  · rw [hfm, htable]
    exact h.pages.toPlaced.mono fun b' hb' p' _ _ hplace => hassigned.inPlace hb' hplace
  · intro c hc hst
    rw [hfm] at hst
    have hlt := h.pages.below c hc hst
    have hprim := h.primary_of_stored hc hst
    rw [htable]
    by_cases hl : g.logicalBlock c = l
    · subst hl
      rw [Function.update_self]
      generalize s.nftlTable (g.logicalBlock c) = e at hassigned hlt hprim
      cases hassigned with
      | primary hnull hrepl => exact absurd hnull hprim
      | replacement _ hnull => exact hlt
    · rwa [Function.update_of_ne hl]
  · intro c hc hprim hinv
    rw [hfm] at hinv ⊢
    by_cases hlk : g.logicalBlock c = l ∧ false = k
    · obtain ⟨rfl, rfl⟩ := hlk
      have hpb : (s'.nftlTable (g.logicalBlock c)).primaryBlock = b := hnew
      rw [hpb, h.erased b List.mem_cons_self _ (g.logicalPage_mem hc)] at hinv
      exact absurd hinv (by decide)
    · have hpb : (s'.nftlTable (g.logicalBlock c)).primaryBlock = _ := hold _ _ hlk
      rw [hpb] at hprim hinv
      exact h.pages.invalid c hc hprim hinv
  · intro c hc hprim hlast
    rw [hfm]
    rw [htable] at hprim hlast
    by_cases hl : g.logicalBlock c = l
    · subst hl
      rw [Function.update_self] at hprim hlast
      have hp0 := (g.mem_pages.mp (g.logicalPage_mem hc)).1
      have hold := h.pages.last c hc
      generalize s.nftlTable (g.logicalBlock c) = e at hassigned hold
      cases hassigned with
      | primary hnull hrepl =>
        simp only at hlast
        omega
      | replacement hprim' hnull => exact hold hprim' hlast
    · rw [Function.update_of_ne hl] at hprim hlast
      exact h.pages.last c hc hprim hlast
  · intro l' k' hnull
    by_cases hlk : l' = l ∧ k' = k
    · obtain ⟨rfl, rfl⟩ := hlk
      rw [hnew]
      exact ⟨hbg, hbfree⟩
    · rw [hold l' k' hlk] at hnull ⊢
      obtain ⟨hg', hf'⟩ := h.sets.owned l' k' hnull
      exact ⟨hg', fun hm => hf' (List.mem_cons_of_mem _ hm)⟩
  · intro l₁ k₁ l₂ k₂ heq hnull
    by_cases h₁ : l₁ = l ∧ k₁ = k
    · obtain ⟨rfl, rfl⟩ := h₁
      by_cases h₂ : l₂ = l₁ ∧ k₂ = k₁
      · exact ⟨h₂.1.symm, h₂.2.symm⟩
      · rw [hnew] at heq
        rw [hold l₂ k₂ h₂] at heq
        exact absurd heq.symm (hne l₂ k₂ (heq ▸ hbnull))
    · rw [hold l₁ k₁ h₁] at heq hnull
      by_cases h₂ : l₂ = l ∧ k₂ = k
      · obtain ⟨rfl, rfl⟩ := h₂
        rw [hnew] at heq
        exact absurd heq (hne l₁ k₁ hnull)
      · rw [hold l₂ k₂ h₂] at heq
        exact h.sets.distinct l₁ k₁ l₂ k₂ heq hnull
  · intro l' hrepl
    rw [htable] at hrepl ⊢
    by_cases hl : l' = l
    · subst l'
      rw [Function.update_self] at hrepl ⊢
      generalize s.nftlTable l = e at hassigned
      cases hassigned with
      | primary _ _ => exact hbnull
      | replacement hprim' _ => exact hprim'
    · rw [Function.update_of_ne hl] at hrepl ⊢
      exact h.sets.primary l' hrepl
  · intro l' hprim
    rw [htable] at hprim ⊢
    by_cases hl : l' = l
    · subst l'
      rw [Function.update_self] at hprim ⊢
      have hfrontier := h.sets.frontier l
      generalize s.nftlTable l = e at hassigned hfrontier
      cases hassigned with
      | primary _ _ => exact ⟨le_rfl, Int.natCast_nonneg _⟩
      | replacement hprim' _ => exact hfrontier hprim'
    · rw [Function.update_of_ne hl] at hprim ⊢
      exact h.sets.frontier l' hprim
  · intro l' hrepl
    rw [htable] at hrepl ⊢
    by_cases hl : l' = l
    · subst l'
      rw [Function.update_self] at hrepl ⊢
      generalize s.nftlTable l = e at hassigned
      cases hassigned with
      | primary _ hnull => exact absurd hnull hrepl
      | replacement _ _ => exact ⟨le_rfl, Int.natCast_nonneg _⟩
    · rw [Function.update_of_ne hl] at hrepl ⊢
      exact h.sets.position l' hrepl
  · rw [hfm]
    exact fun b' hb' => h.erased b' (List.mem_cons_of_mem _ hb')

end Assigning

end WiscKey.Flash
