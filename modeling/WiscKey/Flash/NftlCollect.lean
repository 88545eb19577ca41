import WiscKey.Flash.NftlCounters
import Mathlib.Data.Finset.Prod
import Mathlib.Data.Fintype.Card
import Mathlib.Data.Nat.Find

/-!
# The collections of the block-level layer

`NFTLGarbageCollection` compares the counters of both blocks of a set before it asks whether
the set has them. A collection is safe when the scan meets a set to merge before it meets
one that lacks a block; there always is one that does, so that otherwise the scan reads the
counters through the null block number. In a run without such a scan one collection is
enough for a write, and the divider stays 1.
-/

namespace WiscKey.Flash

variable (g : Geometry)

section Accesses

/-- The comparison of the two counters of a block. -/
def wasted (s : Nftl) (b : Int) : Bool :=
  (s.dev.validPageCnt b).tdiv s.invalidPage2ValidPageDivider < s.dev.invalidPageCnt b

/-- The set that the collector is scanning. -/
def scannedSet (s : Nftl) : NFTLElement := s.nftlTable s.currentScanningBlockSetID

/-- The block numbers that index `InvalidPageCnt` and `ValidPageCnt` in the collector's test.
The `||` looks at the replacement block only where the primary block is not wasted. -/
def testAccesses (s : Nftl) : List Int :=
  let e := scannedSet s
  if wasted s e.primaryBlock then [e.primaryBlock] else [e.primaryBlock, e.replacementBlock]

/-- The block numbers that index the counters in the scan over the next `n` sets. -/
def scanAccesses (notToReclaimBlockSet : Int) : Nat → Nftl → List Int
  | 0, _ => []
  | n + 1, s =>
    let s := { s with
      currentScanningBlockSetID := (s.currentScanningBlockSetID + 1).tmod g.maxBlock }
    if s.invalidPage2ValidPageDivider = 0 then [(scannedSet s).primaryBlock]
    else testAccesses s ++
      if isVictimSet s notToReclaimBlockSet then [] else scanAccesses notToReclaimBlockSet n s

/-- The collections after a step, if it returns. -/
def collectsAfter (step : Except Fault Nftl) (next : Nftl → List Nftl) : List Nftl :=
  match step with
  | .ok s => next s
  | .error _ => []

/-- The states in which the loop around `GetFreeBlock` calls `NFTLGarbageCollection`. -/
def allocateCollects (logicalBlock : Int) : Nat → Nftl → List Nftl
  | 0, _ => []
  | fuel + 1, s =>
    match getFreeBlock g false s.dev with
    | .error _ => []
    | .ok (freeBlock, dev) =>
      let s := { s with dev }
      if freeBlock = -1 then
        s :: collectsAfter (nftlGarbageCollection g s logicalBlock)
          (allocateCollects logicalBlock fuel)
      else []

/-- The states in which the first step of a write calls it. -/
def primaryCollects (fuel : Nat) (s : Nftl) (logicalBlock : Int) : List Nftl :=
  if (s.nftlTable logicalBlock).primaryBlock = nftlPointToNull then
    allocateCollects g logicalBlock fuel s
  else []

/-- The states in which the loop `while(1)` calls it. -/
def replacementCollects (logicalBlock : Int) : Nat → Nftl → List Nftl
  | 0, _ => []
  | fuel + 1, s =>
    (if (s.nftlTable logicalBlock).replacementBlock = nftlPointToNull then
      allocateCollects g logicalBlock fuel s else []) ++
    collectsAfter (allocateReplacementBlock g fuel s logicalBlock) fun s =>
      if (s.nftlTable logicalBlock).currentFreePageIDinRB = g.maxPage then
        collectsAfter (nftlMergeBlocks g s logicalBlock) (replacementCollects logicalBlock fuel)
      else []

/-- The states in which `NFTLWriteOneCluster` calls `NFTLGarbageCollection`. -/
def writeCollects (fuel : Nat) (s : Nftl) (clusterID : Int) : List Nftl :=
  let logicalBlock := g.logicalBlock clusterID
  if logicalBlock < 0 ∨ g.maxBlock ≤ logicalBlock then []
  else
    primaryCollects g fuel s logicalBlock ++
    collectsAfter (ensurePrimaryBlock g fuel s logicalBlock) fun s =>
      if fitsPrimaryBlock g s clusterID then [] else replacementCollects g logicalBlock fuel s

end Accesses

/-- A write whose collections are safe and make progress. -/
structure SafeWrite (s : Nftl) (c : Int) : Prop where
  /-- No scan indexes a counter with `NFTL_POINT_TO_NULL`. -/
  index : ∀ fuel, ∀ t ∈ writeCollects g fuel s c,
    nftlPointToNull ∉ scanAccesses g (g.logicalBlock c) g.maxBlock t
  /-- `InvalidPage2ValidPageDivider` is not 0, neither in a collection nor after the write. -/
  divider : ∀ fuel, ∀ t ∈ writeCollects g fuel s c, t.invalidPage2ValidPageDivider ≠ 0
  divider_after : ∀ s', NftlWriteReturns g s c s' → s'.invalidPage2ValidPageDivider ≠ 0
  /-- A collection has a set to merge, other than the one that is written. -/
  mergeable : ∀ fuel, ∀ t ∈ writeCollects g fuel s c, ∃ k ∈ g.blocks,
    isVictimSet { t with currentScanningBlockSetID := k } (g.logicalBlock c) = true
  /-- The loops end. -/
  ends : ∃ fuel, nftlWriteOneCluster g fuel s c ≠ .error .outOfFuel

/-- The state in which the scan from `s` tests its set number `j`. -/
def scanned (s : Nftl) (j : Nat) : Nftl :=
  { s with currentScanningBlockSetID := (s.currentScanningBlockSetID + 1 + j) % g.maxBlock }

/-- A set with both blocks. -/
def HasBoth (e : NFTLElement) : Prop :=
  e.primaryBlock ≠ nftlPointToNull ∧ e.replacementBlock ≠ nftlPointToNull

/-- The scan meets a set to merge before a set that lacks a block. -/
def FindsVictimFirst (s : Nftl) (l : Int) : Prop :=
  ∃ j < g.maxBlock, isVictimSet (scanned g s j) l = true ∧
    ∀ i < j, HasBoth (scannedSet (scanned g s i))

/-- The write needs a block: its set has no primary block, or it cannot take the cluster and
there is no replacement block. -/
def NeedsBlock (s : Nftl) (c : Int) : Prop :=
  let e := s.nftlTable (g.logicalBlock c)
  g.logicalBlock c < g.maxBlock ∧ (e.primaryBlock = nftlPointToNull ∨
    (fitsPrimaryBlock g s c = false ∧ e.replacementBlock = nftlPointToNull))

/-- A write that needs a block at the reserve has a scan that meets a set to merge first. -/
def Clean (s : Nftl) (c : Int) : Prop :=
  NeedsBlock g s c → s.dev.blocksInFreeBlockList ≤ g.leastFreeBlocksInFBL →
    FindsVictimFirst g s (g.logicalBlock c)

variable {g} {good : Finset Int} {free : List Int} {s s' : Nftl} {c l : Int}

section Scan

/-- The scan is at a set, or before the first one, and the divider has its first value. -/
structure Scanning (g : Geometry) (s : Nftl) : Prop where
  ge : -1 ≤ s.currentScanningBlockSetID
  lt : s.currentScanningBlockSetID < g.maxBlock
  divider : s.invalidPage2ValidPageDivider = 1

theorem Scanning.congr (h : Scanning g s)
    (hscan : s'.currentScanningBlockSetID = s.currentScanningBlockSetID)
    (hdivider : s'.invalidPage2ValidPageDivider = s.invalidPage2ValidPageDivider) :
    Scanning g s' := ⟨hscan ▸ h.ge, hscan ▸ h.lt, hdivider ▸ h.divider⟩

theorem Scanning.divider_ne (h : Scanning g s) : s.invalidPage2ValidPageDivider ≠ 0 := by
  rw [h.divider]
  decide

theorem scanned_mem (s : Nftl) (j : Nat) :
    (scanned g s j).currentScanningBlockSetID ∈ g.blocks := by
  have hpos := g.maxBlock_pos
  exact g.mem_blocks.mpr ⟨Int.emod_nonneg _ (by omega), Int.emod_lt_of_pos _ (by omega)⟩

theorem Scanning.scanned (h : Scanning g s) (j : Nat) : Scanning g (scanned g s j) := by
  obtain ⟨hge, hlt⟩ := g.mem_blocks.mp (scanned_mem (g := g) s j)
  exact ⟨by omega, hlt, h.divider⟩

theorem scanned_succ (s : Nftl) (j : Nat) :
    scanned g (scanned g s 0) j = scanned g s (j + 1) := by
  unfold Flash.scanned
  simp only
  congr 1
  rw [Int.add_assoc, Int.emod_add_emod]
  congr 1
  push_cast
  omega

/-- The scan advances to the next set. -/
theorem Scanning.advance (h : Scanning g s) :
    { s with currentScanningBlockSetID := (s.currentScanningBlockSetID + 1).tmod g.maxBlock } =
      Flash.scanned g s 0 := by
  have hge := h.ge
  unfold Flash.scanned
  rw [Int.tmod_eq_emod_of_nonneg (by omega)]
  simp

theorem Scanning.findVictimSet_succ (h : Scanning g s) (n : Nat) :
    findVictimSet g l (n + 1) s =
      if isVictimSet (Flash.scanned g s 0) l then .ok (true, Flash.scanned g s 0)
      else findVictimSet g l n (Flash.scanned g s 0) := by
  rw [findVictimSet]
  simp only [h.advance]
  rw [if_neg h.divider_ne]

theorem Scanning.scanAccesses_succ (h : Scanning g s) (n : Nat) :
    scanAccesses g l (n + 1) s = testAccesses (Flash.scanned g s 0) ++
      if isVictimSet (Flash.scanned g s 0) l then []
      else scanAccesses g l n (Flash.scanned g s 0) := by
  rw [scanAccesses]
  simp only [h.advance]
  rw [if_neg h.divider_ne]

/-- A set to merge has both blocks. -/
theorem hasBoth_of_isVictimSet (hv : isVictimSet s l = true) : HasBoth (scannedSet s) := by
  simp only [isVictimSet, Bool.and_eq_true, bne_iff_ne] at hv
  exact ⟨hv.1.1.2, hv.1.2⟩

/-- A primary block without a replacement block has no invalid page. -/
theorem BlockSets.invalid_zero (h : BlockSets g good free s) (hcount : Counted g s)
    (hl : 0 ≤ l) (hprim : (s.nftlTable l).primaryBlock ≠ nftlPointToNull)
    (hrepl : (s.nftlTable l).replacementBlock = nftlPointToNull) :
    s.dev.invalidPageCnt (s.nftlTable l).primaryBlock = 0 := by
  have hinvalid := (hcount.exact l false hprim).2
  simp only [NFTLElement.block] at hinvalid
  rw [hinvalid, Int.natCast_eq_zero, countCells_eq_zero]
  intro p hp hpage
  -- an invalid page stands for a cluster of the replacement block
  obtain ⟨c, hc, rfl, rfl⟩ := g.exists_cluster hl hp
  obtain ⟨b, hb, q, hq, hst⟩ := h.pages.invalid c hc hprim hpage
  have hhome := h.pages.home b hb q hq (hst ▸ hc)
  rw [hst] at hhome
  rcases hhome with ⟨rfl, rfl⟩ | ⟨rfl, -⟩
  · rw [hst] at hpage
    exact absurd (hpage ▸ hc) (by decide)
  · exact ne_nftlNull_of_mem_blocks hb hrepl

/-- The test of a set indexes with the null block number exactly when the set lacks a block. -/
theorem BlockSets.null_mem_testAccesses (h : BlockSets g good free s) (hcount : Counted g s)
    (hscan : Scanning g s) (hl : 0 ≤ s.currentScanningBlockSetID) :
    nftlPointToNull ∈ testAccesses s ↔ ¬ HasBoth (scannedSet s) := by
  unfold testAccesses HasBoth
  simp only
  by_cases hprim : (scannedSet s).primaryBlock = nftlPointToNull
  · refine iff_of_true ?_ fun hboth => hboth.1 hprim
    rw [hprim]
    split <;> exact List.mem_cons_self
  by_cases hrepl : (scannedSet s).replacementBlock = nftlPointToNull
  · have hnot : wasted s (scannedSet s).primaryBlock = false := by
      have hzero := h.invalid_zero hcount hl hprim hrepl
      have hvalid := (hcount.exact _ false hprim).1
      simp only [NFTLElement.block] at hvalid
      unfold wasted
      rw [decide_eq_false_iff_not, hscan.divider, Int.tdiv_one]
      change ¬ s.dev.validPageCnt (s.nftlTable s.currentScanningBlockSetID).primaryBlock <
        s.dev.invalidPageCnt (s.nftlTable s.currentScanningBlockSetID).primaryBlock
      rw [hzero, hvalid]
      exact not_lt.mpr (Int.natCast_nonneg _)
    rw [hnot, hrepl]
    simp
  · refine iff_of_false ?_ fun hnot => hnot ⟨hprim, hrepl⟩
    split <;> simp [Ne.symm hprim, Ne.symm hrepl]

/-- The scan that meets a set to merge first stops there, and never indexes with the null
block number. -/
theorem Scanning.stops (hscan : Scanning g s) (h : BlockSets g good free s)
    (hcount : Counted g s) {n : Nat}
    (hfirst : ∃ j < n, isVictimSet (Flash.scanned g s j) l = true ∧
      ∀ i < j, HasBoth (scannedSet (Flash.scanned g s i))) :
    (∃ k ∈ g.blocks, findVictimSet g l n s =
        .ok (true, { s with currentScanningBlockSetID := k }) ∧
      isVictimSet { s with currentScanningBlockSetID := k } l = true) ∧
    nftlPointToNull ∉ scanAccesses g l n s := by
  induction n generalizing s with
  | zero => exact absurd hfirst (by simp)
  | succ n ih =>
    obtain ⟨j, hj, hv, hbefore⟩ := hfirst
    have h₀ : BlockSets g good free (Flash.scanned g s 0) := h.rescan rfl rfl
    have hcount₀ : Counted g (Flash.scanned g s 0) := hcount.congr rfl rfl rfl rfl
    have htest := h₀.null_mem_testAccesses hcount₀ (hscan.scanned 0)
      (g.mem_blocks.mp (scanned_mem s 0)).1
    rw [hscan.findVictimSet_succ, hscan.scanAccesses_succ]
    by_cases hv₀ : isVictimSet (Flash.scanned g s 0) l = true
    · rw [if_pos hv₀, if_pos hv₀, List.append_nil, htest, not_not]
      exact ⟨⟨_, scanned_mem s 0, rfl, hv₀⟩, hasBoth_of_isVictimSet hv₀⟩
    · rw [if_neg hv₀, if_neg hv₀, List.mem_append, htest, not_or, not_not]
      -- the set tested is not the one met first, and what is left of the scan starts at it
      cases j with
      | zero => exact absurd hv hv₀
      | succ j =>
        obtain ⟨hstop, hrest⟩ := ih (hscan.scanned 0) h₀ hcount₀ ⟨j, Nat.lt_of_succ_lt_succ hj,
          by rwa [scanned_succ], fun i hi => by
            rw [scanned_succ]
            exact hbefore (i + 1) (Nat.succ_lt_succ hi)⟩
        exact ⟨hstop, hbefore 0 (Nat.succ_pos j), hrest⟩

/-- The scan that meets a set without a block first indexes with the null block number. -/
theorem Scanning.strays (hscan : Scanning g s) (h : BlockSets g good free s)
    (hcount : Counted g s) {n : Nat}
    (hfirst : ∃ j < n, ¬ HasBoth (scannedSet (Flash.scanned g s j)) ∧
      ∀ i < j, isVictimSet (Flash.scanned g s i) l = false) :
    nftlPointToNull ∈ scanAccesses g l n s := by
  induction n generalizing s with
  | zero => exact absurd hfirst (by simp)
  | succ n ih =>
    obtain ⟨j, hj, hlacks, hbefore⟩ := hfirst
    have h₀ : BlockSets g good free (Flash.scanned g s 0) := h.rescan rfl rfl
    have hcount₀ : Counted g (Flash.scanned g s 0) := hcount.congr rfl rfl rfl rfl
    rw [hscan.scanAccesses_succ, List.mem_append,
      h₀.null_mem_testAccesses hcount₀ (hscan.scanned 0) (g.mem_blocks.mp (scanned_mem s 0)).1]
    cases j with
    | zero => exact .inl hlacks
    | succ j =>
      rw [if_neg (by simp [hbefore 0 (Nat.succ_pos j)])]
      exact .inr (ih (hscan.scanned 0) h₀ hcount₀ ⟨j, Nat.lt_of_succ_lt_succ hj,
        by rwa [scanned_succ], fun i hi => by
          rw [scanned_succ]
          exact hbefore (i + 1) (Nat.succ_lt_succ hi)⟩)

/-- There are not blocks enough for every set to have both. -/
theorem SetsOwned.exists_lacking {table : Int → NFTLElement} (h : SetsOwned g good free table)
    (hgood : good ⊆ g.blocks) : ∃ k ∈ g.blocks, ¬ HasBoth (table k) := by
  by_contra hnone
  have hall : ∀ k ∈ g.blocks, HasBoth (table k) := fun k hk => by
    by_contra hlacks
    exact hnone ⟨k, hk, hlacks⟩
  have hne : ∀ k ∈ g.blocks, ∀ i, (table k).block i ≠ nftlPointToNull := by
    intro k hk i
    cases i with
    | false => exact (hall k hk).1
    | true => exact (hall k hk).2
  have hcard := Finset.card_le_card_of_injOn (s := g.blocks ×ˢ Finset.univ) (t := g.blocks)
    (fun ki : Int × Bool => (table ki.1).block ki.2)
    (fun ki hki => hgood (h.owned ki.1 ki.2 (hne ki.1 (Finset.mem_product.mp hki).1 ki.2)).1)
    (by
      rintro ⟨k, i⟩ hki ⟨k', i'⟩ _ heq
      obtain ⟨rfl, rfl⟩ := h.distinct k i k' i' heq (hne k (Finset.mem_product.mp hki).1 i)
      rfl)
  rw [Finset.card_product, g.card_blocks, Finset.card_univ, Fintype.card_bool] at hcard
  have hpos := g.maxBlock_pos
  omega

/-- A round of the scan meets every set. -/
theorem exists_scanned (s : Nftl) {k : Int} (hk : k ∈ g.blocks) :
    ∃ j < g.maxBlock, scannedSet (scanned g s j) = s.nftlTable k := by
  obtain ⟨hk0, hkm⟩ := g.mem_blocks.mp hk
  have hge := Int.emod_nonneg (k - (s.currentScanningBlockSetID + 1))
    (by omega : (g.maxBlock : Int) ≠ 0)
  have hlt := Int.emod_lt_of_pos (k - (s.currentScanningBlockSetID + 1))
    (by omega : (0 : Int) < g.maxBlock)
  refine ⟨((k - (s.currentScanningBlockSetID + 1)) % g.maxBlock).toNat, by omega, ?_⟩
  unfold scannedSet scanned
  simp only
  rw [Int.toNat_of_nonneg hge, Int.add_emod_emod, Int.add_comm, Int.sub_add_cancel,
    Int.emod_eq_of_lt hk0 hkm]

/-- A round of the scan that does not meet a set to merge first indexes with the null block
number. -/
theorem Scanning.strays_of_not (hscan : Scanning g s) (h : BlockSets g good free s)
    (hcount : Counted g s) (hgood : good ⊆ g.blocks) (hnot : ¬ FindsVictimFirst g s l) :
    nftlPointToNull ∈ scanAccesses g l g.maxBlock s := by
  classical
  obtain ⟨k, hk, hlacks⟩ := h.sets.exists_lacking hgood
  have hex : ∃ j, j < g.maxBlock ∧ ¬ HasBoth (scannedSet (Flash.scanned g s j)) := by
    obtain ⟨j, hj, heq⟩ := exists_scanned s hk
    exact ⟨j, hj, heq ▸ hlacks⟩
  obtain ⟨hj, hfirst⟩ := Nat.find_spec hex
  have hbefore : ∀ i < Nat.find hex, HasBoth (scannedSet (Flash.scanned g s i)) := fun i hi => by
    by_contra hboth
    exact Nat.find_min hex hi ⟨hi.trans hj, hboth⟩
  refine hscan.strays h hcount ⟨Nat.find hex, hj, hfirst, fun i hi => ?_⟩
  by_contra hv
  exact hnot ⟨i, hi.trans hj, by simpa using hv, fun i' hi' => hbefore i' (hi'.trans hi)⟩

end Scan

section Progress

/-- A loop ran out of rounds, and had fewer than `n`. -/
def starved (n fuel : Nat) (e : Fault) : Prop := e = .outOfFuel ∧ fuel < n

theorem starved.mono {n n' fuel : Nat} (hle : n ≤ n') {e : Fault} (h : starved n fuel e) :
    starved n' fuel e := ⟨h.1, h.2.trans_le hle⟩

theorem starved.succ {n fuel : Nat} {e : Fault} (h : starved n fuel e) :
    starved (n + 1) (fuel + 1) e := ⟨h.1, Nat.succ_lt_succ h.2⟩

@[simp] theorem mem_collectsAfter {step : Except Fault Nftl} {next : Nftl → List Nftl} {t : Nftl} :
    t ∈ collectsAfter step next ↔ ∃ s', step = .ok s' ∧ t ∈ next s' := by
  cases step with
  | ok s => simp [collectsAfter]
  | error e => simp [collectsAfter]

/-- A collection whose scan meets a set to merge first gains a block. -/
theorem Scanning.collect (hscan : Scanning g s) (h : BlockSets g good free s)
    (hcount : Counted g s) (hgood : good ⊆ g.blocks) (hfirst : FindsVictimFirst g s l) :
    ∃ s' free', nftlGarbageCollection g s l = .ok s' ∧ BlockSets g good free' s' ∧
      g.leastFreeBlocksInFBL < free'.length ∧ Scanning g s' := by
  obtain ⟨⟨k, hk, hfind, hv⟩, -⟩ := hscan.stops h hcount hfirst
  obtain ⟨hprim, hrepl⟩ := hasBoth_of_isVictimSet hv
  have h₁ : BlockSets g good free { s with currentScanningBlockSetID := k } := h.rescan rfl rfl
  have hleast := h₁.least k hprim
  obtain ⟨fb, rest, rfl⟩ := h₁.exists_free hprim
  obtain ⟨s₂, hok, hm, h₂⟩ := h₁.merge hgood hrepl
  obtain ⟨hk0, hkm⟩ := g.mem_blocks.mp hk
  have hscan₁ : Scanning g { s with currentScanningBlockSetID := k } :=
    ⟨by simp only; omega, hkm, hscan.divider⟩
  refine ⟨s₂, _, ?_, h₂, ?_, hscan₁.congr hm.scan hm.divider⟩
  · unfold nftlGarbageCollection
    rw [hfind]
    exact hok
  · simp only [List.length_cons, List.length_append, List.length_nil] at hleast ⊢
    omega

/-- Above the reserve an allocation needs no collection. -/
theorem Scanning.allocate_above (hscan : Scanning g s) (h : BlockSets g good free s)
    (hgood : good ⊆ g.blocks) (hlt : g.leastFreeBlocksInFBL < free.length) (fuel : Nat) :
    Meets (starved 1 fuel) (fun r => Scanning g r.2) (nftlAllocate g l fuel s) ∧
      allocateCollects g l fuel s = [] := by
  cases fuel with
  | zero => exact ⟨⟨rfl, Nat.zero_lt_one⟩, rfl⟩
  | succ fuel =>
    obtain ⟨b, rest, rfl⟩ := List.exists_cons_of_length_pos (Nat.zero_lt_of_lt hlt)
    obtain ⟨d', hget, -⟩ := getFreeBlock_above h.listed hgood (Nat.le_of_lt_succ hlt)
    have hb : b ≠ -1 :=
      ne_nftlNull_of_mem_blocks (hgood (h.listed.mem_good b List.mem_cons_self))
    rw [nftlAllocate, allocateCollects, hget, ok_bind]
    simp only
    rw [if_neg hb, if_neg hb]
    exact ⟨hscan.congr rfl rfl, rfl⟩

/-- An allocation collects at most once, at the reserve. -/
theorem Scanning.allocate (hscan : Scanning g s) (h : BlockSets g good free s)
    (hcount : Counted g s) (hgood : good ⊆ g.blocks)
    (hclean : s.dev.blocksInFreeBlockList ≤ g.leastFreeBlocksInFBL → FindsVictimFirst g s l)
    (fuel : Nat) :
    Meets (starved 2 fuel) (fun r => Scanning g r.2) (nftlAllocate g l fuel s) ∧
      ∀ t ∈ allocateCollects g l fuel s,
        t = s ∧ s.dev.blocksInFreeBlockList ≤ g.leastFreeBlocksInFBL := by
  rcases Nat.lt_or_ge g.leastFreeBlocksInFBL free.length with hlt | hle
  · obtain ⟨hmeets, hnone⟩ := hscan.allocate_above (l := l) h hgood hlt fuel
    refine ⟨hmeets.allow fun e he => he.mono (by decide), ?_⟩
    rw [hnone]
    simp
  · have hreserve : s.dev.blocksInFreeBlockList ≤ g.leastFreeBlocksInFBL := by
      rw [h.listed.count]
      exact_mod_cast hle
    cases fuel with
    | zero => exact ⟨⟨rfl, Nat.zero_lt_two⟩, by simp [allocateCollects]⟩
    | succ fuel =>
      obtain ⟨s₁, free₁, hok, h₁, hlt₁, hscan₁⟩ := hscan.collect h hcount hgood (hclean hreserve)
      obtain ⟨hmeets, hnone⟩ := hscan₁.allocate_above (l := l) h₁ hgood hlt₁ fuel
      rw [nftlAllocate, allocateCollects, getFreeBlock_reserve h.listed hle, ok_bind]
      simp only [if_true, hok, collectsAfter, ok_bind, hnone]
      refine ⟨hmeets.allow fun e he => he.succ, fun t ht => ?_⟩
      exact ⟨List.mem_singleton.mp ht, hreserve⟩

/-- The first step of a write collects at most once, for the lack of a primary block. -/
theorem Scanning.ensurePrimaryBlock (hscan : Scanning g s) (h : BlockSets g good free s)
    (hcount : Counted g s) (hgood : good ⊆ g.blocks)
    (hclean : (s.nftlTable l).primaryBlock = nftlPointToNull →
      s.dev.blocksInFreeBlockList ≤ g.leastFreeBlocksInFBL → FindsVictimFirst g s l)
    (fuel : Nat) :
    Meets (starved 2 fuel) (Scanning g) (ensurePrimaryBlock g fuel s l) ∧
      ∀ t ∈ primaryCollects g fuel s l, t = s ∧
        (s.nftlTable l).primaryBlock = nftlPointToNull ∧
        s.dev.blocksInFreeBlockList ≤ g.leastFreeBlocksInFBL := by
  unfold Flash.ensurePrimaryBlock primaryCollects
  by_cases hnull : (s.nftlTable l).primaryBlock = nftlPointToNull
  · rw [if_pos hnull, if_pos hnull]
    obtain ⟨hmeets, hcollects⟩ := hscan.allocate h hcount hgood (hclean hnull) fuel
    refine ⟨hmeets.bind fun r hr => hr.congr rfl rfl, fun t ht => ?_⟩
    obtain ⟨heq, hreserve⟩ := hcollects t ht
    exact ⟨heq, hnull, hreserve⟩
  · rw [if_neg hnull, if_neg hnull]
    exact ⟨hscan, by simp⟩

/-- Without a replacement block the loop `while(1)` allocates one and ends. -/
theorem ensureReplacementPage_of_null (hnull : (s.nftlTable l).replacementBlock = nftlPointToNull)
    (fuel : Nat) :
    ensureReplacementPage g l (fuel + 1) s = allocateReplacementBlock g fuel s l ∧
      replacementCollects g l (fuel + 1) s = allocateCollects g l fuel s := by
  have hpos := g.maxPage_pos
  rw [Flash.ensureReplacementPage, replacementCollects, if_pos hnull]
  unfold allocateReplacementBlock
  rw [if_pos hnull]
  cases nftlAllocate g l fuel s with
  | error e => exact ⟨rfl, by simp [collectsAfter]; rfl⟩
  | ok r =>
    simp only [ok_bind, collectsAfter, Function.update_self]
    rw [if_neg (by omega), if_neg (by omega), List.append_nil]
    exact ⟨rfl, rfl⟩

/-- It collects at most once. -/
theorem Scanning.ensureReplacementPage_of_null (hscan : Scanning g s)
    (h : BlockSets g good free s) (hcount : Counted g s) (hgood : good ⊆ g.blocks)
    (hnull : (s.nftlTable l).replacementBlock = nftlPointToNull)
    (hclean : s.dev.blocksInFreeBlockList ≤ g.leastFreeBlocksInFBL → FindsVictimFirst g s l)
    (fuel : Nat) :
    Meets (starved 3 fuel) (Scanning g) (ensureReplacementPage g l fuel s) ∧
      ∀ t ∈ replacementCollects g l fuel s,
        t = s ∧ s.dev.blocksInFreeBlockList ≤ g.leastFreeBlocksInFBL := by
  cases fuel with
  | zero => exact ⟨⟨rfl, by decide⟩, by simp [replacementCollects]⟩
  | succ fuel =>
    obtain ⟨hloop, hcollects⟩ := Flash.ensureReplacementPage_of_null (g := g) hnull fuel
    obtain ⟨hmeets, hat⟩ := hscan.allocate h hcount hgood hclean fuel
    rw [hloop, hcollects]
    refine ⟨?_, hat⟩
    unfold allocateReplacementBlock
    rw [if_pos hnull]
    exact (hmeets.allow fun e he => he.succ).bind fun r hr => hr.congr rfl rfl

/-- The loop `while(1)` collects at most once, for the lack of a replacement block: the merge
of a full one gains a block. -/
theorem Scanning.ensureReplacementPage (hscan : Scanning g s) (h : BlockSets g good free s)
    (hcount : Counted g s) (hgood : good ⊆ g.blocks)
    (hprim : (s.nftlTable l).primaryBlock ≠ nftlPointToNull)
    (hclean : (s.nftlTable l).replacementBlock = nftlPointToNull →
      s.dev.blocksInFreeBlockList ≤ g.leastFreeBlocksInFBL → FindsVictimFirst g s l)
    (fuel : Nat) :
    Meets (starved 4 fuel) (Scanning g) (ensureReplacementPage g l fuel s) ∧
      ∀ t ∈ replacementCollects g l fuel s, t = s ∧
        (s.nftlTable l).replacementBlock = nftlPointToNull ∧
        s.dev.blocksInFreeBlockList ≤ g.leastFreeBlocksInFBL := by
  by_cases hnull : (s.nftlTable l).replacementBlock = nftlPointToNull
  · obtain ⟨hmeets, hat⟩ :=
      hscan.ensureReplacementPage_of_null h hcount hgood hnull (hclean hnull) fuel
    refine ⟨hmeets.allow fun e he => he.mono (by decide), fun t ht => ?_⟩
    obtain ⟨heq, hreserve⟩ := hat t ht
    exact ⟨heq, hnull, hreserve⟩
  cases fuel with
  | zero => exact ⟨⟨rfl, by decide⟩, by simp [replacementCollects]⟩
  | succ fuel =>
    have hkeep : allocateReplacementBlock g fuel s l = .ok s := by
      unfold allocateReplacementBlock
      rw [if_neg hnull]
    have hpos := h.sets.position l hnull
    rw [Flash.ensureReplacementPage, replacementCollects, hkeep, if_neg hnull, ok_bind]
    simp only [collectsAfter, List.nil_append]
    by_cases hfull : g.maxPage ≤ (s.nftlTable l).currentFreePageIDinRB
    · rw [if_pos hfull, if_neg (by omega), if_pos (by omega)]
      have hleast := h.least l hprim
      obtain ⟨fb, rest, rfl⟩ := h.exists_free hprim
      obtain ⟨s₂, hok, hm, h₂⟩ := h.merge hgood hnull
      have hnull₂ : (s₂.nftlTable l).replacementBlock = nftlPointToNull := by
        obtain ⟨page, htable⟩ := hm.table
        rw [htable, Function.update_self]
      have habove : ¬ s₂.dev.blocksInFreeBlockList ≤ g.leastFreeBlocksInFBL := by
        rw [h₂.listed.count]
        simp only [List.length_cons, List.length_append, List.length_nil] at hleast ⊢
        omega
      obtain ⟨hmeets, hat⟩ := (hscan.congr hm.scan hm.divider).ensureReplacementPage_of_null h₂
        (hcount.merge h hgood hnull hok) hgood hnull₂ (fun hle => absurd hle habove) fuel
      rw [hok, ok_bind]
      exact ⟨hmeets.allow fun e he => he.succ, fun t ht => absurd (hat t ht).2 habove⟩
    · rw [if_neg hfull, if_neg (by omega)]
      exact ⟨hscan, by simp⟩

/-- A new primary block takes any cluster of its set. -/
theorem BlockSets.ensurePrimaryBlock_fits (h : BlockSets g good free s) (hgood : good ⊆ g.blocks)
    (hc : 0 ≤ c) (hnull : (s.nftlTable (g.logicalBlock c)).primaryBlock = nftlPointToNull)
    (fuel : Nat) (s₁ : Nftl)
    (hok : Flash.ensurePrimaryBlock g fuel s (g.logicalBlock c) = .ok s₁) :
    fitsPrimaryBlock g s₁ c = true := by
  obtain ⟨⟨free', h'⟩, hprim, -⟩ := (h.ensurePrimaryBlock hgood).of_ok hok
  rw [h'.fitsPrimaryBlock_iff hgood hc hprim]
  unfold Flash.ensurePrimaryBlock at hok
  rw [if_pos hnull] at hok
  cases halloc : nftlAllocate g (g.logicalBlock c) fuel s with
  | error e =>
    rw [halloc] at hok
    cases hok
  | ok r =>
    rw [halloc] at hok
    obtain rfl := Except.ok.inj hok
    simp only [Function.update_self]
    exact (g.mem_pages.mp (g.logicalPage_mem hc)).1

/-- CASE 2 to CASE 4 do not touch the scan. -/
theorem Scanning.storeUpdate (hscan : Scanning g s) {k : UpdateCase}
    (hok : storeUpdate g s c k = .ok s') : Scanning g s' := by
  cases k with
  | inPrimary =>
    obtain rfl := Except.ok.inj hok
    exact hscan.congr rfl rfl
  | inReplacement =>
    simp only [Flash.storeUpdate] at hok
    split at hok
    · cases hok
    · obtain rfl := Except.ok.inj hok
      exact hscan.congr rfl rfl
  | outOfOrder =>
    obtain rfl := Except.ok.inj hok
    exact hscan.congr rfl rfl

/-- A clean write collects at most once, in the state it starts from. -/
theorem Scanning.write (hscan : Scanning g s) (h : BlockSets g good free s)
    (hcount : Counted g s) (hgood : good ⊆ g.blocks) (hc : 0 ≤ c)
    (hl : g.logicalBlock c < g.maxBlock) (hclean : Clean g s c) (fuel : Nat) :
    Meets (starved 4 fuel) (Scanning g) (nftlWriteOneCluster g fuel s c) ∧
      ∀ t ∈ writeCollects g fuel s c, t = s ∧ NeedsBlock g s c ∧
        s.dev.blocksInFreeBlockList ≤ g.leastFreeBlocksInFBL := by
  have hl0 := g.logicalBlock_nonneg hc
  unfold nftlWriteOneCluster writeCollects
  simp only
  rw [if_neg (by omega), if_neg (by omega)]
  obtain ⟨hmeets, hat⟩ := hscan.ensurePrimaryBlock (l := g.logicalBlock c) h hcount hgood
    (fun hnull => hclean ⟨hl, .inl hnull⟩) fuel
  by_cases hnull : (s.nftlTable (g.logicalBlock c)).primaryBlock = nftlPointToNull
  · have hfits := h.ensurePrimaryBlock_fits hgood hc hnull fuel
    constructor
    · cases hfirst : Flash.ensurePrimaryBlock g fuel s (g.logicalBlock c) with
      | error e => exact (hmeets.of_error hfirst).mono (by decide)
      | ok s₁ =>
        rw [ok_bind, if_pos (hfits s₁ hfirst)]
        exact (hmeets.of_ok hfirst).congr rfl rfl
    · intro t ht
      rw [List.mem_append, mem_collectsAfter] at ht
      rcases ht with ht | ⟨s₁, hfirst, ht⟩
      · obtain ⟨heq, -, hreserve⟩ := hat t ht
        exact ⟨heq, ⟨hl, .inl hnull⟩, hreserve⟩
      · rw [if_pos (hfits s₁ hfirst)] at ht
        cases ht
  · have hkeep : Flash.ensurePrimaryBlock g fuel s (g.logicalBlock c) = .ok s := by
      unfold Flash.ensurePrimaryBlock
      rw [if_neg hnull]
    have hnone : primaryCollects g fuel s (g.logicalBlock c) = [] := if_neg hnull
    rw [hkeep, hnone, ok_bind, List.nil_append]
    simp only [collectsAfter]
    by_cases hfits : fitsPrimaryBlock g s c = true
    · rw [if_pos hfits, if_pos hfits]
      exact ⟨hscan.congr rfl rfl, by simp⟩
    · rw [if_neg hfits, if_neg hfits]
      have hfits' : fitsPrimaryBlock g s c = false := by simpa using hfits
      obtain ⟨hpage, hat'⟩ := hscan.ensureReplacementPage h hcount hgood hnull
        (fun hrepl => hclean ⟨hl, .inr ⟨hfits', hrepl⟩⟩) fuel
      refine ⟨?_, fun t ht => ?_⟩
      · rw [h.fitsPrimaryBlock_iff hgood hc hnull, not_le] at hfits
        refine (hpage.and (h.ensureReplacementPage hgood hc hnull hfits)).bind ?_
        rintro s₂ ⟨hscan₂, ⟨free₂, h₂⟩, hready₂, -⟩
        obtain ⟨k, hcase⟩ := h₂.updateCase_isSome hgood hc hready₂
        obtain ⟨s', hok, -, -⟩ := h₂.storeUpdate hgood hc hready₂ hcase
        simp only [hcase, hok]
        exact hscan₂.storeUpdate hok
      · obtain ⟨heq, hrepl, hreserve⟩ := hat' t ht
        exact ⟨heq, ⟨hl, .inr ⟨hfits', hrepl⟩⟩, hreserve⟩

end Progress

section Runs

/-- What holds between clean writes. -/
structure Collectable (g : Geometry) (good : Finset Int) (s : Nftl) : Prop where
  sets : ∃ free, BlockSets g good free s
  counted : Counted g s
  scanning : Scanning g s

theorem Fresh.collectable {d : Device} (h : Fresh g good free d) :
    Collectable g good (openNFTL d) := by
  have hpos := g.maxBlock_pos
  refine ⟨⟨free, h.blockSets⟩, ⟨fun l k hne => ?_, fun l hne => absurd rfl hne⟩, ⟨?_, ?_, rfl⟩⟩
  · cases k with
    | false => exact absurd rfl hne
    | true => exact absurd rfl hne
  · exact le_rfl
  · exact Int.negSucc_lt_zero 0 |>.trans_le (Int.natCast_nonneg _)

/-- A clean write keeps the invariant. -/
theorem Collectable.write (h : Collectable g good s) (hgood : good ⊆ g.blocks) (hc : 0 ≤ c)
    (hclean : Clean g s c) (hret : NftlWriteReturns g s c s') : Collectable g good s' := by
  obtain ⟨⟨free, hsets⟩, hcount, hscan⟩ := h
  have hl := hret.logicalBlock_lt
  obtain ⟨fuel, hok⟩ := hret
  exact ⟨((hsets.write hgood hc fuel).of_ok hok).1, (hcount.write hsets hgood hc fuel).of_ok hok,
    (hscan.write hsets hcount hgood hc hl hclean fuel).1.of_ok hok⟩

/-- A write to no set of the table makes no collection. -/
theorem safeWrite_of_le (hl : g.maxBlock ≤ g.logicalBlock c) : SafeWrite g s c := by
  have hnone : ∀ fuel, writeCollects g fuel s c = [] := fun fuel => if_pos (.inr hl)
  have hwrite : ∀ fuel, nftlWriteOneCluster g fuel s c = .error .badIndex := fun fuel =>
    if_pos (.inr hl)
  refine ⟨?_, ?_, ?_, ?_, 0, ?_⟩
  · intro fuel t ht
    rw [hnone] at ht
    cases ht
  · intro fuel t ht
    rw [hnone] at ht
    cases ht
  · rintro s' ⟨fuel, hok⟩
    rw [hwrite] at hok
    cases hok
  · intro fuel t ht
    rw [hnone] at ht
    cases ht
  · rw [hwrite]
    exact fun heq => nomatch heq

/-- A clean write is safe. -/
theorem Collectable.safeWrite (h : Collectable g good s) (hgood : good ⊆ g.blocks) (hc : 0 ≤ c)
    (hclean : Clean g s c) : SafeWrite g s c := by
  rcases Int.lt_or_le (g.logicalBlock c) g.maxBlock with hl | hl
  swap
  · exact safeWrite_of_le hl
  obtain ⟨⟨free, hsets⟩, hcount, hscan⟩ := h
  have hwrite := hscan.write hsets hcount hgood hc hl hclean
  have hfirst : ∀ fuel, ∀ t ∈ writeCollects g fuel s c,
      t = s ∧ FindsVictimFirst g s (g.logicalBlock c) := fun fuel t ht => by
    obtain ⟨heq, hneeds, hreserve⟩ := (hwrite fuel).2 t ht
    exact ⟨heq, hclean hneeds hreserve⟩
  refine ⟨?_, ?_, ?_, ?_, 4, ?_⟩
  · intro fuel t ht
    obtain ⟨rfl, hvictim⟩ := hfirst fuel t ht
    exact (hscan.stops hsets hcount hvictim).2
  · intro fuel t ht
    obtain ⟨rfl, -⟩ := hfirst fuel t ht
    exact hscan.divider_ne
  · rintro s' ⟨fuel, hok⟩
    exact ((hwrite fuel).1.of_ok hok).divider_ne
  · intro fuel t ht
    obtain ⟨rfl, j, -, hv, -⟩ := hfirst fuel t ht
    exact ⟨_, scanned_mem t j, hv⟩
  · intro hstarved
    exact absurd ((hwrite 4).1.of_error hstarved).2 (by decide)

/-- A write that needs a block at the reserve calls the collector in its first state. -/
theorem BlockSets.mem_writeCollects (h : BlockSets g good free s) (hc : 0 ≤ c)
    (hneeds : NeedsBlock g s c)
    (hreserve : s.dev.blocksInFreeBlockList ≤ g.leastFreeBlocksInFBL) :
    s ∈ writeCollects g 2 s c := by
  have hl0 := g.logicalBlock_nonneg hc
  obtain ⟨hl, hlacks⟩ := hneeds
  have hle : free.length ≤ g.leastFreeBlocksInFBL := by
    rw [h.listed.count] at hreserve
    exact_mod_cast hreserve
  have hallocate : ∀ fuel l, s ∈ allocateCollects g l (fuel + 1) s := by
    intro fuel l
    rw [allocateCollects, getFreeBlock_reserve h.listed hle]
    simp
  unfold writeCollects
  simp only
  rw [if_neg (by omega), List.mem_append]
  by_cases hnull : (s.nftlTable (g.logicalBlock c)).primaryBlock = nftlPointToNull
  · rw [primaryCollects, if_pos hnull]
    exact .inl (hallocate 1 _)
  · obtain ⟨hfits, hrepl⟩ := hlacks.resolve_left hnull
    refine .inr (mem_collectsAfter.mpr ⟨s, if_neg hnull, ?_⟩)
    rw [hfits, replacementCollects, if_pos hrepl]
    exact List.mem_append_left _ (hallocate 0 _)

/-- Between clean writes a write is safe exactly when it is clean. -/
theorem Collectable.safeWrite_iff (h : Collectable g good s) (hgood : good ⊆ g.blocks)
    (hc : 0 ≤ c) : SafeWrite g s c ↔ Clean g s c := by
  refine ⟨fun hsafe hneeds hreserve => ?_, h.safeWrite hgood hc⟩
  obtain ⟨⟨free, hsets⟩, hcount, hscan⟩ := h
  by_contra hnot
  exact hsafe.index 2 s (hsets.mem_writeCollects hc hneeds hreserve)
    (hscan.strays_of_not hsets hcount hgood hnot)

/-- The writes of a sequence, from the empty table, are safe exactly when all are clean. -/
theorem nftlWrites_safe_iff {draws : Draws} {cs : List Int}
    (hcs : ∀ c ∈ cs, admissible g draws c) :
    Throughout (NftlWriteReturns g) (SafeWrite g) (openNFTL (initializeFlashMemory g draws)) cs ↔
      Throughout (NftlWriteReturns g) (Clean g) (openNFTL (initializeFlashMemory g draws)) cs := by
  obtain ⟨free, hfresh⟩ := initializeFlashMemory_fresh g draws
  have hgood := hfresh.good_blocks
  exact Throughout.congr (Collectable g _) (admissible g draws)
    (fun s c s' h hc hclean hret => h.write hgood hc.1 hclean hret)
    (fun s c h hc => h.safeWrite_iff hgood hc.1) hfresh.collectable hcs

/-- Two updates of the first set, then an update of the second one at the reserve. -/
theorem nftlWrites_safe_iff_small :
    Throughout (NftlWriteReturns smallGeometry) (SafeWrite smallGeometry)
        (openNFTL (initializeFlashMemory smallGeometry smallDraws)) [0, 1, 0, 1, 2, 2] ↔
      Throughout (NftlWriteReturns smallGeometry) (Clean smallGeometry)
        (openNFTL (initializeFlashMemory smallGeometry smallDraws)) [0, 1, 0, 1, 2, 2] :=
  nftlWrites_safe_iff (by unfold admissible; decide +kernel)

/-- Three sets take the blocks above the reserve. The update of the first one then scans the
sets, none of which has a replacement block. -/
theorem nftlWrites_unsafe : (∀ c ∈ [0, 2, 4, 0], admissible smallGeometry smallDraws c) ∧
    ¬ Throughout (NftlWriteReturns smallGeometry) (SafeWrite smallGeometry)
      (openNFTL (initializeFlashMemory smallGeometry smallDraws)) [0, 2, 4, 0] := by
  refine ⟨by unfold admissible; decide +kernel, fun hsafe => ?_⟩
  have hall : (do
      let s ← List.foldlM (nftlWriteOneCluster smallGeometry 3)
        (openNFTL (initializeFlashMemory smallGeometry smallDraws)) [0, 2, 4]
      Except.ok ((writeCollects smallGeometry 2 s 0).any fun t =>
        nftlPointToNull ∈ scanAccesses smallGeometry 0 smallGeometry.maxBlock t) :
      Except Fault Bool) = .ok true := by decide +kernel
  cases hrun : List.foldlM (nftlWriteOneCluster smallGeometry 3)
      (openNFTL (initializeFlashMemory smallGeometry smallDraws)) [0, 2, 4] with
  | error e =>
    rw [hrun] at hall
    cases hall
  | ok s =>
    rw [hrun] at hall
    have hrun' : NftlWrites smallGeometry
        (openNFTL (initializeFlashMemory smallGeometry smallDraws)) [0, 2, 4] s :=
      Run.of_foldlM_ok (fun _ _ _ hok => ⟨3, hok⟩) hrun
    obtain ⟨t, ht, hnull⟩ := List.any_eq_true.mp (Except.ok.inj hall)
    have hlast : SafeWrite smallGeometry s 0 := @Throughout.of_run _ _ _ _ _ _ [0, 2, 4] _ _ hsafe hrun'
    exact hlast.index 2 t ht (of_decide_eq_true hnull)

end Runs

end WiscKey.Flash
