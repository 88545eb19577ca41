import WiscKey.Flash.FtlSpace

/-!
# When a write returns

With room in the full blocks, the collector finds a victim once its divider exceeds every
page count, and each block it erases either comes back or makes the current block emptier.
Without room it erases blocks without gaining one and then doubles its divider for ever.
-/

namespace WiscKey.Flash

variable {g : Geometry} {good : Finset Int} {clusters : Int} {free : List Int} {s s' : Ftl}
  {c : Int}

/-- The divider is a small power of two: it never comes near the end of an `int`. -/
def SmallDivider (g : Geometry) (d : Int) : Prop := (∃ k : Nat, d = 2 ^ k) ∧ d < 2 * g.maxPage

theorem SmallDivider.pos {d : Int} (h : SmallDivider g d) : 0 < d := by
  obtain ⟨⟨k, rfl⟩, -⟩ := h
  exact pow_pos (by decide) k

theorem smallDivider_one : SmallDivider g 1 :=
  ⟨⟨0, rfl⟩, by have := g.maxPage_pos; omega⟩

/-- Doubling a divider below the page count keeps it small and does not overflow. -/
theorem SmallDivider.double {d : Int} (h : SmallDivider g d) (hlt : d < g.maxPage) :
    (2 * d).bmod (2 ^ 32) = 2 * d ∧ SmallDivider g (2 * d) := by
  have hpos := h.pos
  have hpages := g.maxPage_lt
  refine ⟨Int.bmod_eq_of_le (by omega) (by omega), ?_, by omega⟩
  obtain ⟨⟨k, rfl⟩, -⟩ := h
  exact ⟨k + 1, (pow_succ' 2 k).symm⟩

section Fuel

theorem ftlGarbageCollection_succ {fuel : Nat} (h : ftlGarbageCollection g fuel s = .ok s') :
    ftlGarbageCollection g (fuel + 1) s = .ok s' := by
  induction fuel generalizing s with
  | zero => cases h
  | succ fuel ih =>
    rw [ftlGarbageCollection] at h ⊢
    split at h
    · rw [if_pos ‹_›]
      exact h
    · rw [if_neg ‹_›]
      cases hscan : findVictim g s g.maxBlock with
      | error e => rw [hscan] at h; cases h
      | ok r =>
        obtain ⟨found, s₁⟩ := r
        rw [hscan] at h
        cases found with
        | false => exact ih h
        | true =>
          change (do
            let s ← ftlEraseOneBlock g s₁ s₁.currentScanningBlockID
            ftlGarbageCollection g fuel s) = _ at h
          change (do
            let s ← ftlEraseOneBlock g s₁ s₁.currentScanningBlockID
            ftlGarbageCollection g (fuel + 1) s) = _
          cases herase : ftlEraseOneBlock g s₁ s₁.currentScanningBlockID with
          | error e => rw [herase] at h; cases h
          | ok s₂ =>
            rw [herase] at h
            exact ih h

theorem ftlGarbageCollection_mono {fuel fuel' : Nat} (hle : fuel ≤ fuel')
    (h : ftlGarbageCollection g fuel s = .ok s') : ftlGarbageCollection g fuel' s = .ok s' := by
  induction hle with
  | refl => exact h
  | step _ ih => exact ftlGarbageCollection_succ ih

theorem ensureFreePage_succ {fuel : Nat} (h : ensureFreePage g fuel s = .ok s') :
    ensureFreePage g (fuel + 1) s = .ok s' := by
  induction fuel generalizing s with
  | zero => cases h
  | succ fuel ih =>
    rw [ensureFreePage] at h ⊢
    split at h
    · rw [if_pos ‹_›]
      cases hget : getFreeBlock g false s.dev with
      | error e => rw [hget] at h; cases h
      | ok r =>
        obtain ⟨block, dev⟩ := r
        rw [hget] at h
        by_cases hblock : block = -1
        · subst block
          change (do
            let s ← ftlGarbageCollection g fuel { s with dev, currentFreeBlockID := -1 }
            ensureFreePage g fuel s) = _ at h
          change (do
            let s ← ftlGarbageCollection g (fuel + 1) { s with dev, currentFreeBlockID := -1 }
            ensureFreePage g (fuel + 1) s) = _
          cases hgc : ftlGarbageCollection g fuel { s with dev, currentFreeBlockID := -1 } with
          | error e => rw [hgc] at h; cases h
          | ok s₁ =>
            rw [hgc] at h
            rw [ftlGarbageCollection_succ hgc]
            exact ih h
        · change (if block = -1 then _ else ensureFreePage g fuel _) = _ at h
          change (if block = -1 then _ else ensureFreePage g (fuel + 1) _) = _
          rw [if_neg hblock] at h ⊢
          exact ih h
    · rw [if_neg ‹_›]
      exact h

theorem ensureFreePage_mono {fuel fuel' : Nat} (hle : fuel ≤ fuel')
    (h : ensureFreePage g fuel s = .ok s') : ensureFreePage g fuel' s = .ok s' := by
  induction hle with
  | refl => exact h
  | step _ ih => exact ensureFreePage_succ ih

theorem secureFTLWriteOneCluster_mono {fuel fuel' : Nat} (hle : fuel ≤ fuel')
    (h : secureFTLWriteOneCluster g fuel s c = .ok s') :
    secureFTLWriteOneCluster g fuel' s c = .ok s' := by
  unfold secureFTLWriteOneCluster at h ⊢
  cases hfirst : ensureFreePage g fuel s with
  | error e => rw [hfirst] at h; cases h
  | ok s₁ =>
    rw [hfirst] at h
    rw [ensureFreePage_mono hle hfirst]
    change (do let s ← ftlWriteOneCluster g s₁ c; ensureFreePage g fuel s) = _ at h
    change (do let s ← ftlWriteOneCluster g s₁ c; ensureFreePage g fuel' s) = _
    cases hwrite : ftlWriteOneCluster g s₁ c with
    | error e => rw [hwrite] at h; cases h
    | ok s₂ =>
      rw [hwrite] at h
      exact ensureFreePage_mono hle h

/-- A returning write has one result. -/
theorem WriteReturns.unique {s₁ s₂ : Ftl} (h₁ : WriteReturns g s c s₁)
    (h₂ : WriteReturns g s c s₂) : s₁ = s₂ := by
  obtain ⟨fuel₁, h₁⟩ := h₁
  obtain ⟨fuel₂, h₂⟩ := h₂
  have h₁' := secureFTLWriteOneCluster_mono (Nat.le_max_left fuel₁ fuel₂) h₁
  have h₂' := secureFTLWriteOneCluster_mono (Nat.le_max_right fuel₁ fuel₂) h₂
  exact Except.ok.inj (h₁'.symm.trans h₂')

end Fuel

/-- With a divider the scan returns; it finds nothing only where there is no victim. -/
theorem findVictim_total {n : Nat} (hd : s.invalidPage2ValidPageDivider ≠ 0)
    (hge : -1 ≤ s.currentScanningBlockID) (hlt : s.currentScanningBlockID < g.maxBlock) :
    ∃ found k, findVictim g s n = .ok (found, { s with currentScanningBlockID := k }) ∧
      (found = false → ∀ j < n, isVictim { s with
        currentScanningBlockID := (s.currentScanningBlockID + 1 + j) % g.maxBlock } = false) := by
  induction n generalizing s with
  | zero => exact ⟨false, s.currentScanningBlockID, rfl, fun _ j hj => absurd hj (by omega)⟩
  | succ n ih =>
    have hpos := g.maxBlock_pos
    have hmod : (s.currentScanningBlockID + 1).tmod g.maxBlock =
        (s.currentScanningBlockID + 1) % g.maxBlock := Int.tmod_eq_emod_of_nonneg (by omega)
    have hnext := Int.emod_nonneg (s.currentScanningBlockID + 1) (b := g.maxBlock) (by omega)
    have hnext' := Int.emod_lt_of_pos (s.currentScanningBlockID + 1) (b := g.maxBlock) (by omega)
    simp only [findVictim, hmod]
    rw [if_neg hd]
    by_cases hv : isVictim { s with
        currentScanningBlockID := (s.currentScanningBlockID + 1) % g.maxBlock } = true
    · rw [if_pos hv]
      exact ⟨true, _, rfl, by simp⟩
    · rw [if_neg hv]
      obtain ⟨found, k, hok, hnone⟩ := ih (s := { s with
        currentScanningBlockID := (s.currentScanningBlockID + 1) % g.maxBlock }) hd
        (by simp only; omega) hnext'
      refine ⟨found, k, hok, fun hf j hj => ?_⟩
      cases j with
      | zero => simpa using hv
      | succ j =>
        have hstep := hnone hf j (by omega)
        have hround : ((s.currentScanningBlockID + 1) % g.maxBlock + 1 + j) % g.maxBlock =
            (s.currentScanningBlockID + 1 + (j + 1 : Nat)) % g.maxBlock := by
          rw [Int.add_assoc, Int.emod_add_emod]
          congr 1
          push_cast
          omega
        simpa only [hround] using hstep

/-- A whole round visits every block. -/
theorem findVictim_round (hd : s.invalidPage2ValidPageDivider ≠ 0)
    (hge : -1 ≤ s.currentScanningBlockID) (hlt : s.currentScanningBlockID < g.maxBlock) :
    ∃ found k, findVictim g s g.maxBlock = .ok (found, { s with currentScanningBlockID := k }) ∧
      (found = false → ∀ b ∈ g.blocks, isVictim { s with currentScanningBlockID := b } = false) := by
  obtain ⟨found, k, hok, hnone⟩ := findVictim_total (n := g.maxBlock) hd hge hlt
  refine ⟨found, k, hok, fun hf b hb => ?_⟩
  obtain ⟨hb0, hbm⟩ := g.mem_blocks.mp hb
  have hstep := hnone hf ((b - (s.currentScanningBlockID + 1)) % g.maxBlock).toNat (by
    have := Int.emod_lt_of_pos (b - (s.currentScanningBlockID + 1)) (b := g.maxBlock) (by omega)
    omega)
  have hround : (s.currentScanningBlockID + 1 +
      (b - (s.currentScanningBlockID + 1)) % g.maxBlock) % g.maxBlock = b := by
    rw [Int.add_emod_emod, Int.add_comm, Int.sub_add_cancel, Int.emod_eq_of_lt hb0 hbm]
  simpa only [Int.toNat_of_nonneg (Int.emod_nonneg _ (by omega : (g.maxBlock : Int) ≠ 0)),
    hround] using hstep

section Collecting

variable {usable : Nat}

/-- The number of stored clusters depends on which clusters are stored only. -/
theorem SameStored.storedClusters (h : SameStored s s') (clusters : Int) :
    storedClusters clusters s'.ftlTable = storedClusters clusters s.ftlTable := by
  unfold Flash.storedClusters countCells
  congr 1
  exact Finset.filter_congr fun c _ => not_congr (h c)

/-- A divider at or above the page count makes every full block with an invalid page a victim. -/
theorem Running.isVictim_of_valid_lt (h : Running g good clusters free s)
    (hgood : good ⊆ g.blocks) {b : Int} (hb : b ∈ fullBlocks good free s)
    (hvalid : s.dev.validPageCnt b < g.maxPage)
    (hd : (g.maxPage : Int) ≤ s.invalidPage2ValidPageDivider) :
    isVictim { s with currentScanningBlockID := b } = true := by
  obtain ⟨hbg, hnot, hcur⟩ := mem_fullBlocks.mp hb
  have hsum := h.rep.valid_add_invalid hgood hbg hnot hcur
  have hcount := h.rep.counted.valid b (hgood hbg)
  have hzero : (s.dev.validPageCnt b).tdiv s.invalidPage2ValidPageDivider = 0 :=
    Int.tdiv_eq_zero_of_lt (by omega) (by omega)
  simp only [isVictim, hzero, h.rep.listed.unlisted b hbg hnot, beq_self_eq_true, Bool.and_eq_true,
    decide_eq_true_eq, bne_iff_ne]
  exact ⟨⟨by omega, trivial⟩, hcur⟩

/-- At the reserve and with room in the full blocks, a collection returns. The induction is on
the fill of the current block, and within one fill on the doublings left. -/
theorem Running.collect_returns (hgood : good ⊆ g.blocks)
    (hcard : good.card = g.leastFreeBlocksInFBL + usable) {bound : Nat}
    (h : Running g good clusters free s) (hlen : free.length = g.leastFreeBlocksInFBL)
    (hd : SmallDivider g s.invalidPage2ValidPageDivider)
    (hspace : storedClusters clusters s.ftlTable < (usable - 1) * g.maxPage)
    (hbound : s.currentFreePageID.toNat * (2 * g.maxPage) +
      (2 * g.maxPage - s.invalidPage2ValidPageDivider.toNat) < bound) :
    ∃ fuel s', ftlGarbageCollection g fuel s = .ok s' ∧
      SmallDivider g s'.invalidPage2ValidPageDivider := by
  induction bound generalizing s free with
  | zero => exact absurd hbound (Nat.not_lt_zero _)
  | succ bound ih =>
    have hcheck := (checkFreeBlock_eq_neg_one h.rep.listed hgood).mpr hlen.le
    have hpos := hd.pos
    obtain ⟨found, k, hscan, hnone⟩ := findVictim_round hpos.ne' h.scan_ge h.scan_lt
    obtain ⟨_, hk, hge, hlt, hfound⟩ := findVictim_ok h.scan_ge h.scan_lt hscan
    obtain rfl := congrArg Ftl.currentScanningBlockID hk
    have h₁ := h.rescan hge hlt
    cases found with
    | false =>
      obtain ⟨b, hb, hvalid⟩ := h.rep.exists_valid_lt hgood hcard hlen hspace
      have hlt' : s.invalidPage2ValidPageDivider < g.maxPage := by
        by_contra hge'
        have hvictim := h.isVictim_of_valid_lt hgood hb hvalid (by omega)
        rw [hnone rfl b (hgood (mem_fullBlocks.mp hb).1)] at hvictim
        cases hvictim
      obtain ⟨hbmod, hd'⟩ := hd.double hlt'
      obtain ⟨fuel, s', hok, hsmall⟩ := ih h₁.doubleDivider hlen (by
          simpa only [Flash.doubleDivider, hbmod] using hd') hspace (by
          simp only [Flash.doubleDivider, hbmod]
          omega)
      refine ⟨fuel + 1, s', ?_, hsmall⟩
      rw [ftlGarbageCollection, if_neg (not_not.mpr hcheck), hscan]
      exact hok
    | true =>
      obtain ⟨hk0, hv⟩ := hfound rfl
      obtain ⟨s₂, free₂, hok₂, herased, h₂⟩ := h₁.eraseVictim hgood hlen hk0 hv
      have hround : ∀ fuel, ftlGarbageCollection g (fuel + 1) s =
          ftlGarbageCollection g fuel s₂ := by
        intro fuel
        rw [ftlGarbageCollection, if_neg (not_not.mpr hcheck), hscan]
        change (do
          let s ← ftlEraseOneBlock g _ _
          ftlGarbageCollection g fuel s) = _
        rw [hok₂]
        rfl
      have hdivider := herased.keeps.divider
      simp only at hdivider
      rcases herased.budget with ⟨hlen₂, -⟩ | ⟨hlen₂, hpage₂⟩
      · refine ⟨2, s₂, ?_, by rw [hdivider]; exact hd⟩
        have hcheck₂ := (checkFreeBlock_eq_neg_one h₂.rep.listed hgood).not.mpr (by omega)
        rw [hround, ftlGarbageCollection, if_pos hcheck₂]
      · obtain ⟨-, -, -, hvalid⟩ := h₁.victim hgood (g.mem_blocks.mpr ⟨hk0, hlt⟩) hv
        have hnonneg := h.rep.frontier_nonneg
        have hnonneg₂ := h₂.rep.frontier_nonneg
        have hstored := herased.keeps.table.storedClusters clusters
        simp only at hpage₂ hvalid
        obtain ⟨fuel, s', hok, hsmall⟩ := ih h₂ hlen₂ (by rw [hdivider]; exact hd)
          (by rw [hstored]; exact hspace) (by
            rw [hdivider]
            have hfewer : s₂.currentFreePageID.toNat + 1 ≤ s.currentFreePageID.toNat := by omega
            have hmul := Nat.mul_le_mul_right (2 * g.maxPage) hfewer
            rw [Nat.succ_mul] at hmul
            have hp := g.maxPage_pos
            omega)
        exact ⟨fuel + 1, s', (hround fuel).trans hok, hsmall⟩

/-- At the reserve and without room in the full blocks, no collection returns. -/
theorem Running.collect_stuck (hgood : good ⊆ g.blocks)
    (hcard : good.card = g.leastFreeBlocksInFBL + usable) {fuel : Nat}
    (h : Running g good clusters free s) (hlen : free.length = g.leastFreeBlocksInFBL)
    (hspace : (usable - 1) * g.maxPage ≤ storedClusters clusters s.ftlTable) :
    ftlGarbageCollection g fuel s ≠ .ok s' := by
  induction fuel generalizing s free with
  | zero => exact fun hok => by cases hok
  | succ fuel ih =>
    intro hok
    rcases h.collect_cases hgood hok with ⟨hlt, -⟩ | ⟨-, k, hk, hk', hround⟩
    · exact hlt.ne' hlen
    have h₁ := h.rescan hk hk'
    rcases hround with hrec | ⟨s₂, free₂, hk0, hv, herased, h₂, hrec⟩
    · exact ih h₁.doubleDivider hlen hspace hrec
    · obtain ⟨hkg, hnot, hcur, -⟩ := h₁.victim hgood (g.mem_blocks.mpr ⟨hk0, hk'⟩) hv
      rcases herased.budget with ⟨-, hpage₂⟩ | ⟨hlen₂, -⟩
      · -- a block was gained, so the current block had room for the whole victim
        have hroom := herased.room
        have hvalid := h.rep.counted.valid k (hgood hkg)
        simp only at hpage₂ hkg hnot hcur
        have hcurrent : s.currentFreeBlockID ≠ -1 := fun hnone => by
          have hfull := h.no_current hnone
          omega
        have hle := h.rep.maxPage_le_of_stored hgood hcard hlen hspace hcurrent
          (mem_fullBlocks.mpr ⟨hkg, hnot, hcur⟩)
        omega
      · have hstored := herased.keeps.table.storedClusters clusters
        exact ih h₂ hlen₂ (by rw [hstored]; exact hspace) hrec

end Collecting

end WiscKey.Flash
