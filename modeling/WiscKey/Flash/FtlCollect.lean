import WiscKey.Flash.FtlErase

/-!
# Collecting and writing keep the invariant

The scan of `FTLGarbageCollection` finds only full blocks with an invalid page, whatever
its divider has become, so every call of the layer that returns keeps the invariant.
-/

namespace WiscKey.Flash

variable {g : Geometry} {good : Finset Int} {clusters : Int} {free : List Int} {s s' : Ftl}

/-- The values that doubling 1 on a 32-bit `int` goes through. -/
def IsDivider (d : Int) : Prop := d = 0 ∨ d = -2 ^ 31 ∨ ∃ k < 31, d = 2 ^ k

theorem isDivider_one : IsDivider 1 := .inr (.inr ⟨0, by decide, rfl⟩)

theorem IsDivider.double {d : Int} (h : IsDivider d) : IsDivider ((2 * d).bmod (2 ^ 32)) := by
  rcases h with rfl | rfl | ⟨k, hk, rfl⟩
  · exact .inl (by decide)
  · exact .inl (by decide)
  · by_cases hk' : k = 30
    · subst k
      exact .inr (.inl (by decide))
    · refine .inr (.inr ⟨k + 1, by omega, ?_⟩)
      have hpow : (2 : Int) ^ k ≤ 2 ^ 29 := pow_le_pow_right₀ (by decide) (by omega)
      have hpos : (0 : Int) < 2 ^ k := pow_pos (by decide) k
      rw [Int.bmod_eq_of_le (by omega) (by omega), pow_succ']

/-- Dividing a page count by a divider never gives a negative number. -/
theorem IsDivider.tdiv_nonneg {d v : Int} (h : IsDivider d) (hv : 0 ≤ v) (hv' : v < 2 ^ 31) :
    0 ≤ v.tdiv d := by
  rcases h with rfl | rfl | ⟨k, _, rfl⟩
  · simp
  · rw [Int.tdiv_neg, Int.tdiv_eq_zero_of_lt hv hv']
    decide
  · exact Int.tdiv_nonneg hv (pow_pos (by decide) k).le

/-- The invariant between two calls of the layer, once it has a current block. -/
structure Running (g : Geometry) (good : Finset Int) (clusters : Int) (free : List Int)
    (s : Ftl) : Prop where
  rep : Rep g good clusters free none s
  least : g.leastFreeBlocksInFBL ≤ free.length
  no_current : s.currentFreeBlockID = -1 → g.maxPage ≤ s.currentFreePageID
  scan_ge : -1 ≤ s.currentScanningBlockID
  scan_lt : s.currentScanningBlockID < g.maxBlock
  divider : IsDivider s.invalidPage2ValidPageDivider

/-- In a full block every page is counted. -/
theorem Rep.valid_add_invalid (h : Rep g good clusters free none s) (hgood : good ⊆ g.blocks)
    {b : Int} (hb : b ∈ good) (hnot : b ∉ free) (hcur : b ≠ s.currentFreeBlockID) :
    s.dev.validPageCnt b + s.dev.invalidPageCnt b = g.maxPage := by
  have hpart : ∀ p ∈ g.pages,
      s.dev.flashMemory b p = invalidPage ↔ ¬ isCluster (s.dev.flashMemory b p) := by
    intro p hp
    have hfull := h.full b hb (fun hm => absurd hm hnot) hcur p hp
    rcases h.pages.content b hb p hp with hc | hc | hc
    · exact absurd hc hfull
    · rw [hc]
      decide
    · refine iff_of_false (fun he => ?_) (not_not.mpr hc.1)
      exact absurd hc.1 (by rw [he]; decide)
  have hcount := countCells_add_eq_card (q := isCluster) (r := (· = invalidPage)) hpart
  rw [g.card_pages] at hcount
  rw [h.counted.valid b (hgood hb), h.counted.invalid b (hgood hb), ← hcount, Nat.cast_add]

/-- A victim is a full block outside the list with an invalid page. -/
theorem Running.victim (h : Running g good clusters free s) (hgood : good ⊆ g.blocks)
    (hk : s.currentScanningBlockID ∈ g.blocks) (hv : isVictim s = true) :
    s.currentScanningBlockID ∈ good ∧ s.currentScanningBlockID ∉ free ∧
      s.currentScanningBlockID ≠ s.currentFreeBlockID ∧
      s.dev.validPageCnt s.currentScanningBlockID < g.maxPage := by
  simp only [isVictim, Bool.and_eq_true, decide_eq_true_eq, beq_iff_eq, bne_iff_ne] at hv
  obtain ⟨⟨hcmp, hlink⟩, hcur⟩ := hv
  generalize hkdef : s.currentScanningBlockID = k at *
  have hvalid := h.rep.counted.valid k hk
  have hinvalid := h.rep.counted.invalid k hk
  have hle := countCells_le g.pages isCluster (s.dev.flashMemory k)
  rw [g.card_pages] at hle
  have hpages := g.maxPage_lt
  have hdiv := h.divider.tdiv_nonneg (v := s.dev.validPageCnt k) (by omega) (by omega)
  have hkgood : k ∈ good := by
    by_contra hbad
    have hzero : countCells g.pages (· = invalidPage) (s.dev.flashMemory k) = 0 := by
      rw [countCells_eq_zero]
      intro p hp
      rcases h.rep.pages.bad_unused k hk hbad p hp with hc | hc <;> rw [hc] <;> decide
    omega
  have hnot : k ∉ free := fun hm => h.rep.listed.link_ne hgood hm hlink
  have hsum := h.rep.valid_add_invalid hgood hkgood hnot hcur
  exact ⟨hkgood, hnot, hcur, by omega⟩

/-- What the scan returns: another scanning position, at a victim if it found one. -/
theorem findVictim_ok {n : Nat} {found : Bool}
    (hge : -1 ≤ s.currentScanningBlockID) (hlt : s.currentScanningBlockID < g.maxBlock)
    (h : findVictim g s n = .ok (found, s')) :
    ∃ k, s' = { s with currentScanningBlockID := k } ∧ -1 ≤ k ∧ k < g.maxBlock ∧
      (found = true → 0 ≤ k ∧ isVictim s' = true) := by
  induction n generalizing s with
  | zero =>
    obtain ⟨rfl, rfl⟩ : false = found ∧ s = s' := by simpa [findVictim] using h
    exact ⟨_, rfl, hge, hlt, by simp⟩
  | succ n ih =>
    have hpos := g.maxBlock_pos
    have hnext : 0 ≤ (s.currentScanningBlockID + 1).tmod g.maxBlock ∧
        (s.currentScanningBlockID + 1).tmod g.maxBlock < g.maxBlock :=
      ⟨Int.tmod_nonneg _ (by omega), Int.tmod_lt_of_pos _ (by omega)⟩
    simp only [findVictim] at h
    split at h
    · cases h
    · split at h
      · rename_i hv
        obtain ⟨rfl, rfl⟩ : true = found ∧ _ = s' := by simpa using h
        exact ⟨_, rfl, by omega, hnext.2, fun _ => ⟨hnext.1, hv⟩⟩
      · obtain ⟨k, hs', hk, hk', hfound⟩ := ih (by simp only; omega) hnext.2 h
        exact ⟨k, hs', hk, hk', hfound⟩

/-- The scan moves only its own position. -/
theorem Running.rescan (h : Running g good clusters free s) {k : Int} (hk : -1 ≤ k)
    (hk' : k < g.maxBlock) :
    Running g good clusters free { s with currentScanningBlockID := k } :=
  ⟨⟨h.rep.listed, h.rep.pages, h.rep.counted, h.rep.erased, h.rep.full, h.rep.current_good,
    h.rep.current_unlisted, h.rep.frontier_nonneg, h.rep.frontier_le, h.rep.frontier⟩,
    h.least, h.no_current, hk, hk', h.divider⟩

theorem Running.doubleDivider (h : Running g good clusters free s) :
    Running g good clusters free (doubleDivider s) :=
  ⟨⟨h.rep.listed, h.rep.pages, h.rep.counted, h.rep.erased, h.rep.full, h.rep.current_good,
    h.rep.current_unlisted, h.rep.frontier_nonneg, h.rep.frontier_le, h.rep.frontier⟩,
    h.least, h.no_current, h.scan_ge, h.scan_lt, h.divider.double⟩

/-- Erasing a victim returns, keeps the invariant and leaves a current block with room. -/
theorem Running.eraseVictim (h : Running g good clusters free s) (hgood : good ⊆ g.blocks)
    (hlen : free.length = g.leastFreeBlocksInFBL) (hk : 0 ≤ s.currentScanningBlockID)
    (hv : isVictim s = true) :
    ∃ s' free', ftlEraseOneBlock g s s.currentScanningBlockID = .ok s' ∧
      Erased g good clusters s.currentScanningBlockID s s' free' ∧
      Running g good clusters free' s' := by
  obtain ⟨hb, hnot, hcur, hvalid⟩ := h.victim hgood (g.mem_blocks.mpr ⟨hk, h.scan_lt⟩) hv
  obtain ⟨s', free', hok, he⟩ := h.rep.erase hgood hlen h.no_current hb hnot hcur hvalid
  refine ⟨s', free', hok, he, he.rep, ?_, fun hnone => absurd hnone he.current, ?_, ?_, ?_⟩
  · rcases he.budget with ⟨hlen', _⟩ | ⟨hlen', _⟩ <;> omega
  · rw [he.keeps.scan]
    exact h.scan_ge
  · rw [he.keeps.scan]
    exact h.scan_lt
  · rw [he.keeps.divider]
    exact h.divider

/-- A round of a collection that returns finds a block above the reserve, or its scan ends without a
victim, or it erases one. -/
theorem Running.collect_cases (hgood : good ⊆ g.blocks) {fuel : Nat}
    (h : Running g good clusters free s) (hok : ftlGarbageCollection g (fuel + 1) s = .ok s') :
    (g.leastFreeBlocksInFBL < free.length ∧ s = s') ∨ (free.length = g.leastFreeBlocksInFBL ∧
      ∃ k : Int, -1 ≤ k ∧ k < g.maxBlock ∧
        (ftlGarbageCollection g fuel
            (Flash.doubleDivider { s with currentScanningBlockID := k }) = .ok s' ∨
          ∃ s₂ free₂, 0 ≤ k ∧ isVictim { s with currentScanningBlockID := k } = true ∧
            Erased g good clusters k { s with currentScanningBlockID := k } s₂ free₂ ∧
            Running g good clusters free₂ s₂ ∧ ftlGarbageCollection g fuel s₂ = .ok s')) := by
  simp only [ftlGarbageCollection] at hok
  have hcheck := checkFreeBlock_eq_neg_one h.rep.listed hgood
  split at hok
  · rename_i hfree
    rw [Ne, hcheck] at hfree
    exact .inl ⟨Nat.lt_of_not_le hfree, by simpa using hok⟩
  · rename_i hfree
    have hlen : free.length = g.leastFreeBlocksInFBL :=
      Nat.le_antisymm (hcheck.mp (not_not.mp hfree)) h.least
    cases hscan : findVictim g s g.maxBlock with
    | error e => simp [hscan] at hok; cases hok
    | ok r =>
      obtain ⟨found, s₁⟩ := r
      rw [hscan] at hok
      obtain ⟨k, rfl, hk, hk', hfound⟩ := findVictim_ok h.scan_ge h.scan_lt hscan
      refine .inr ⟨hlen, k, hk, hk', ?_⟩
      cases found with
      | false => exact .inl hok
      | true =>
        obtain ⟨hk0, hv⟩ := hfound rfl
        obtain ⟨s₂, free₂, hok₂, herased, h₂⟩ := (h.rescan hk hk').eraseVictim hgood hlen hk0 hv
        refine .inr ⟨s₂, free₂, hk0, hv, herased, h₂, ?_⟩
        rw [← hok]
        change _ = (do
          let s ← ftlEraseOneBlock g _ k
          ftlGarbageCollection g fuel s)
        rw [hok₂]
        rfl

/-- A collection that returns keeps the invariant and leaves a block above the reserve. -/
theorem Running.collect (hgood : good ⊆ g.blocks) {fuel : Nat}
    (h : Running g good clusters free s) (hok : ftlGarbageCollection g fuel s = .ok s') :
    ∃ free', Running g good clusters free' s' ∧ g.leastFreeBlocksInFBL < free'.length ∧
      SameStored s s' := by
  induction fuel generalizing s free with
  | zero => cases hok
  | succ fuel ih =>
    rcases h.collect_cases hgood hok with ⟨hlt, rfl⟩ | ⟨-, k, hk, hk', hround⟩
    · exact ⟨free, h, hlt, fun _ => Iff.rfl⟩
    rcases hround with hrec | ⟨s₂, free₂, -, -, herased, h₂, hrec⟩
    · obtain ⟨free', h', hlt, hsame⟩ := ih (h.rescan hk hk').doubleDivider hrec
      exact ⟨free', h', hlt, hsame⟩
    · obtain ⟨free', h', hlt, hsame⟩ := ih h₂ hrec
      exact ⟨free', h', hlt, fun c => (hsame c).trans (herased.keeps.table c)⟩

/-- A block above the reserve becomes the current block. -/
theorem Running.takeCurrent (h : Running g good clusters free s) (hgood : good ⊆ g.blocks)
    (hfull : g.maxPage ≤ s.currentFreePageID) (hleast : g.leastFreeBlocksInFBL < free.length) :
    ∃ b d' rest, free = b :: rest ∧ b ≠ -1 ∧ getFreeBlock g false s.dev = .ok (b, d') ∧
      Running g good clusters rest
        { s with dev := d', currentFreeBlockID := b, currentFreePageID := 0 } := by
  obtain ⟨b, rest, rfl⟩ := List.exists_cons_of_length_pos (Nat.zero_lt_of_lt hleast)
  have hle : g.leastFreeBlocksInFBL ≤ rest.length := Nat.le_of_lt_succ hleast
  obtain ⟨d', hget, -, -, hrep⟩ := h.rep.takeCurrent hgood (by simp) hle hfull
  have hb := (g.mem_blocks.mp (hgood (h.rep.listed.mem_good b List.mem_cons_self))).1
  have hb1 : b ≠ -1 := by omega
  exact ⟨b, d', rest, rfl, hb1, hget, hrep, hle, fun hnone => absurd hnone hb1, h.scan_ge,
    h.scan_lt, h.divider⟩

/-- At the reserve a full current block is given up. -/
theorem Running.dropCurrent (h : Running g good clusters free s) (hgood : good ⊆ g.blocks)
    (hfull : g.maxPage ≤ s.currentFreePageID) :
    Running g good clusters free { s with currentFreeBlockID := -1 } :=
  ⟨h.rep.dropCurrent hgood hfull, h.least, fun _ => hfull, h.scan_ge, h.scan_lt, h.divider⟩

/-- The loops around a write, if they end, leave a current block with room. -/
theorem Running.ensureFreePage (hgood : good ⊆ g.blocks) {fuel : Nat}
    (h : Running g good clusters free s) (hok : ensureFreePage g fuel s = .ok s') :
    ∃ free', Running g good clusters free' s' ∧ s'.currentFreePageID < g.maxPage ∧
      SameStored s s' := by
  induction fuel generalizing s free with
  | zero => cases hok
  | succ fuel ih =>
    simp only [Flash.ensureFreePage] at hok
    split at hok
    · rename_i hfull
      rcases Nat.lt_or_ge g.leastFreeBlocksInFBL free.length with hleast | hleast
      · obtain ⟨b, d', rest, -, hb, hget, h₁⟩ := h.takeCurrent hgood hfull hleast
        rw [hget] at hok
        change (if b = -1 then _ else Flash.ensureFreePage g fuel _) = _ at hok
        rw [if_neg hb] at hok
        obtain ⟨free', h', hroom, hsame⟩ := ih h₁ hok
        exact ⟨free', h', hroom, hsame⟩
      · rw [getFreeBlock_reserve h.rep.listed hleast] at hok
        change (do
          let s ← ftlGarbageCollection g fuel { s with currentFreeBlockID := -1 }
          Flash.ensureFreePage g fuel s) = _ at hok
        cases hgc : ftlGarbageCollection g fuel { s with currentFreeBlockID := -1 } with
        | error e => rw [hgc] at hok; cases hok
        | ok s₁ =>
          rw [hgc] at hok
          obtain ⟨free₁, h₁, -, hsame₁⟩ := (h.dropCurrent hgood hfull).collect hgood hgc
          obtain ⟨free', h', hroom, hsame⟩ := ih h₁ hok
          exact ⟨free', h', hroom, fun c => (hsame c).trans (hsame₁ c)⟩
    · rename_i hroom
      obtain rfl : s = s' := by simpa using hok
      exact ⟨free, h, by omega, fun _ => Iff.rfl⟩

/-- A current page below the end of its block has a block. -/
theorem Running.current_ne (h : Running g good clusters free s)
    (hroom : s.currentFreePageID < g.maxPage) : s.currentFreeBlockID ≠ -1 := fun hnone => by
  have := h.no_current hnone
  omega

/-- A write stores its cluster and unmaps no other. -/
theorem ftlProgram_table_null {c c' : Int} (hcur : s.currentFreeBlockID ≠ -1) :
    ((ftlProgram (forgetCluster s c) c).ftlTable c').block = ftlPointToNull ↔
      c' ≠ c ∧ (s.ftlTable c').block = ftlPointToNull := by
  simp only [ftlProgram, forgetCluster_ftlTable, forgetCluster_currentFreeBlockID,
    Function.update_idem]
  by_cases hcc : c' = c
  · subst c'
    rw [Function.update_self]
    exact iff_of_false hcur fun h => h.1 rfl
  · rw [Function.update_of_ne hcc]
    exact (and_iff_right hcc).symm

/-- A write to a current block with room keeps the invariant. -/
theorem Running.write (h : Running g good clusters free s) (hgood : good ⊆ g.blocks) {c : Int}
    (hc : 0 ≤ c) (hcl : c < clusters) (hroom : s.currentFreePageID < g.maxPage) :
    ftlWriteOneCluster g s c = .ok (ftlProgram (forgetCluster s c) c) ∧
      Running g good clusters free (ftlProgram (forgetCluster s c) c) := by
  have hcur := h.current_ne hroom
  obtain ⟨hok, hrep⟩ := h.rep.write hgood hc hcl hcur hroom
  refine ⟨hok, hrep, h.least, ?_, ?_, ?_, ?_⟩
  all_goals simp only [ftlProgram, forgetCluster_currentFreeBlockID,
    forgetCluster_currentFreePageID, forgetCluster_currentScanningBlockID,
    forgetCluster_invalidPage2ValidPageDivider]
  · exact fun hnone => absurd hnone hcur
  · exact h.scan_ge
  · exact h.scan_lt
  · exact h.divider

/-- `SecureFTLWriteOneCluster`, when it returns, keeps the invariant. -/
theorem Running.secureWrite (h : Running g good clusters free s) (hgood : good ⊆ g.blocks)
    {fuel : Nat} {c : Int} (hc : 0 ≤ c) (hcl : c < clusters)
    (hok : secureFTLWriteOneCluster g fuel s c = .ok s') :
    ∃ free', Running g good clusters free' s' ∧ s'.currentFreePageID < g.maxPage ∧
      ∀ c', (s'.ftlTable c').block = ftlPointToNull ↔
        c' ≠ c ∧ (s.ftlTable c').block = ftlPointToNull := by
  unfold secureFTLWriteOneCluster at hok
  cases hfirst : Flash.ensureFreePage g fuel s with
  | error e => rw [hfirst] at hok; cases hok
  | ok s₁ =>
    rw [hfirst] at hok
    obtain ⟨free₁, h₁, hroom₁, hsame₁⟩ := h.ensureFreePage hgood hfirst
    obtain ⟨hwrite, h₂⟩ := h₁.write hgood hc hcl hroom₁
    change (do let s ← ftlWriteOneCluster g s₁ c; Flash.ensureFreePage g fuel s) = _ at hok
    rw [hwrite] at hok
    obtain ⟨free', h', hroom, hsame⟩ := h₂.ensureFreePage hgood hok
    refine ⟨free', h', hroom, fun c' => (hsame c').trans ?_⟩
    rw [ftlProgram_table_null (h₁.current_ne hroom₁), hsame₁ c']

end WiscKey.Flash
