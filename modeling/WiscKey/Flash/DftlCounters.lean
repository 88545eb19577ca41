import WiscKey.Flash.DftlRun

/-!
# The counters of the demand-based layer

A page that is programmed counts in `ValidPageCnt` until its block is erased: a rewrite counts
the old page in `InvalidPageCnt` too. So the counters are exact as long as no page is invalid,
which is as long as every cluster is written once.
-/

namespace WiscKey.Flash

variable {g : Geometry} {t : Timing} {data : Finset Int} {free : List Int} {s s' : Dftl} {c : Int}

/-- The counters of a block count what its pages hold. -/
structure BlockExact (g : Geometry) (d : Device) (b : Int) : Prop where
  valid : d.validPageCnt b = countCells g.pages isCluster (d.flashMemory b)
  invalid : d.invalidPageCnt b = countCells g.pages (· = invalidPage) (d.flashMemory b)
  free : d.freePageCnt b = countCells g.pages (· = freePage) (d.flashMemory b)
  sum : d.validPageCnt b + d.invalidPageCnt b + d.freePageCnt b = g.maxPage

/-- The counters of every data block in use are exact. -/
def DftlCountersExact (g : Geometry) (s : Dftl) : Prop :=
  ∀ b ∈ goodBlocks g s.dev, b ∉ freeBlocks s.dev → b ∉ translationBlks g s →
    BlockExact g s.dev b

/-- No data block has an invalid page. -/
def NoInvalid (g : Geometry) (data : Finset Int) (s : Dftl) : Prop :=
  ∀ b ∈ data, ∀ p ∈ g.pages, s.dev.flashMemory b p ≠ invalidPage

/-- A call that writes no cluster again. -/
def FirstWrite (s : Dftl) : DftlCall → Prop
  | .write c => (s.dftlTable c).block = dftlPointToNull
  | .read _ => True

/-- The data blocks in use are those that the property is about. -/
theorem DataRep.inUse_iff (h : DataRep g data free s.dev.flashMemory s) (hdata : data ⊆ g.blocks)
    {b : Int} : (b ∈ goodBlocks g s.dev ∧ b ∉ freeBlocks s.dev ∧ b ∉ translationBlks g s) ↔
      b ∈ data ∧ b ∉ free := by
  rw [h.listed.freeBlocks_eq, goodBlocks, Finset.mem_filter]
  constructor
  · rintro ⟨⟨hb, hmark⟩, hbf, hbt⟩
    refine ⟨?_, hbf⟩
    by_contra hbd
    rcases h.other_use b hb hbd with htrans | hbad
    · exact hbt htrans
    · exact hmark hbad
  · rintro ⟨hbd, hbf⟩
    refine ⟨⟨hdata hbd, fun hbad => ?_⟩, hbf, fun hbt => h.translation b hbt hbd⟩
    have hzero : (0 : Int) ∈ g.pages :=
      g.mem_pages.mpr ⟨le_rfl, by exact_mod_cast g.maxPage_pos⟩
    rcases h.mapped.content b hbd 0 hzero with hpage | hpage | hpage
    · exact absurd (hpage.symm.trans hbad) (by decide)
    · exact absurd (hpage.symm.trans hbad) (by decide)
    · rw [hbad] at hpage
      exact absurd hpage (by decide)

/-- The programmed pages are the free ones' complement. -/
theorem BlockCounted.valid_add_free {d : Device} {b : Int} (h : BlockCounted g d b) :
    d.validPageCnt b + d.freePageCnt b = g.maxPage := by
  have hsum := countCells_add_eq_card (s := g.pages) (f := d.flashMemory b) (q := (· ≠ freePage))
    (r := (· = freePage)) fun p _ => not_not.symm
  rw [g.card_pages] at hsum
  rw [h.valid, h.free, ← hsum, Nat.cast_add]

/-- The counters are exact as long as no page is invalid. -/
theorem DataRep.countersExact_iff (h : DataRep g data free s.dev.flashMemory s)
    (hdata : data ⊆ g.blocks) : DftlCountersExact g s ↔ NoInvalid g data s := by
  constructor
  · intro hexact b hb p hp hinv
    have hbf : b ∉ free := by
      intro hbf
      rw [h.erased b hbf p hp] at hinv
      exact absurd hinv (by decide)
    obtain ⟨hgood, hunlisted, htrans⟩ := (h.inUse_iff hdata).mpr ⟨hb, hbf⟩
    have hsum := (hexact b hgood hunlisted htrans).sum
    have hcounted := h.counted b hb hbf
    have hvalid := hcounted.valid_add_free
    have hzero : countCells g.pages (· = invalidPage) (s.dev.flashMemory b) = 0 := by
      have hinvalid := hcounted.invalid
      omega
    exact countCells_eq_zero.mp hzero p hp hinv
  · intro hno b hgood hunlisted htrans
    obtain ⟨hb, hbf⟩ := (h.inUse_iff hdata).mp ⟨hgood, hunlisted, htrans⟩
    have hcounted := h.counted b hb hbf
    have hvalid := hcounted.valid_add_free
    have hzero : countCells g.pages (· = invalidPage) (s.dev.flashMemory b) = 0 :=
      countCells_eq_zero.mpr (hno b hb)
    have hinvalid := hcounted.invalid
    rw [hzero, Nat.cast_zero] at hinvalid
    refine ⟨?_, hcounted.invalid, hcounted.free, by omega⟩
    rw [hcounted.valid]
    unfold countCells
    congr 2
    apply Finset.filter_congr
    intro p hp
    rcases h.mapped.content b hb p hp with hpage | hpage | hpage
    · rw [hpage]
      decide
    · exact absurd hpage (hno b hb p hp)
    · refine iff_of_true (fun hfree => ?_) hpage
      rw [hfree] at hpage
      exact absurd hpage (by decide)

/-- Without invalid pages replacing the current block changes no page. -/
theorem DftlReady.replaceFullDataBlk_pages {fuel : Nat} (h : DftlReady g data free s)
    (hdata : data ⊆ g.blocks) (hno : NoInvalid g data s)
    (hok : Flash.replaceFullDataBlk g t fuel s = .ok s') :
    s'.dev.flashMemory = s.dev.flashMemory := by
  have hzero : (0 : Int) ∈ g.pages := g.mem_pages.mpr ⟨le_rfl, by exact_mod_cast g.maxPage_pos⟩
  have hvictim : dftlVictim g s.dev = -1 := by
    refine dftlVictim_none fun b hb => collectable_eq_zero ?_
    by_cases hbd : b ∈ data
    · by_cases hbf : b ∈ free
      · exact .inr (h.rep.erased b hbf 0 hzero)
      · left
        rw [(h.rep.counted b hbd hbf).invalid, countCells_eq_zero.mpr (hno b hbd), Nat.cast_zero]
    · exact .inl (h.rep.other_invalid b hb hbd)
  unfold Flash.replaceFullDataBlk at hok
  split at hok
  · rename_i hfull
    unfold allocateDataBlk at hok
    rw [if_neg (by unfold hasDataPage; omega)] at hok
    rcases Nat.lt_or_ge g.leastFreeBlocksInFBL free.length with hlt | hge
    · obtain ⟨a, rest, d', -, rfl, hfm, -⟩ := h.rep.getDataBlk_above hdata hlt hok
      exact hfm
    · exact absurd hok (getDataBlk_stuck h.rep.listed hdata hge hvictim)
  · obtain rfl := Except.ok.inj hok
    rfl

/-- Where the counters were exact, they are after a call if and only if it writes no cluster
again. -/
theorem DftlSettled.countersExact_step (h : DftlSettled g data free s)
    (hexact : DftlCountersExact g s) {call : DftlCall} (hc : 0 ≤ call.clusterID)
    (hok : DftlReturns g t s call s') : DftlCountersExact g s' ↔ FirstWrite s call := by
  have hno := (h.ready.rep.countersExact_iff h.blocks).mp hexact
  obtain ⟨free', h', -⟩ := h.step hc hok
  rw [h'.ready.rep.countersExact_iff h.blocks]
  cases call with
  | read c =>
    obtain ⟨fuel, found, hok⟩ := hok
    have hdev := (dftlReadOneCluster_ok hok).1
    refine iff_of_true ?_ trivial
    unfold NoInvalid
    rw [hdev]
    exact hno
  | write c =>
    change 0 ≤ c at hc
    obtain ⟨fuel, hok⟩ := hok
    obtain ⟨s₁, s₂, s₃, hok₁, hok₂, hok₃, rfl⟩ := dftlWriteOneCluster_ok hok
    obtain ⟨free₁, h₁⟩ := h.ready.replaceFullDataBlk h.blocks hok₁
    have hpages₁ := h.ready.replaceFullDataBlk_pages h.blocks hno hok₁
    have hcached₁ : (s₁.dftlTable c).lruOffset ≠ dftlPointToNull →
        (s₁.dftlTable c).block ≠ dftlPointToNull := by
      intro hoff
      rw [h₁.keeps.lruOffset] at hoff
      rw [Ne, h₁.keeps.stored]
      exact h.cached c hoff
    have h₂ := cacheForWrite_cached hcached₁ hok₂
    obtain ⟨rfl, -⟩ := h₁.ready.programCached h.blocks hc h₁.room h₂ hok₃
    have hpages : ∀ b p, (countWrite t (dftlProgrammed s₂ c)).dev.flashMemory b p =
        setPage s₂.dev.flashMemory s₁.currentDataBlkNum s₁.currentDataBlkPageNum c b p := by
      intro b p
      rw [← h₂.block, ← h₂.page]
      rfl
    change NoInvalid g data _ ↔ (s.dftlTable c).block = dftlPointToNull
    rw [← h₁.keeps.stored c]
    constructor
    · intro hno'
      by_contra hmapped
      have hplace : (s₁.place c).1 ≠ dftlPointToNull := hmapped
      obtain ⟨hb, hp, hpage⟩ := h₁.ready.rep.mapped.stored c hc hplace
      have hdev := h₂.dev
      rw [if_pos hplace] at hdev
      refine hno' _ hb _ hp ?_
      have hne : ¬ ((s₁.place c).1 = s₁.currentDataBlkNum ∧
          (s₁.place c).2 = s₁.currentDataBlkPageNum) := by
        rintro ⟨hblock, hpage'⟩
        have hfree := (h₁.ready.current.frontier _ hp).mpr (by rw [hpage'])
        rw [← hblock, hpage] at hfree
        rw [hfree] at hc
        exact absurd hc (by decide)
      rw [hpages, setPage_of_ne hne, hdev]
      exact setPage_self ..
    · intro hnull b hb p hp
      have hdev := h₂.dev
      rw [if_neg (show ¬ (s₁.place c).1 ≠ dftlPointToNull from not_not.mpr hnull)] at hdev
      rw [hpages, hdev, hpages₁]
      by_cases hbp : b = s₁.currentDataBlkNum ∧ p = s₁.currentDataBlkPageNum
      · rw [hbp.1, hbp.2, setPage_self]
        rintro rfl
        exact absurd hc (by decide)
      · rw [setPage_of_ne hbp]
        exact hno b hb p hp

/-- An initialised device has exact counters. -/
theorem DftlOpened.countersExact {memory : Int → LRUElementD} {sramSize : Int}
    (h : DftlOpened g memory sramSize data free s) : DftlCountersExact g s := by
  rw [h.settled.ready.rep.countersExact_iff h.settled.blocks]
  intro b hb p hp
  rw [h.erased b hb p hp]
  decide

/-- Along a run that writes no cluster again the counters stay exact. -/
theorem DftlSettled.countersExact_run {calls : List DftlCall} (h : DftlSettled g data free s)
    (hexact : DftlCountersExact g s)
    (hrun : Run (StepWhen (DftlReturns g t) FirstWrite) s calls s')
    (hcalls : ∀ call ∈ calls, 0 ≤ call.clusterID) : DftlCountersExact g s' := by
  induction hrun generalizing free with
  | nil => exact hexact
  | cons head tail ih =>
    have hc := hcalls _ List.mem_cons_self
    obtain ⟨free₁, h₁, -⟩ := h.step hc head.2
    exact ih h₁ ((h.countersExact_step hexact hc head.2).mpr head.1)
      fun call hm => hcalls call (List.mem_cons_of_mem _ hm)

/-- From the initialisation on, the counters of every data block in use are exact in every state
of a run that writes no cluster again. -/
theorem dftlRun_countersExact {draws : Draws} {sramSize : Int} {memory : Int → LRUElementD}
    {calls : List DftlCall} (hinit : DftlInitialised g t draws sramSize memory s)
    (hrun : Run (StepWhen (DftlReturns g t) FirstWrite) s calls s')
    (hcalls : ∀ call ∈ calls, 0 ≤ call.clusterID) : DftlCountersExact g s' := by
  obtain ⟨data, free, hopened⟩ := hinit.opened
  exact hopened.settled.countersExact_run hopened.countersExact hrun hcalls

/-- Two clusters are written once each. -/
theorem dftlRun_countersExact_small : ∃ s s' : Dftl,
    DftlInitialised smallGeometry smallTiming smallDraws 1 clearedMemory s ∧
      Run (StepWhen (DftlReturns smallGeometry smallTiming) FirstWrite) s [.write 0, .write 1] s' ∧
      DftlCountersExact smallGeometry s' := by
  obtain ⟨s, s', hinit, hrun, -⟩ := @exists_dftlRun smallGeometry smallTiming 3 smallDraws 1
    clearedMemory [.write 0, .write 1] (fun _ => true) (by decide +kernel)
  obtain ⟨data, free, hopened⟩ := hinit.opened
  cases hrun with
  | @cons _ s₁ _ _ _ head tail =>
    cases tail with
    | cons head₁ tail₁ =>
      cases tail₁
      obtain ⟨free₁, -, hstored, -⟩ := hopened.settled.step (by decide) head
      have hfirst : FirstWrite s (.write 0) := by
        simp [FirstWrite, hopened.table]
      have hsecond : FirstWrite s₁ (.write 1) := by
        refine (hstored 1).mpr ⟨by decide, ?_⟩
        simp [hopened.table]
      have hrun : Run (StepWhen (DftlReturns smallGeometry smallTiming) FirstWrite) s
          [.write 0, .write 1] s' := .cons ⟨hfirst, head⟩ (.cons ⟨hsecond, head₁⟩ (.nil s'))
      exact ⟨s, s', hinit, hrun, dftlRun_countersExact hinit hrun (by decide)⟩

/-- The counters are wrong after a cluster is written twice. -/
theorem dftlRun_rewrite_miscounts : ∃ s s' : Dftl,
    DftlInitialised smallGeometry smallTiming smallDraws 1 clearedMemory s ∧
      DftlRun smallGeometry smallTiming s [.write 0, .write 0] s' ∧
      ¬ DftlCountersExact smallGeometry s' := by
  obtain ⟨s, s', hinit, hrun, -⟩ := @exists_dftlRun smallGeometry smallTiming 3 smallDraws 1
    clearedMemory [.write 0, .write 0] (fun _ => true) (by decide +kernel)
  obtain ⟨data, free, hopened⟩ := hinit.opened
  refine ⟨s, s', hinit, hrun, ?_⟩
  cases hrun with
  | @cons _ s₁ _ _ _ head tail =>
    cases tail with
    | cons head₁ tail₁ =>
      cases tail₁
      obtain ⟨free₁, h₁, hstored, -⟩ := hopened.settled.step (by decide) head
      have hfirst : FirstWrite s (.write 0) := by
        simp [FirstWrite, hopened.table]
      have hexact₁ : DftlCountersExact smallGeometry s₁ :=
        (hopened.settled.countersExact_step hopened.countersExact (by decide) head).mpr hfirst
      rw [h₁.countersExact_step hexact₁ (by decide) head₁]
      intro hagain
      exact ((hstored 0).mp hagain).1 rfl

end WiscKey.Flash
