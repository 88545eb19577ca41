import WiscKey.Flash.DftlCollect

/-!
# Writing keeps the invariant

A write replaces a full current block first, with a collection if the free list is at its
reserve, then invalidates the old page of its cluster, and programs the page at the frontier.
-/

namespace WiscKey.Flash

variable {g : Geometry} {t : Timing} {data : Finset Int} {free : List Int} {s s' : Dftl} {c : Int}
  {fuel : Nat}

/-- A write in this state collects blocks first. -/
def Collects (g : Geometry) (s : Dftl) : Prop :=
  g.maxPage ≤ s.currentDataBlkPageNum ∧
    s.dev.blocksInFreeBlockList ≤ g.leastFreeBlocksInFBL

/-- A collection at this state programs page `p` of the block that it copies to last. -/
def Reaches (g : Geometry) (p : Int) (s : Dftl) : Prop :=
  Collects g s → ∀ victims page,
    Collection g s.dev s.currentDataBlkPageNum victims page → p < page

/-- A collection at this state copies no cached cluster whose number the memory in front of the
list has as a key. -/
def Quiet (g : Geometry) (s : Dftl) : Prop :=
  Collects g s → ∀ victims page,
    Collection g s.dev s.currentDataBlkPageNum victims page → ∀ v ∈ victims, ¬ Touches g s v

/-- What allocating a current block does. -/
structure DftlAllocated (g : Geometry) (data : Finset Int) (s : Dftl) (free : List Int)
    (s' : Dftl) (free' : List Int) : Prop where
  ready : DftlReady g data free' s'
  room : s'.currentDataBlkPageNum < g.maxPage
  keeps : GcKeeps s s'
  list : Quiet g s → s'.cmtLRUList = s.cmtLRUList
  programmed : ∀ p ∈ g.pages, Programmed p data free s →
    (Programmed p data free' s' ↔ Reaches g p s)

/-- Replacing the current block abandons its pages from the frontier on. -/
theorem Programmed.take {a p : Int} {d' : Device} (h : Programmed p data (a :: free) s)
    (hp : p ∈ g.pages) (hcur : CurrentBlk g data (a :: free) s)
    (hfm : d'.flashMemory = s.dev.flashMemory) :
    Programmed p data free (useDataBlk { s with dev := d' } a) ↔ p < s.currentDataBlkPageNum := by
  have hfrontier := hcur.frontier p hp
  constructor
  · intro hprogrammed
    have hunlisted := hcur.unlisted
    simp only [List.mem_cons, not_or] at hunlisted
    have hpage := hprogrammed _ hcur.mem_data hunlisted.2 hunlisted.1
    simp only [useDataBlk, hfm] at hpage
    exact not_le.mp fun hle => hpage (hfrontier.mpr hle)
  · intro hpage b hb hbf (hba : b ≠ a)
    simp only [useDataBlk, hfm]
    by_cases hbc : b = s.currentDataBlkNum
    · rw [hbc, Ne, hfrontier]
      omega
    · exact h b hb (by simp [hba, hbf]) hbc

/-- Above the reserve the head of the list becomes the current block. -/
theorem DataRep.getDataBlk_above {view : Int → Int → Int} (h : DataRep g data free view s)
    (hdata : data ⊆ g.blocks) (hlt : g.leastFreeBlocksInFBL < free.length)
    (hok : getDataBlk g t fuel s = .ok s') :
    ∃ a rest d', free = a :: rest ∧ s' = useDataBlk { s with dev := d' } a ∧
      d'.flashMemory = s.dev.flashMemory ∧ DataRep g data rest view s' ∧
      CurrentBlk g data rest s' := by
  obtain ⟨a, rest, rfl⟩ := List.exists_cons_of_length_pos (Nat.zero_lt_of_lt hlt)
  obtain ⟨d', htake, hfm, -, hrep, hcur⟩ := h.take hdata
  have hcount := h.listed.count
  have ha := (g.mem_blocks.mp (hdata (h.listed.mem_good a List.mem_cons_self))).1
  cases fuel with
  | zero => cases hok
  | succ fuel =>
    have hget : getFreeBlock g false s.dev = .ok (a, d') := by
      unfold getFreeBlock
      rw [if_neg Bool.false_ne_true, if_pos (by omega)]
      exact htake
    unfold getDataBlk at hok
    rw [hget, ok_bind] at hok
    simp only at hok
    rw [if_neg (by omega)] at hok
    obtain rfl := Except.ok.inj hok
    exact ⟨a, rest, d', rfl, rfl, hfm, hrep, hcur⟩

/-- Without a block to collect there is no victim. -/
theorem dftlVictim_none {d : Device} (h : ∀ b ∈ g.blocks, collectable d b = 0) :
    dftlVictim g d = -1 := by
  by_contra hv
  obtain ⟨hmem, hpos⟩ := dftlVictim_mem hv
  rw [h _ hmem] at hpos
  omega

/-- At the reserve the loop does not return without a victim. -/
theorem getDataBlk_stuck (hlisted : FreeListed data free s.dev) (hdata : data ⊆ g.blocks)
    (hge : free.length ≤ g.leastFreeBlocksInFBL) (hv : dftlVictim g s.dev = -1) :
    getDataBlk g t fuel s ≠ .ok s' := by
  intro hok
  have hcheck := checkFreeBlock_eq_neg_one hlisted hdata
  cases fuel with
  | zero => cases hok
  | succ fuel =>
    unfold getDataBlk at hok
    rw [getFreeBlock_reserve hlisted hge, ok_bind] at hok
    simp only [if_true] at hok
    cases fuel with
    | zero => cases hok
    | succ fuel =>
      have hgc : dftlGarbageCollection g t (fuel + 1) s = .error .exit := by
        unfold dftlGarbageCollection
        rw [if_neg (by rw [Ne, hcheck]; omega)]
        exact if_pos hv
      change (dftlGarbageCollection g t (fuel + 1) s >>= getDataBlk g t (fuel + 1)) = _ at hok
      rw [hgc] at hok
      cases hok

/-- The loop of `AllocateDataBlk` on a full block, when it returns. -/
theorem DftlReady.getDataBlk (h : DftlReady g data free s) (hdata : data ⊆ g.blocks)
    (hfull : g.maxPage ≤ s.currentDataBlkPageNum) (hok : getDataBlk g t fuel s = .ok s') :
    ∃ free', DftlAllocated g data s free s' free' := by
  have hpos := g.maxPage_pos
  have hcount := h.rep.listed.count
  rcases Nat.lt_or_ge g.leastFreeBlocksInFBL free.length with hlt | hge
  · obtain ⟨a, rest, d', rfl, rfl, hfm, hrep, hcur⟩ := h.rep.getDataBlk_above hdata hlt hok
    have hview : (useDataBlk { s with dev := d' } a).dev.flashMemory = s.dev.flashMemory := hfm
    refine ⟨rest, ⟨by rw [hview]; exact hrep, hcur, Nat.le_of_lt_succ hlt⟩, ?_,
      ⟨fun _ => rfl, fun _ => Iff.rfl⟩, fun _ => rfl, fun p hp hprogrammed => ?_⟩
    · simp only [useDataBlk]
      omega
    · have hpage := (g.mem_pages.mp hp).2
      rw [hprogrammed.take hp h.current hfm]
      refine iff_of_true (by omega) fun hcollects => ?_
      have hreserve := hcollects.2
      omega
  · have hlen : free.length = g.leastFreeBlocksInFBL := Nat.le_antisymm hge h.reserve
    have hcollects : Collects g s := ⟨hfull, by omega⟩
    cases fuel with
    | zero => cases hok
    | succ fuel =>
      unfold Flash.getDataBlk at hok
      rw [getFreeBlock_reserve h.rep.listed hge, ok_bind] at hok
      simp only [if_true] at hok
      cases hgc : dftlGarbageCollection g t fuel s with
      | error e =>
        rw [hgc] at hok
        cases hok
      | ok s₁ =>
        rw [hgc, ok_bind] at hok
        obtain ⟨free₁, victims, h₁⟩ := h.collect hdata (fun hroom => by omega) hlen hgc
        obtain ⟨a, rest, d', rfl, rfl, hfm, hrep, hcur⟩ :=
          h₁.ready.rep.getDataBlk_above hdata h₁.above hok
        have hview : (useDataBlk { s₁ with dev := d' } a).dev.flashMemory =
            s₁.dev.flashMemory := hfm
        refine ⟨rest, ⟨by rw [hview]; exact hrep, hcur, Nat.le_of_lt_succ h₁.above⟩, ?_,
          ⟨h₁.keeps.lruOffset, h₁.keeps.stored⟩, fun hquiet => ?_, fun p hp hprogrammed => ?_⟩
        · simp only [useDataBlk]
          omega
        · exact h₁.list (hquiet hcollects victims _ h₁.collection)
        · rw [(h₁.programmed p hp hprogrammed).take hp h₁.ready.current hfm]
          constructor
          · rintro hpage - victims' page' hcoll
            obtain ⟨-, rfl⟩ := h₁.collection.unique hcoll
            exact hpage
          · exact fun hreaches => hreaches hcollects victims _ h₁.collection

/-- A full current block is replaced before a write. -/
theorem DftlReady.replaceFullDataBlk (h : DftlReady g data free s) (hdata : data ⊆ g.blocks)
    (hok : replaceFullDataBlk g t fuel s = .ok s') :
    ∃ free', DftlAllocated g data s free s' free' := by
  unfold Flash.replaceFullDataBlk at hok
  split at hok
  · rename_i hfull
    unfold allocateDataBlk at hok
    rw [if_neg (by unfold hasDataPage; omega)] at hok
    exact h.getDataBlk hdata hfull hok
  · rename_i hroom
    obtain rfl : s = s' := by simpa using hok
    exact ⟨free, h, by omega, GcKeeps.refl s, fun _ => rfl,
      fun _ _ hprogrammed => iff_of_true hprogrammed fun hcollects => absurd hcollects.1 hroom⟩

/-- Every cached cluster has a page. -/
def CachedMapped (s : Dftl) : Prop :=
  ∀ c, (s.dftlTable c).lruOffset ≠ dftlPointToNull → (s.dftlTable c).block ≠ dftlPointToNull

/-- What bringing a mapping into the list does outside the list. -/
structure MappingCached (s : Dftl) (c : Int) (s' : Dftl) : Prop where
  dev : s'.dev = if (s.place c).1 ≠ dftlPointToNull then (invalidateMapped s c).dev else s.dev
  place : s'.place = s.place
  others : ∀ c', c' ≠ c → s'.dftlTable c' = s.dftlTable c'
  block : s'.currentDataBlkNum = s.currentDataBlkNum
  page : s'.currentDataBlkPageNum = s.currentDataBlkPageNum
  gtd : s'.gtd = s.gtd

theorem setLruOffset_place (s : Dftl) (c offset : Int) :
    (setLruOffset s c offset).place = s.place := by
  ext c' : 1
  by_cases hcc : c' = c
  · subst c'
    simp [Dftl.place, setLruOffset]
  · simp [Dftl.place, setLruOffset, Function.update_of_ne hcc]

theorem setLruOffset_others {c' : Int} (s : Dftl) (offset : Int) (hcc : c' ≠ c) :
    (setLruOffset s c offset).dftlTable c' = s.dftlTable c' :=
  Function.update_of_ne hcc ..

theorem insertMapping_ok {time time' pos : Int} (hok : insertMapping t fuel s c time =
    .ok (pos, s', time')) : ∃ l, s' = { s with cmtLRUList := l } := by
  unfold insertMapping at hok
  split at hok
  · cases hok
  · simp only [Except.ok.injEq, Prod.mk.injEq] at hok
    exact ⟨_, hok.2.1.symm⟩

theorem cacheForWrite_cached (hcached : (s.dftlTable c).lruOffset ≠ dftlPointToNull →
      (s.dftlTable c).block ≠ dftlPointToNull) (hok : cacheForWrite t fuel s c = .ok s') :
    MappingCached s c s' := by
  unfold cacheForWrite at hok
  simp only at hok
  split at hok
  · rename_i hhit
    obtain rfl := Except.ok.inj hok
    refine ⟨?_, setLruOffset_place .., fun c' hcc => setLruOffset_others _ _ hcc, rfl, rfl, rfl⟩
    rw [if_pos (show (s.place c).1 ≠ dftlPointToNull from hcached hhit)]
    rfl
  · cases hins : insertMapping t fuel s c s.accessStatistics.totalWriteRequestTime with
    | error e =>
      rw [hins] at hok
      cases hok
    | ok r =>
      obtain ⟨pos, s₁, time⟩ := r
      obtain ⟨l, rfl⟩ := insertMapping_ok hins
      rw [hins, ok_bind] at hok
      simp only at hok
      split at hok
      · rename_i hmapped
        obtain rfl := Except.ok.inj hok
        refine ⟨?_, setLruOffset_place .., fun c' hcc => setLruOffset_others _ _ hcc, rfl, rfl, rfl⟩
        rw [if_pos (show (s.place c).1 ≠ dftlPointToNull from hmapped)]
        rfl
      · rename_i hmapped
        obtain rfl := Except.ok.inj hok
        refine ⟨?_, setLruOffset_place .., fun c' hcc => setLruOffset_others _ _ hcc, rfl, rfl, rfl⟩
        rw [if_neg (show ¬ (s.place c).1 ≠ dftlPointToNull from hmapped)]
        rfl

/-- The last part of a write: the old page is invalid and the new one programmed. -/
theorem DftlReady.programCached {s₁ s₂ : Dftl} (h : DftlReady g data free s)
    (hdata : data ⊆ g.blocks) (hc : 0 ≤ c) (hroom : s.currentDataBlkPageNum < g.maxPage)
    (h₁ : MappingCached s c s₁) (hok : dftlProgram g s₁ c = .ok s₂) :
    s₂ = dftlProgrammed s₁ c ∧ DftlReady g data free s₂ := by
  have hp : s.currentDataBlkPageNum ∈ g.pages := g.mem_pages.mpr ⟨h.current.page_nonneg, hroom⟩
  have hfree := (h.current.frontier _ hp).mpr le_rfl
  obtain ⟨hrep₁, hcur₁, hfm⟩ : DataRep g data free s.dev.flashMemory s₁ ∧
      CurrentBlk g data free s₁ ∧
      s₁.dev.flashMemory = vacate s.dev.flashMemory s.place c := by
    by_cases hmapped : (s.place c).1 ≠ dftlPointToNull
    · have hdev := h₁.dev
      rw [if_pos hmapped] at hdev
      obtain ⟨hrep, hcur, hfm⟩ := h.rep.invalidate h.current hc hmapped
      exact ⟨hrep.congr hdev h₁.place h₁.gtd, hcur.congr hdev h₁.block h₁.page, by rw [hdev, hfm]⟩
    · have hdev := h₁.dev
      rw [if_neg hmapped] at hdev
      refine ⟨h.rep.congr hdev h₁.place h₁.gtd, h.current.congr hdev h₁.block h₁.page, ?_⟩
      unfold vacate
      rw [if_neg hmapped, hdev]
  rw [dftlProgram_ok (hdata hcur₁.mem_data)] at hok
  obtain rfl := Except.ok.inj hok
  obtain ⟨hrep, hcur⟩ := hrep₁.program hcur₁ hdata hc (by rw [h₁.page]; exact hroom)
    (by rw [h₁.block, h₁.page]; exact hfree)
  refine ⟨rfl, ?_, hcur, h.reserve⟩
  rw [h₁.place, ← hfm] at hrep
  exact hrep

/-- The statistics at the end of a write. -/
def countWrite (t : Timing) (s : Dftl) : Dftl :=
  { s with accessStatistics := { s.accessStatistics with
    totalWriteRequestTime := s.accessStatistics.totalWriteRequestTime + t.timeWritePage
    totalWritePageCount := s.accessStatistics.totalWritePageCount + 1 } }

/-- The parts of a write that returns. -/
theorem dftlWriteOneCluster_ok (hok : dftlWriteOneCluster g t fuel s c = .ok s') :
    ∃ s₁ s₂ s₃, replaceFullDataBlk g t fuel s = .ok s₁ ∧ cacheForWrite t fuel s₁ c = .ok s₂ ∧
      dftlProgram g s₂ c = .ok s₃ ∧ s' = countWrite t s₃ := by
  unfold dftlWriteOneCluster at hok
  cases h₁ : replaceFullDataBlk g t fuel s with
  | error e =>
    rw [h₁] at hok
    cases hok
  | ok s₁ =>
    rw [h₁, ok_bind] at hok
    cases h₂ : cacheForWrite t fuel s₁ c with
    | error e =>
      rw [h₂] at hok
      cases hok
    | ok s₂ =>
      rw [h₂, ok_bind] at hok
      cases h₃ : dftlProgram g s₂ c with
      | error e =>
        rw [h₃] at hok
        cases hok
      | ok s₃ =>
        rw [h₃, ok_bind] at hok
        exact ⟨s₁, s₂, s₃, rfl, h₂, h₃, (Except.ok.inj hok).symm⟩

end WiscKey.Flash
