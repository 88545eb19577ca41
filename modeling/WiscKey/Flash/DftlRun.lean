import WiscKey.Flash.DftlWrite

/-!
# Runs of the demand-based layer

The two initialisations leave a device that satisfies the invariant, with every translation
block outside the data blocks, and every returning write and read keeps it. So along a run the
table and the pages agree on every cluster written.
-/

namespace WiscKey.Flash

variable {g : Geometry} {t : Timing} {data : Finset Int} {free : List Int} {s s' : Dftl} {c : Int}
  {fuel : Nat}

/-- The states between calls. -/
structure DftlSettled (g : Geometry) (data : Finset Int) (free : List Int) (s : Dftl) : Prop where
  blocks : data ⊆ g.blocks
  ready : DftlReady g data free s
  cached : CachedMapped s

/-- What a write does. -/
structure DftlWritten (g : Geometry) (data : Finset Int) (s : Dftl) (free : List Int) (c : Int)
    (s' : Dftl) (free' : List Int) : Prop where
  settled : DftlSettled g data free' s'
  stored : ∀ c', (s'.dftlTable c').block = dftlPointToNull ↔
    c' ≠ c ∧ (s.dftlTable c').block = dftlPointToNull
  programmed : ∀ p ∈ g.pages, Programmed p data free s →
    (Programmed p data free' s' ↔ Reaches g p s)

/-- A write that returns keeps the invariant and stores its cluster. -/
theorem DftlSettled.write (h : DftlSettled g data free s) (hc : 0 ≤ c)
    (hok : dftlWriteOneCluster g t fuel s c = .ok s') :
    ∃ free', DftlWritten g data s free c s' free' := by
  obtain ⟨s₁, s₂, s₃, hok₁, hok₂, hok₃, rfl⟩ := dftlWriteOneCluster_ok hok
  obtain ⟨free₁, h₁⟩ := h.ready.replaceFullDataBlk h.blocks hok₁
  have hcached₁ : CachedMapped s₁ := by
    intro c' hoff
    rw [h₁.keeps.lruOffset] at hoff
    rw [Ne, h₁.keeps.stored]
    exact h.cached c' hoff
  have h₂ := cacheForWrite_cached (hcached₁ c) hok₂
  obtain ⟨rfl, h₃⟩ := h₁.ready.programCached h.blocks hc h₁.room h₂ hok₃
  have hcurrent : s₂.currentDataBlkNum ≠ dftlPointToNull := by
    rw [h₂.block]
    exact g.ne_null_of_mem_blocks (h.blocks h₁.ready.current.mem_data)
  have hself : ((dftlProgrammed s₂ c).dftlTable c).block = s₂.currentDataBlkNum := by
    simp [dftlProgrammed]
  have hother : ∀ c', c' ≠ c → (dftlProgrammed s₂ c).dftlTable c' = s₁.dftlTable c' := by
    intro c' hcc
    rw [← h₂.others c' hcc]
    exact Function.update_of_ne hcc ..
  refine ⟨free₁, ⟨h.blocks, ⟨h₃.rep.congr rfl rfl rfl, h₃.current.congr rfl rfl rfl, h₃.reserve⟩,
    ?_⟩, ?_, ?_⟩
  · intro c' hoff
    change ((dftlProgrammed s₂ c).dftlTable c').lruOffset ≠ _ at hoff
    change ((dftlProgrammed s₂ c).dftlTable c').block ≠ _
    by_cases hcc : c' = c
    · rw [hcc, hself]
      exact hcurrent
    · rw [hother c' hcc] at hoff ⊢
      exact hcached₁ c' hoff
  · intro c'
    change ((dftlProgrammed s₂ c).dftlTable c').block = _ ↔ _
    by_cases hcc : c' = c
    · rw [hcc, hself]
      exact iff_of_false hcurrent fun hne => hne.1 rfl
    · rw [hother c' hcc, h₁.keeps.stored]
      exact (and_iff_right hcc).symm
  · intro p hp hprogrammed
    rw [← h₁.programmed p hp hprogrammed]
    refine forall_congr' fun b => forall_congr' fun hb => forall_congr' fun hbf => ?_
    change (b ≠ s₂.currentDataBlkNum →
      setPage s₂.dev.flashMemory s₂.currentDataBlkNum _ _ b p ≠ _) ↔ _
    rw [h₂.block]
    refine forall_congr' fun hbc => not_congr ?_
    rw [setPage_block_of_ne hbc, h₂.dev]
    split
    · rename_i hmapped
      obtain ⟨-, -, hpage⟩ := h₁.ready.rep.mapped.stored c hc hmapped
      change setPage s₁.dev.flashMemory (s₁.place c).1 (s₁.place c).2 _ b p = freePage ↔ _
      by_cases hbp : b = (s₁.place c).1 ∧ p = (s₁.place c).2
      · rw [hbp.1, hbp.2, setPage_self, hpage]
        refine iff_of_false (by decide) ?_
        rintro rfl
        exact absurd hc (by decide)
      · rw [setPage_of_ne hbp]
    · rfl

/-- A read changes the list and the cluster's place in it. -/
theorem dftlReadOneCluster_ok {found : Bool}
    (hok : dftlReadOneCluster t fuel s c = .ok (found, s')) :
    s'.dev = s.dev ∧ s'.place = s.place ∧ s'.gtd = s.gtd ∧
      s'.currentDataBlkNum = s.currentDataBlkNum ∧
      s'.currentDataBlkPageNum = s.currentDataBlkPageNum ∧
      (∀ c', c' ≠ c → s'.dftlTable c' = s.dftlTable c') ∧
      ((s'.dftlTable c).lruOffset ≠ (s.dftlTable c).lruOffset →
        (s.dftlTable c).lruOffset ≠ dftlPointToNull ∨
          (s.dftlTable c).block ≠ dftlPointToNull) := by
  unfold dftlReadOneCluster at hok
  simp only at hok
  split at hok
  · rename_i hhit
    simp only [Except.ok.injEq, Prod.mk.injEq] at hok
    obtain ⟨-, rfl⟩ := hok
    exact ⟨rfl, setLruOffset_place .., rfl, rfl, rfl, fun c' hcc => setLruOffset_others _ _ hcc,
      fun _ => .inl hhit⟩
  · split at hok
    · rename_i hmapped
      cases hins : insertMapping t fuel s c s.accessStatistics.totalReadRequestTime with
      | error e =>
        rw [hins] at hok
        cases hok
      | ok r =>
        obtain ⟨pos, s₁, time⟩ := r
        obtain ⟨l, rfl⟩ := insertMapping_ok hins
        rw [hins, ok_bind] at hok
        simp only [Except.ok.injEq, Prod.mk.injEq] at hok
        obtain ⟨-, rfl⟩ := hok
        exact ⟨rfl, setLruOffset_place .., rfl, rfl, rfl, fun c' hcc => setLruOffset_others _ _ hcc,
          fun _ => .inr hmapped⟩
    · simp only [Except.ok.injEq, Prod.mk.injEq] at hok
      obtain ⟨-, rfl⟩ := hok
      exact ⟨rfl, rfl, rfl, rfl, rfl, fun _ _ => rfl, fun hne => absurd rfl hne⟩

/-- A read keeps the invariant and the places of the clusters. -/
theorem DftlSettled.read {found : Bool} (h : DftlSettled g data free s)
    (hok : dftlReadOneCluster t fuel s c = .ok (found, s')) :
    DftlSettled g data free s' ∧ s'.place = s.place ∧
      (∀ p, Programmed p data free s → Programmed p data free s') := by
  obtain ⟨hdev, hplace, hgtd, hblock, hpage, hothers, hoffset⟩ := dftlReadOneCluster_ok hok
  have hrep := h.ready.rep.congr hdev hplace hgtd
  rw [← hdev] at hrep
  refine ⟨⟨h.blocks, ⟨hrep, h.ready.current.congr hdev hblock hpage, h.ready.reserve⟩, ?_⟩, hplace,
    ?_⟩
  · intro c' hoff
    have hsame : (s'.dftlTable c').block = (s.dftlTable c').block :=
      congrArg Prod.fst (congrFun hplace c')
    rw [hsame]
    by_cases hcc : c' = c
    · subst c'
      by_cases hne : (s'.dftlTable c).lruOffset = (s.dftlTable c).lruOffset
      · rw [hne] at hoff
        exact h.cached c hoff
      · rcases hoffset hne with hhit | hmapped
        · exact h.cached c hhit
        · exact hmapped
    · rw [hothers c' hcc] at hoff
      exact h.cached c' hoff
  · intro p hprogrammed b hb hbf hbc
    rw [hblock] at hbc
    rw [hdev]
    exact hprogrammed b hb hbf hbc

/-- The condition on a call under which page `p` of no block is abandoned. -/
def CallReaches (g : Geometry) (p : Int) (s : Dftl) : DftlCall → Prop
  | .write _ => Reaches g p s
  | .read _ => True

/-- Every call that returns keeps the invariant; a write stores its cluster. -/
theorem DftlSettled.step (h : DftlSettled g data free s) {call : DftlCall}
    (hc : 0 ≤ call.clusterID) (hok : DftlReturns g t s call s') :
    ∃ free', DftlSettled g data free' s' ∧
      (∀ c', (s'.dftlTable c').block = dftlPointToNull ↔
        call ≠ .write c' ∧ (s.dftlTable c').block = dftlPointToNull) ∧
      ∀ p ∈ g.pages, Programmed p data free s →
        (Programmed p data free' s' ↔ CallReaches g p s call) := by
  cases call with
  | write c =>
    obtain ⟨fuel, hok⟩ := hok
    obtain ⟨free', h'⟩ := h.write hc hok
    refine ⟨free', h'.settled, fun c' => ?_, h'.programmed⟩
    have hne : DftlCall.write c ≠ .write c' ↔ c' ≠ c := by
      rw [Ne, DftlCall.write.injEq, eq_comm]
    rw [hne]
    exact h'.stored c'
  | read c =>
    obtain ⟨fuel, found, hok⟩ := hok
    obtain ⟨h', hplace, hprogrammed⟩ := h.read hok
    refine ⟨free, h', fun c' => ?_, fun p _ hbefore => iff_of_true (hprogrammed p hbefore) trivial⟩
    have hsame : (s'.dftlTable c').block = (s.dftlTable c').block :=
      congrArg Prod.fst (congrFun hplace c')
    rw [hsame]
    exact (and_iff_right (by simp)).symm

section Initialisation

variable {draws : Draws} {sramSize : Int} {memory : Int → LRUElementD} {good : Finset Int}

/-- The device while the translation blocks are allocated: the first `n` are. -/
structure TranslationRep (g : Geometry) (good : Finset Int) (memory : Int → LRUElementD)
    (sramSize : Int) (n : Nat) (free : List Int) (s : Dftl) : Prop where
  listed : FreeListed good free s.dev
  erased : ∀ b ∈ free, ∀ p ∈ g.pages, s.dev.flashMemory b p = freePage
  allocated : ∀ j < n, (s.gtd j).mppn ∈ good ∧ (s.gtd j).mppn ∉ free
  unlisted : ∀ b ∈ good, b ∉ free → ∃ j < n, (s.gtd j).mppn = b
  pages : ∀ b ∈ g.blocks, ∀ p ∈ g.pages, s.dev.flashMemory b p < 0
  bad : ∀ b ∈ g.blocks, b ∉ good → s.dev.flashMemory b 0 = badBlock
  invalid : ∀ b, s.dev.invalidPageCnt b = 0
  table : s.dftlTable = fun _ => ⟨dftlPointToNull, dftlPointToNull, dftlPointToNull⟩
  block : s.currentDataBlkNum = dftlPointToNull
  list : s.cmtLRUList = createLRUListD memory (listLengths g sramSize).1

theorem Fresh.translationRep {d : Device} (h : Fresh g good free d) :
    TranslationRep g good memory sramSize 0 free (openDftl g sramSize memory d) := by
  refine ⟨h.listed, ?_, fun j hj => absurd hj (Nat.not_lt_zero j), ?_, ?_, h.bad_marked, h.invalid,
    rfl, rfl, rfl⟩
  · exact fun b hb p _ => h.unmarked b (h.listed.mem_good b hb) p
  · exact fun b hb hnot => absurd (h.free_all b hb) hnot
  · intro b _ p _
    rcases h.bad_unused b p with hp | hp
    · exact hp ▸ (by decide)
    · exact hp ▸ (by decide)

/-- One round allocates the head of the list. -/
theorem TranslationRep.allocate {n : Nat}
    (h : TranslationRep g good memory sramSize n free s) (hgood : good ⊆ g.blocks)
    (hok : allocateTranslationBlk g s n = .ok s') :
    ∃ free', TranslationRep g good memory sramSize (n + 1) free' s' := by
  unfold allocateTranslationBlk at hok
  rcases Nat.lt_or_ge g.leastFreeBlocksInFBL free.length with hlt | hge
  · obtain ⟨a, rest, rfl⟩ := List.exists_cons_of_length_pos (Nat.zero_lt_of_lt hlt)
    obtain ⟨d', hget, hlisted, hfm, -, hinvalid⟩ :=
      getFreeBlock_above h.listed hgood (Nat.le_of_lt_succ hlt)
    have ha := h.listed.mem_good a List.mem_cons_self
    have ha0 := (g.mem_blocks.mp (hgood ha)).1
    have hanot := (List.nodup_cons.mp h.listed.nodup).1
    rw [hget, ok_bind] at hok
    simp only at hok
    rw [if_neg (by omega)] at hok
    obtain rfl := Except.ok.inj hok
    refine ⟨rest, hlisted.congr rfl rfl rfl rfl, ?_, ?_, ?_, ?_, ?_, ?_, h.table, h.block, h.list⟩
    · intro b hb p hp
      have hba : b ≠ a := fun he => hanot (he ▸ hb)
      simp only [Function.update_of_ne hba, hfm]
      exact h.erased b (List.mem_cons_of_mem _ hb) p hp
    · intro j hj
      by_cases hjn : j = n
      · simp only [hjn, Function.update_self]
        exact ⟨ha, hanot⟩
      · simp only [Function.update_of_ne hjn]
        obtain ⟨hmem, hnot⟩ := h.allocated j (by omega)
        exact ⟨hmem, fun hm => hnot (List.mem_cons_of_mem _ hm)⟩
    · intro b hb hbr
      by_cases hba : b = a
      · exact ⟨n, Nat.lt_succ_self n, by simp [hba]⟩
      · obtain ⟨j, hj, hjb⟩ := h.unlisted b hb (by simp [hba, hbr])
        refine ⟨j, Nat.lt_succ_of_lt hj, ?_⟩
        simp only [Function.update_of_ne (Nat.ne_of_lt hj)]
        exact hjb
    · intro b hb p hp
      by_cases hba : b = a
      · subst b
        simp only [Function.update_self]
        rw [if_pos (g.mem_pages.mp hp)]
        decide
      · simp only [Function.update_of_ne hba, hfm]
        exact h.pages b hb p hp
    · intro b hb hbg
      have hba : b ≠ a := fun he => hbg (he ▸ ha)
      simp only [Function.update_of_ne hba, hfm]
      exact h.bad b hb hbg
    · intro b
      simp only [hinvalid]
      by_cases hba : b = a
      · rw [hba, Function.update_self]
      · rw [Function.update_of_ne hba]
        exact h.invalid b
  · rw [getFreeBlock_reserve h.listed hge] at hok
    cases hok

theorem TranslationRep.allocateAll {n : Nat}
    (h : TranslationRep g good memory sramSize 0 free s) (hgood : good ⊆ g.blocks)
    (hok : (List.range n).foldlM (allocateTranslationBlk g) s = .ok s') :
    ∃ free', TranslationRep g good memory sramSize n free' s' := by
  induction n generalizing s' with
  | zero =>
    obtain rfl : s = s' := Except.ok.inj hok
    exact ⟨free, h⟩
  | succ n ih =>
    rw [List.range_succ, List.foldlM_append] at hok
    cases hfront : (List.range n).foldlM (allocateTranslationBlk g) s with
    | error e =>
      rw [hfront] at hok
      cases hok
    | ok s₁ =>
      rw [hfront, ok_bind, List.foldlM_cons] at hok
      obtain ⟨free₁, h₁⟩ := ih hfront
      cases hlast : allocateTranslationBlk g s₁ n with
      | error e =>
        rw [hlast] at hok
        cases hok
      | ok s₂ =>
        rw [hlast, ok_bind] at hok
        obtain rfl : s₂ = s' := Except.ok.inj hok
        exact h₁.allocate hgood hlast

/-- The blocks still listed are the data blocks. -/
theorem TranslationRep.dataRep (h : TranslationRep g good memory sramSize (translationBlkCount g)
    free s) (hgood : good ⊆ g.blocks) :
    DataRep g free.toFinset free s.dev.flashMemory s := by
  have hmem : ∀ b ∈ free.toFinset, b ∈ g.blocks := fun b hb =>
    hgood (h.listed.mem_good b (List.mem_toFinset.mp hb))
  refine ⟨⟨h.listed.nodup, fun b hb => List.mem_toFinset.mpr hb, h.listed.linked, h.listed.head,
    h.listed.tail, h.listed.count, ?_⟩, ⟨?_, ?_, ?_⟩, h.erased, ?_, fun b hb _ => h.pages b hb,
    fun b _ _ => h.invalid b, ?_, ?_⟩
  · exact fun b hb hnot => absurd (List.mem_toFinset.mp hb) hnot
  · exact fun b hb p hp => .inl (h.erased b (List.mem_toFinset.mp hb) p hp)
  · intro c _ hstored
    simp [Dftl.place, h.table] at hstored
  · intro b hb p hp hcl
    have hneg := h.pages b (hmem b hb) p hp
    omega
  · exact fun b hb hnot => absurd (List.mem_toFinset.mp hb) hnot
  · intro b hb hnot
    by_cases hbg : b ∈ good
    · obtain ⟨j, hj, hjb⟩ := h.unlisted b hbg (by simpa using hnot)
      exact .inl (List.mem_map.mpr ⟨j, List.mem_range.mpr hj, hjb⟩)
    · exact .inr (h.bad b hb hbg)
  · intro b hb
    obtain ⟨j, hj, rfl⟩ := List.mem_map.mp hb
    simpa using (h.allocated j (List.mem_range.mp hj)).2

/-- The parts of an initialisation that returns. -/
theorem DftlInitialised.parts (h : DftlInitialised g t draws sramSize memory s) :
    ∃ fuel s₁, 0 ≤ (listLengths g sramSize).1 ∧
      (List.range (translationBlkCount g)).foldlM (allocateTranslationBlk g)
        (openDftl g sramSize memory (initializeFlashMemory g draws)) = .ok s₁ ∧
      allocateDataBlk g t fuel s₁ = .ok s := by
  obtain ⟨fuel, hok⟩ := h
  unfold initializeDFTL at hok
  split at hok
  · cases hok
  split at hok
  · cases hok
  · rename_i hlen
    split at hok
    · cases hok
    · cases hblocks : (List.range (translationBlkCount g)).foldlM (allocateTranslationBlk g)
          (openDftl g sramSize memory (initializeFlashMemory g draws)) with
      | error e =>
        rw [hblocks] at hok
        cases hok
      | ok s₁ =>
        rw [hblocks, ok_bind] at hok
        exact ⟨fuel, s₁, by omega, rfl, hok⟩

/-- The first state of a run. -/
structure DftlOpened (g : Geometry) (memory : Int → LRUElementD) (sramSize : Int)
    (data : Finset Int) (free : List Int) (s : Dftl) : Prop where
  settled : DftlSettled g data free s
  programmed : ∀ p, Programmed p data free s
  page : s.currentDataBlkPageNum = 0
  erased : ∀ b ∈ data, ∀ p ∈ g.pages, s.dev.flashMemory b p = freePage
  length_nonneg : 0 ≤ (listLengths g sramSize).1
  list : s.cmtLRUList = createLRUListD memory (listLengths g sramSize).1
  table : s.dftlTable = fun _ => ⟨dftlPointToNull, dftlPointToNull, dftlPointToNull⟩

theorem DftlInitialised.opened (h : DftlInitialised g t draws sramSize memory s) :
    ∃ data free, DftlOpened g memory sramSize data free s := by
  obtain ⟨fuel, s₁, hlen, hblocks, halloc⟩ := h.parts
  obtain ⟨free, hfresh⟩ := initializeFlashMemory_fresh g draws
  obtain ⟨free₁, h₁⟩ := hfresh.translationRep.allocateAll hfresh.good_blocks hblocks
  have hrep := h₁.dataRep hfresh.good_blocks
  have hdata : free₁.toFinset ⊆ g.blocks := fun b hb =>
    hfresh.good_blocks (h₁.listed.mem_good b (List.mem_toFinset.mp hb))
  unfold allocateDataBlk at halloc
  rw [if_neg (fun hp => hp.2 h₁.block)] at halloc
  rcases Nat.lt_or_ge g.leastFreeBlocksInFBL free₁.length with hlt | hge
  · obtain ⟨a, rest, d', rfl, rfl, hfm, hrep', hcur⟩ := hrep.getDataBlk_above hdata hlt halloc
    have hview : (useDataBlk { s₁ with dev := d' } a).dev.flashMemory = s₁.dev.flashMemory := hfm
    rw [← hview] at hrep'
    refine ⟨_, rest, ⟨hdata, ⟨hrep', hcur, Nat.le_of_lt_succ hlt⟩, ?_⟩, ?_, rfl, ?_, hlen, h₁.list,
      h₁.table⟩
    · intro c hoff
      simp [useDataBlk, h₁.table] at hoff
    · intro p b hb hbr (hba : b ≠ a)
      exact absurd (List.mem_toFinset.mp hb) (by simp [hba, hbr])
    · rw [hview]
      exact fun b hb => h₁.erased b (List.mem_toFinset.mp hb)
  · refine absurd halloc (getDataBlk_stuck hrep.listed hdata hge (dftlVictim_none ?_))
    exact fun b _ => collectable_eq_zero (.inl (h₁.invalid b))

end Initialisation

/-- Every state of a run is settled, and has the clusters that were written. -/
theorem DftlSettled.run {calls : List DftlCall} (hrun : DftlRun g t s calls s')
    (h : DftlSettled g data free s) (hcalls : ∀ call ∈ calls, 0 ≤ call.clusterID) :
    ∃ free', DftlSettled g data free' s' ∧
      ∀ c, (s'.dftlTable c).block = dftlPointToNull ↔
        .write c ∉ calls ∧ (s.dftlTable c).block = dftlPointToNull := by
  induction hrun generalizing free with
  | nil s => exact ⟨free, h, fun c => by simp⟩
  | @cons s s₁ s' call rest head tail ih =>
    obtain ⟨free₁, h₁, hstored₁, -⟩ := h.step (hcalls call List.mem_cons_self) head
    obtain ⟨free', h', hstored⟩ := ih h₁ fun call hm => hcalls call (List.mem_cons_of_mem _ hm)
    refine ⟨free', h', fun c => ?_⟩
    rw [hstored c, hstored₁ c, List.mem_cons, not_or, eq_comm (a := DftlCall.write c)]
    tauto

/-- The table, the pages and the lists of blocks agree on the clusters that were written. -/
structure DftlConsistent (g : Geometry) (written : Int → Prop) (s : Dftl) : Prop where
  in_block : ∀ c, written c → (s.dftlTable c).block ∈ g.blocks ∧ (s.dftlTable c).page ∈ g.pages
  holds : ∀ c, written c → s.dev.flashMemory (s.dftlTable c).block (s.dftlTable c).page = c
  not_free : ∀ c, written c → (s.dftlTable c).block ∉ freeBlocks s.dev
  not_translation : ∀ c, written c → (s.dftlTable c).block ∉ translationBlks g s
  page_unique : ∀ c, written c → ∀ c', written c' → s.place c = s.place c' → c = c'
  only_page : ∀ c, written c → ∀ b ∈ g.blocks, ∀ p ∈ g.pages,
    s.dev.flashMemory b p = c → s.place c = (b, p)

/-- The invariant gives the consistency of the clusters that have a page. -/
theorem DftlSettled.consistent (h : DftlSettled g data free s) {written : Int → Prop}
    (hwritten : ∀ c, written c → 0 ≤ c ∧ (s.dftlTable c).block ≠ dftlPointToNull) :
    DftlConsistent g written s := by
  have hrep := h.ready.rep
  have hstored : ∀ c, written c → (s.place c).1 ∈ data ∧ (s.place c).2 ∈ g.pages ∧
      s.dev.flashMemory (s.place c).1 (s.place c).2 = c := fun c hw =>
    hrep.mapped.stored c (hwritten c hw).1 (hwritten c hw).2
  refine ⟨?_, fun c hw => (hstored c hw).2.2, ?_, ?_, ?_, ?_⟩
  · intro c hw
    obtain ⟨hb, hp, -⟩ := hstored c hw
    exact ⟨h.blocks hb, hp⟩
  · intro c hw hm
    obtain ⟨-, hp, hpage⟩ := hstored c hw
    rw [hrep.listed.freeBlocks_eq] at hm
    have hfree := hrep.erased _ hm _ hp
    have hc := (hwritten c hw).1
    rw [← hpage] at hc
    exact absurd (hfree ▸ hc) (by decide)
  · exact fun c hw hm => hrep.translation _ hm (hstored c hw).1
  · intro c hw c' hw' heq
    rw [← (hstored c hw).2.2, heq, (hstored c' hw').2.2]
  · intro c hw b hb p hp hpage
    have hc : 0 ≤ s.dev.flashMemory b p := by
      rw [hpage]
      exact (hwritten c hw).1
    by_cases hbd : b ∈ data
    · have hmapped := hrep.mapped.mapped b hbd p hp hc
      rwa [hpage] at hmapped
    · have hneg := hrep.other_pages b hb hbd p hp
      omega

/-- After every run from the initialisation, every cluster that was written is on the page that
the table has for it, in a data block, and nowhere else. -/
theorem dftlRun_consistent {draws : Draws} {sramSize : Int} {memory : Int → LRUElementD}
    {calls : List DftlCall} (hinit : DftlInitialised g t draws sramSize memory s)
    (hrun : DftlRun g t s calls s') (hcalls : ∀ call ∈ calls, 0 ≤ call.clusterID) :
    DftlConsistent g (fun c => .write c ∈ calls) s' := by
  obtain ⟨data, free, hopened⟩ := hinit.opened
  obtain ⟨free', h', hstored⟩ := hopened.settled.run hrun hcalls
  refine h'.consistent fun c hw => ⟨hcalls _ hw, ?_⟩
  rw [Ne, hstored c]
  exact fun hn => hn.1 hw

/-- The times of a device. -/
def smallTiming : Timing := ⟨1, 2, 3⟩

/-- A list on cleared memory. -/
def clearedMemory : Int → LRUElementD := fun _ => ⟨0, 0, 0, false⟩

/-- A call with `fuel` steps for its loops. -/
def runCall (g : Geometry) (t : Timing) (fuel : Nat) (s : Dftl) : DftlCall → Except Fault Dftl
  | .write c => dftlWriteOneCluster g t fuel s c
  | .read c => (dftlReadOneCluster t fuel s c).map Prod.snd

theorem runCall_returns {call : DftlCall} (h : runCall g t fuel s call = .ok s') :
    DftlReturns g t s call s' := by
  cases call with
  | write c => exact ⟨fuel, h⟩
  | read c =>
    simp only [runCall] at h
    cases hread : dftlReadOneCluster t fuel s c with
    | error e =>
      rw [hread] at h
      cases h
    | ok r =>
      rw [hread] at h
      obtain rfl := Except.ok.inj h
      exact ⟨fuel, r.1, hread⟩

/-- Whether an initialisation and some calls return, in a state with a property. -/
def runsTo (g : Geometry) (t : Timing) (fuel : Nat) (draws : Draws) (sramSize : Int)
    (memory : Int → LRUElementD) (calls : List DftlCall) (P : Dftl → Bool) : Bool :=
  match initializeDFTL g t fuel sramSize memory (initializeFlashMemory g draws) with
  | .error _ => false
  | .ok s =>
    match calls.foldlM (runCall g t fuel) s with
    | .error _ => false
    | .ok s' => P s'

/-- Such calls are a run. -/
theorem exists_dftlRun {draws : Draws} {sramSize : Int} {memory : Int → LRUElementD}
    {calls : List DftlCall} {P : Dftl → Bool}
    (hall : runsTo g t fuel draws sramSize memory calls P = true) :
    ∃ s s', DftlInitialised g t draws sramSize memory s ∧ DftlRun g t s calls s' ∧
      P s' = true := by
  unfold runsTo at hall
  split at hall
  · cases hall
  · rename_i s hinit
    split at hall
    · cases hall
    · rename_i s' hcalls
      have hstep : ∀ s a s', runCall g t fuel s a = .ok s' → DftlReturns g t s a s' :=
        fun _ _ _ h => runCall_returns h
      exact ⟨s, s', ⟨fuel, hinit⟩, Run.of_foldlM_ok hstep hcalls, hall⟩

/-- Whether calls return, with a check of every step and one of the last state. -/
def stepsTo (g : Geometry) (t : Timing) (fuel : Nat) (check : Dftl → DftlCall → Dftl → Bool)
    (P : Dftl → Bool) : Dftl → List DftlCall → Bool
  | s, [] => P s
  | s, call :: calls =>
    match runCall g t fuel s call with
    | .error _ => false
    | .ok s' => check s call s' && stepsTo g t fuel check P s' calls

/-- Such calls are a run whose steps pass the check. -/
theorem exists_run_of_stepsTo {calls : List DftlCall} {check : Dftl → DftlCall → Dftl → Bool}
    {P : Dftl → Bool} (hall : stepsTo g t fuel check P s calls = true) :
    ∃ s', Run (fun s call s' => DftlReturns g t s call s' ∧ check s call s' = true) s calls s' ∧
      P s' = true := by
  induction calls generalizing s with
  | nil => exact ⟨s, .nil s, hall⟩
  | cons call calls ih =>
    unfold stepsTo at hall
    split at hall
    · cases hall
    · rename_i s₁ hcall
      obtain ⟨hcheck, hrest⟩ := Bool.and_eq_true_iff.mp hall
      obtain ⟨s', hrun, hP⟩ := ih hrest
      exact ⟨s', .cons ⟨runCall_returns hcall, hcheck⟩ hrun, hP⟩

/-- Whether an initialisation returns, and calls after it, with the checks. -/
def runsWith (g : Geometry) (t : Timing) (fuel : Nat) (draws : Draws) (sramSize : Int)
    (memory : Int → LRUElementD) (calls : List DftlCall) (check : Dftl → DftlCall → Dftl → Bool)
    (P : Dftl → Bool) : Bool :=
  match initializeDFTL g t fuel sramSize memory (initializeFlashMemory g draws) with
  | .error _ => false
  | .ok s => stepsTo g t fuel check P s calls

theorem exists_checkedRun {draws : Draws} {sramSize : Int} {memory : Int → LRUElementD}
    {calls : List DftlCall} {check : Dftl → DftlCall → Dftl → Bool} {P : Dftl → Bool}
    (hall : runsWith g t fuel draws sramSize memory calls check P = true) :
    ∃ s s', DftlInitialised g t draws sramSize memory s ∧
      Run (fun s call s' => DftlReturns g t s call s' ∧ check s call s' = true) s calls s' ∧
      P s' = true := by
  unfold runsWith at hall
  split at hall
  · cases hall
  · rename_i s hinit
    obtain ⟨s', hrun, hP⟩ := exists_run_of_stepsTo hall
    exact ⟨s, s', ⟨fuel, hinit⟩, hrun, hP⟩

/-- A run that writes a cluster twice and reads it. -/
theorem dftlRun_consistent_small : ∃ s s' : Dftl, ∃ calls : List DftlCall,
    DftlInitialised smallGeometry smallTiming smallDraws 1 clearedMemory s ∧
      DftlRun smallGeometry smallTiming s calls s' ∧
      DftlConsistent smallGeometry (fun c => .write c ∈ calls) s' := by
  obtain ⟨s, s', hinit, hrun, -⟩ := @exists_dftlRun smallGeometry smallTiming 3 smallDraws 1
    clearedMemory [.write 0, .write 0, .read 0] (fun _ => true) (by decide +kernel)
  exact ⟨s, s', _, hinit, hrun, dftlRun_consistent hinit hrun (by decide)⟩

end WiscKey.Flash
