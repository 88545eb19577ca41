import WiscKey.Flash.FtlInit
import WiscKey.Library.Runs

/-!
# Runs of the translation layer

A run starts where the two initialisations, with any outcome of their draws, leave the
device, and goes on with returning writes to admissible clusters. Every state of such a
run is consistent.
-/

namespace WiscKey.Flash

variable {g : Geometry} {good : Finset Int} {clusters : Int} {s s' : Ftl} {c : Int}

/-- `SecureFTLWriteOneCluster` returns, in the state `s'`. -/
def WriteReturns (g : Geometry) (s : Ftl) (clusterID : Int) (s' : Ftl) : Prop :=
  ∃ fuel, secureFTLWriteOneCluster g fuel s clusterID = .ok s'

/-- Returning writes, one after the other. -/
abbrev Writes (g : Geometry) : Ftl → List Int → Ftl → Prop := Run (WriteReturns g)

/-- A cluster below `MaxCluster`, as `InitializeFlashMemory` computes it. -/
def admissible (g : Geometry) (draws : Draws) (clusterID : Int) : Prop :=
  0 ≤ clusterID ∧ clusterID < maxCluster g (initializeFlashMemory g draws).badBlockCnt

/-- `InitializeFlashMemory` and `InitializeFTL` return, in the state `s`. -/
def Initialised (g : Geometry) (draws : Draws) (selected : Nat → Bool) (s : Ftl) : Prop :=
  ∃ fuel, initializeFTL g fuel selected (initializeFlashMemory g draws) = .ok s

/-- The blocks of the free list, read along its links from the head. -/
def followLinks (next : Int → Int) : Nat → Int → List Int
  | 0, _ => []
  | n + 1, b => b :: followLinks next n (next b)

/-- The blocks on the free block list of the device. -/
def freeBlocks (d : Device) : List Int :=
  followLinks d.freeBlockList d.blocksInFreeBlockList.toNat d.freeBlockListHead

/-- What the arrays of the layer say about each other, with `clusters` for `MaxCluster`. -/
structure Consistent (g : Geometry) (clusters : Int) (s : Ftl) : Prop where
  /-- The table says where each cluster is, and the pages say the same. -/
  table_iff : ∀ c, 0 ≤ c → c < clusters → ∀ b p,
    (s.ftlTable c = ⟨b, p⟩ ∧ b ≠ ftlPointToNull) ↔
      (b ∈ g.blocks ∧ p ∈ g.pages ∧ s.dev.flashMemory b p = c)
  /-- No two pages hold one cluster. -/
  page_unique : ∀ b ∈ g.blocks, ∀ p ∈ g.pages, ∀ b' ∈ g.blocks, ∀ p' ∈ g.pages,
    s.dev.flashMemory b p = s.dev.flashMemory b' p' →
    0 ≤ s.dev.flashMemory b p → s.dev.flashMemory b p < clusters → b = b' ∧ p = p'
  /-- The two counters of a good block. -/
  valid : ∀ b ∈ goodBlocks g s.dev, s.dev.validPageCnt b =
    countCells g.pages (fun content => 0 ≤ content ∧ content < clusters) (s.dev.flashMemory b)
  invalid : ∀ b ∈ goodBlocks g s.dev, s.dev.invalidPageCnt b =
    countCells g.pages (fun content => content = invalidPage) (s.dev.flashMemory b)
  /-- Free blocks are erased. -/
  free_erased : ∀ b ∈ freeBlocks s.dev, ∀ p ∈ g.pages, s.dev.flashMemory b p = freePage
  /-- The current block is programmed up to the frontier. -/
  frontier : s.currentFreeBlockID ≠ -1 → ∀ p ∈ g.pages,
    s.dev.flashMemory s.currentFreeBlockID p = freePage ↔ s.currentFreePageID ≤ p

theorem followLinks_linked {next : Int → Int} {nil head : Int} {l : List Int}
    (h : Linked next nil l) (hhead : ∀ b, l.head? = some b → head = b) :
    followLinks next l.length head = l := by
  induction l generalizing head with
  | nil => rfl
  | cons a l ih =>
    obtain rfl : head = a := hhead a rfl
    simp only [List.length_cons, followLinks, List.cons.injEq, true_and]
    exact ih (Linked.of_cons h) fun b hb => h.next_head hb

theorem FreeListed.freeBlocks_eq {free : List Int} {d : Device} (h : FreeListed good free d) :
    freeBlocks d = free := by
  unfold freeBlocks
  rw [h.count, Int.toNat_natCast]
  exact followLinks_linked h.linked h.head

/-- A good block is one whose page 0 carries no mark. -/
theorem Rep.goodBlocks_eq {free : List Int} (h : Rep g good clusters free none s)
    (hgood : good ⊆ g.blocks) : goodBlocks g s.dev = good := by
  ext b
  rw [goodBlocks, Finset.mem_filter]
  constructor
  · rintro ⟨hb, hne⟩
    by_contra hbad
    exact hne (h.pages.bad_marked b hb hbad)
  · intro hb
    refine ⟨hgood hb, fun hbad => ?_⟩
    have hp : (0 : Int) ∈ g.pages := g.mem_pages.mpr ⟨le_rfl, by exact_mod_cast g.maxPage_pos⟩
    rcases h.pages.content b hb 0 hp with hc | hc | hc
    · exact absurd (hc.symm.trans hbad) (by decide)
    · exact absurd (hc.symm.trans hbad) (by decide)
    · exact absurd hc.1 (by rw [hbad]; decide)

/-- A page that holds a cluster belongs to a good block. -/
theorem PagesMapped.good_of_cluster {fm : Int → Int → Int} {table : Int → FTLElement}
    (h : PagesMapped g good clusters fm table) {b p : Int} (hb : b ∈ g.blocks) (hp : p ∈ g.pages)
    (hcl : 0 ≤ fm b p) : b ∈ good := by
  by_contra hbad
  rcases h.bad_unused b hb hbad p hp with hc | hc <;> exact absurd hcl (by rw [hc]; decide)

/-- The representation invariant gives the consistency of the arrays. -/
theorem Rep.consistent {free : List Int} (h : Rep g good clusters free none s)
    (hgood : good ⊆ g.blocks) : Consistent g clusters s := by
  have hgoodEq := h.goodBlocks_eq hgood
  refine ⟨?_, ?_, ?_, ?_, ?_, h.frontier⟩
  · intro c hc hcl b p
    constructor
    · rintro ⟨htable, hb⟩
      have hst := h.pages.stored c hc (by rw [htable]; exact hb)
      rw [htable] at hst
      exact ⟨hgood hst.1, hst.2.1, hst.2.2⟩
    · rintro ⟨hb, hp, rfl⟩
      have hbg := h.pages.good_of_cluster hb hp hc
      exact ⟨h.pages.mapped b hbg p hp hc, g.ne_null_of_mem_blocks hb⟩
  · intro b hb p hp b' hb' p' hp' heq hc _
    have hm := h.pages.mapped b (h.pages.good_of_cluster hb hp hc) p hp hc
    have hc' := heq ▸ hc
    have hm' := h.pages.mapped b' (h.pages.good_of_cluster hb' hp' hc') p' hp' hc'
    rw [← heq, hm] at hm'
    exact ⟨congrArg FTLElement.block hm', congrArg FTLElement.page hm'⟩
  · intro b hb
    rw [hgoodEq] at hb
    rw [h.counted.valid b (hgood hb), countCells, countCells]
    congr 2
    apply Finset.filter_congr
    intro p hp
    constructor
    · intro hc
      rcases h.pages.content b hb p hp with he | he | he
      · exact absurd hc (by rw [he]; decide)
      · exact absurd hc (by rw [he]; decide)
      · exact he
    · exact fun hc => hc.1
  · intro b hb
    rw [hgoodEq] at hb
    exact h.counted.invalid b (hgood hb)
  · intro b hb
    rw [h.listed.freeBlocks_eq] at hb
    exact h.erased b hb (by simp)

/-- The states between calls: a current block with room, or never any current block. -/
def Settled (g : Geometry) (good : Finset Int) (clusters : Int) (s : Ftl) : Prop :=
  s.currentFreePageID < g.maxPage ∧
    ((∃ free, Running g good clusters free s) ∨
      (s.currentFreeBlockID = -1 ∧ ∃ free, Rep g good clusters free none s))

/-- Without a current block no write returns. -/
theorem not_writeReturns_of_no_current (hroom : s.currentFreePageID < g.maxPage)
    (hnone : s.currentFreeBlockID = -1) : ¬ WriteReturns g s c s' := by
  rintro ⟨fuel, hok⟩
  unfold secureFTLWriteOneCluster at hok
  cases fuel with
  | zero => cases hok
  | succ fuel =>
    have hstay : ensureFreePage g (fuel + 1) s = .ok s := by
      simp only [ensureFreePage]
      rw [if_neg (by omega)]
    rw [hstay] at hok
    change (do let s ← ftlWriteOneCluster g s c; ensureFreePage g (fuel + 1) s) = _ at hok
    cases hwrite : ftlWriteOneCluster g s c with
    | error e => rw [hwrite] at hok; cases hok
    | ok s₁ => exact ftlWriteOneCluster_ok hwrite hnone

/-- A returning write keeps the states between calls. -/
theorem Settled.write (h : Settled g good clusters s) (hgood : good ⊆ g.blocks) (hc : 0 ≤ c)
    (hcl : c < clusters) (hwrite : WriteReturns g s c s') : Settled g good clusters s' := by
  obtain ⟨hroom, ⟨free, hrun⟩ | ⟨hnone, -⟩⟩ := h
  · obtain ⟨fuel, hok⟩ := hwrite
    obtain ⟨free', hrun', hroom', -⟩ := hrun.secureWrite hgood hc hcl hok
    exact ⟨hroom', .inl ⟨free', hrun'⟩⟩
  · exact absurd hwrite (not_writeReturns_of_no_current hroom hnone)

theorem writes_settled {cs : List Int} (hrun : Writes g s cs s')
    (h : Settled g good clusters s) (hgood : good ⊆ g.blocks)
    (hcs : ∀ c ∈ cs, 0 ≤ c ∧ c < clusters) : Settled g good clusters s' := by
  induction hrun with
  | nil => exact h
  | cons head tail ih =>
    obtain ⟨hc, hcl⟩ := hcs _ List.mem_cons_self
    exact ih (h.write hgood hc hcl head) fun c hc => hcs c (List.mem_cons_of_mem _ hc)

/-- The bookkeeping of accessed pages is outside the invariant. -/
theorem Running.markAccessed {free : List Int} (h : Running g good clusters free s) :
    Running g good clusters free (markAccessed s c) :=
  ⟨⟨h.rep.listed.congr rfl rfl rfl rfl, h.rep.pages, h.rep.counted, h.rep.erased, h.rep.full,
    h.rep.current_good, h.rep.current_unlisted, h.rep.frontier_nonneg, h.rep.frontier_le,
    h.rep.frontier⟩, h.least, h.no_current, h.scan_ge, h.scan_lt, h.divider⟩

theorem Settled.markAccessed (h : Settled g good clusters s) :
    Settled g good clusters (markAccessed s c) := by
  obtain ⟨hroom, ⟨free, hrun⟩ | ⟨hnone, free, hrep⟩⟩ := h
  · exact ⟨hroom, .inl ⟨free, hrun.markAccessed⟩⟩
  · exact ⟨hroom, .inr ⟨hnone, free, hrep.listed.congr rfl rfl rfl rfl, hrep.pages, hrep.counted,
      hrep.erased, hrep.full, hrep.current_good, hrep.current_unlisted, hrep.frontier_nonneg,
      hrep.frontier_le, hrep.frontier⟩⟩

/-- The pages of the blocks outside the reserve are admissible clusters. -/
theorem usable_le_maxCluster (g : Geometry) {bad : Nat}
    (h : g.leastFreeBlocksInFBL + bad ≤ g.maxBlock) :
    (((g.maxBlock - g.leastFreeBlocksInFBL - bad) * g.maxPage : Nat) : Int) ≤ maxCluster g bad := by
  have hratio : g.maxPage * g.pageToLBARatio ≤ g.blockSize * 2 := by
    have hdiv : g.maxPage * g.pageToLBARatio * lbaSize ≤ g.blockSize * 1024 := by
      calc g.maxPage * g.pageToLBARatio * lbaSize
          = g.maxPage * (g.pageSize / lbaSize * lbaSize) := by
            rw [Geometry.pageToLBARatio, Nat.mul_assoc]
        _ ≤ g.maxPage * g.pageSize := Nat.mul_le_mul_left _ (Nat.div_mul_le_self _ _)
        _ ≤ g.blockSize * 1024 := Nat.div_mul_le_self _ _
    rw [show lbaSize = 512 from rfl] at hdiv
    omega
  have hblocks : g.maxBlock * g.blockSize ≤ g.flashSize * 1024 := Nat.div_mul_le_self _ _
  obtain ⟨usable, husable⟩ := Nat.exists_eq_add_of_le h
  have hu : g.maxBlock - g.leastFreeBlocksInFBL - bad = usable := by omega
  have hsize : (g.leastFreeBlocksInFBL + bad) * g.blockSize + usable * g.blockSize ≤
      g.flashSize * 1024 := by
    rw [← Nat.add_mul, ← husable]
    exact hblocks
  have hpages : usable * g.maxPage * g.pageToLBARatio ≤ usable * g.blockSize * 2 := by
    rw [Nat.mul_assoc, Nat.mul_assoc]
    exact Nat.mul_le_mul_left _ hratio
  have hpos : (0 : Int) < g.pageToLBARatio := by exact_mod_cast g.pageToLBARatio_pos
  have hlba : ((usable * g.maxPage * g.pageToLBARatio : Nat) : Int) ≤ maxLBA g bad := by
    have htwo : ((1024 / lbaSize : Nat) : Int) = 2 := rfl
    have hsizeInt : (((g.leastFreeBlocksInFBL + bad) * g.blockSize : Nat) : Int) +
        ((usable * g.blockSize : Nat) : Int) ≤ ((g.flashSize * 1024 : Nat) : Int) := by
      exact_mod_cast hsize
    have hpagesInt : ((usable * g.maxPage * g.pageToLBARatio : Nat) : Int) ≤
        ((usable * g.blockSize : Nat) : Int) * 2 := by
      exact_mod_cast hpages
    have hmax : maxLBA g bad = (((g.flashSize * 1024 : Nat) : Int) -
        (((g.leastFreeBlocksInFBL + bad) * g.blockSize : Nat) : Int)) * 2 := by
      unfold maxLBA
      push_cast
      rfl
    rw [hmax]
    omega
  rw [hu, maxCluster, Int.tdiv_eq_ediv_of_nonneg (le_trans (Int.natCast_nonneg _) hlba)]
  refine (Int.le_ediv_iff_mul_le hpos).mpr ?_
  exact_mod_cast hlba

/-- The clusters `InitializeFTL` writes are admissible. -/
theorem initialClusters_admissible {draws : Draws} {selected : Nat → Bool}
    (hc : c ∈ initialClusters g (initializeFlashMemory g draws).badBlockCnt selected) :
    admissible g draws c := by
  simp only [initialClusters, List.mem_flatMap, List.mem_filter, List.mem_range, List.mem_map] at hc
  obtain ⟨i, ⟨hi, -⟩, j, hj, rfl⟩ := hc
  refine ⟨Int.natCast_nonneg _, lt_of_lt_of_le ?_ (usable_le_maxCluster g (by omega))⟩
  have hlt : i * g.maxPage + j < (g.maxBlock - g.leastFreeBlocksInFBL -
      (initializeFlashMemory g draws).badBlockCnt) * g.maxPage := by
    calc i * g.maxPage + j < i * g.maxPage + g.maxPage := by omega
      _ = (i + 1) * g.maxPage := by rw [Nat.succ_mul]
      _ ≤ _ := Nat.mul_le_mul_right _ hi
  exact_mod_cast hlt

theorem foldlM_write_settled {fuel : Nat} {cs : List Int} (hgood : good ⊆ g.blocks)
    (h : Settled g good clusters s) (hcs : ∀ c ∈ cs, 0 ≤ c ∧ c < clusters)
    (hok : cs.foldlM (fun s c => do
      let s ← secureFTLWriteOneCluster g fuel s c
      Except.ok (markAccessed s c)) s = .ok s') : Settled g good clusters s' := by
  induction cs generalizing s with
  | nil =>
    obtain rfl : s = s' := Except.ok.inj hok
    exact h
  | cons c cs ih =>
    rw [List.foldlM_cons] at hok
    obtain ⟨hc, hcl⟩ := hcs c List.mem_cons_self
    cases hwrite : secureFTLWriteOneCluster g fuel s c with
    | error e => rw [hwrite] at hok; cases hok
    | ok s₁ =>
      rw [hwrite] at hok
      have h₁ := h.write hgood hc hcl ⟨fuel, hwrite⟩
      exact ih h₁.markAccessed (fun c hc => hcs c (List.mem_cons_of_mem _ hc)) hok

/-- The first state of a run is one between calls. -/
theorem Initialised.settled {draws : Draws} {selected : Nat → Bool}
    (h : Initialised g draws selected s) :
    Settled g (goodBlocks g (initializeFlashMemory g draws))
      (maxCluster g (initializeFlashMemory g draws).badBlockCnt) s := by
  obtain ⟨fuel, hok⟩ := h
  obtain ⟨free, hfresh⟩ := initializeFlashMemory_fresh g draws
  have hpos := g.maxPage_pos
  have hopen : ∃ s₀, openFTL g (initializeFlashMemory g draws) = .ok s₀ ∧
      Settled g (goodBlocks g (initializeFlashMemory g draws))
        (maxCluster g (initializeFlashMemory g draws).badBlockCnt) s₀ := by
    rcases Nat.lt_or_ge g.leastFreeBlocksInFBL free.length with hleast | hleast
    · obtain ⟨s₀, rest, hopen, hrun, -, hpage, -⟩ := hfresh.openFTL_running hleast
      exact ⟨s₀, hopen, by omega, .inl ⟨rest, hrun⟩⟩
    · obtain ⟨s₀, hopen, hrep, hnone, hpage, -⟩ := hfresh.openFTL_reserve _ hleast
      exact ⟨s₀, hopen, by omega, .inr ⟨hnone, free, hrep⟩⟩
  obtain ⟨s₀, hopen, hsettled⟩ := hopen
  unfold initializeFTL at hok
  rw [hopen] at hok
  exact foldlM_write_settled hfresh.good_blocks hsettled
    (fun c hc => initialClusters_admissible hc) hok

/-- Every state of a run is consistent. -/
theorem Initialised.writes_consistent {draws : Draws} {selected : Nat → Bool} {s₀ : Ftl}
    {cs : List Int} (hinit : Initialised g draws selected s₀)
    (hcs : ∀ c ∈ cs, admissible g draws c) (hrun : Writes g s₀ cs s) :
    Consistent g (maxCluster g (initializeFlashMemory g draws).badBlockCnt) s := by
  obtain ⟨_, hfresh⟩ := initializeFlashMemory_fresh g draws
  have hgood := hfresh.good_blocks
  obtain ⟨-, ⟨free, h⟩ | ⟨-, free, h⟩⟩ := writes_settled hrun hinit.settled hgood hcs
  · exact h.rep.consistent hgood
  · exact h.consistent hgood

/-- Draws without exchanges that mark position 1 as bad. -/
def smallDraws : Draws where
  selectedItem i := i - 1
  isBad i := i == 1
  uninitialised _ := 0

/-- A run that stores the first cluster and writes it again. -/
theorem initialised_writes_consistent_small : ∃ s₀ s,
    Initialised smallGeometry smallDraws (fun _ => false) s₀ ∧
      Writes smallGeometry s₀ [0, 0] s ∧
      Consistent smallGeometry
        (maxCluster smallGeometry (initializeFlashMemory smallGeometry smallDraws).badBlockCnt) s := by
  have hall : (do
      let s₀ ← initializeFTL smallGeometry 3 (fun _ => false)
        (initializeFlashMemory smallGeometry smallDraws)
      let s₁ ← secureFTLWriteOneCluster smallGeometry 3 s₀ 0
      secureFTLWriteOneCluster smallGeometry 3 s₁ 0).isOk = true := by decide +kernel
  cases h₀ : initializeFTL smallGeometry 3 (fun _ => false)
      (initializeFlashMemory smallGeometry smallDraws) with
  | error e => rw [h₀] at hall; cases hall
  | ok s₀ =>
    rw [h₀] at hall
    change (do
      let s₁ ← secureFTLWriteOneCluster smallGeometry 3 s₀ 0
      secureFTLWriteOneCluster smallGeometry 3 s₁ 0).isOk = true at hall
    cases h₁ : secureFTLWriteOneCluster smallGeometry 3 s₀ 0 with
    | error e => rw [h₁] at hall; cases hall
    | ok s₁ =>
      rw [h₁] at hall
      change (secureFTLWriteOneCluster smallGeometry 3 s₁ 0).isOk = true at hall
      cases h₂ : secureFTLWriteOneCluster smallGeometry 3 s₁ 0 with
      | error e => rw [h₂] at hall; cases hall
      | ok s =>
        have hinit : Initialised smallGeometry smallDraws (fun _ => false) s₀ := ⟨3, h₀⟩
        have hrun : Writes smallGeometry s₀ [0, 0] s := .cons ⟨3, h₁⟩ (.cons ⟨3, h₂⟩ (.nil s))
        exact ⟨s₀, s, hinit, hrun,
          hinit.writes_consistent (by unfold admissible; decide +kernel) hrun⟩

end WiscKey.Flash
