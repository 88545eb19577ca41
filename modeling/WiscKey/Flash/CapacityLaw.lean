import WiscKey.Flash.FtlCapacity

/-!
# The capacity law

A call returns exactly when there is a block outside the reserve and, where the call has to
collect, the stored clusters leave one usable block empty besides. A run of calls, from the
initial ones of `InitializeFTL` on, returns exactly when every call of it fits in this sense.
-/

namespace WiscKey.Flash

variable {g : Geometry} {good : Finset Int} {clusters : Int} {free : List Int} {s s' : Ftl}
  {c : Int} {usable : Nat}

/-- The loops around a write, on a full current block: they return if there is a block above the
reserve or room in the full blocks. -/
theorem Running.ensureFreePage_returns (h : Running g good clusters free s)
    (hgood : good ⊆ g.blocks) (hcard : good.card = g.leastFreeBlocksInFBL + usable)
    (hd : SmallDivider g s.invalidPage2ValidPageDivider)
    (hspace : g.maxPage ≤ s.currentFreePageID → free.length ≤ g.leastFreeBlocksInFBL →
      storedClusters clusters s.ftlTable < (usable - 1) * g.maxPage) :
    ∃ fuel s', Flash.ensureFreePage g fuel s = .ok s' ∧
      SmallDivider g s'.invalidPage2ValidPageDivider := by
  -- a state with room, or with a block above the reserve, needs no collection
  have habove : ∀ {free : List Int} {s : Ftl}, Running g good clusters free s →
      SmallDivider g s.invalidPage2ValidPageDivider →
      (g.maxPage ≤ s.currentFreePageID → g.leastFreeBlocksInFBL < free.length) →
      ∃ s', Flash.ensureFreePage g 2 s = .ok s' ∧
        SmallDivider g s'.invalidPage2ValidPageDivider := by
    intro free s h hd hlt
    by_cases hfull : g.maxPage ≤ s.currentFreePageID
    · obtain ⟨b, d', rest, -, hb, hget, -⟩ := h.takeCurrent hgood hfull (hlt hfull)
      refine ⟨{ s with dev := d', currentFreeBlockID := b, currentFreePageID := 0 }, ?_, hd⟩
      rw [Flash.ensureFreePage, if_pos hfull, hget]
      change (if b = -1 then _ else Flash.ensureFreePage g 1 _) = _
      rw [if_neg hb, Flash.ensureFreePage, if_neg]
      have hpos := g.maxPage_pos
      simp only
      omega
    · exact ⟨s, by rw [Flash.ensureFreePage, if_neg hfull], hd⟩
  rcases Nat.lt_or_ge g.leastFreeBlocksInFBL free.length with hlt | hge
  · obtain ⟨s', hok⟩ := habove h hd fun _ => hlt
    exact ⟨2, s', hok⟩
  · by_cases hfull : g.maxPage ≤ s.currentFreePageID
    · have hlen : free.length = g.leastFreeBlocksInFBL := Nat.le_antisymm hge h.least
      have hdrop := h.dropCurrent hgood hfull
      obtain ⟨fuel, s₁, hgc, hd₁⟩ :=
        hdrop.collect_returns hgood hcard hlen hd (hspace hfull hge) (Nat.lt_succ_self _)
      obtain ⟨free₁, h₁, hlt₁, -⟩ := hdrop.collect hgood hgc
      obtain ⟨s', hok, hd'⟩ := habove h₁ hd₁ fun _ => hlt₁
      refine ⟨max fuel 2 + 1, s', ?_, hd'⟩
      rw [Flash.ensureFreePage, if_pos hfull, getFreeBlock_reserve h.rep.listed hge]
      change (do
        let s ← ftlGarbageCollection g (max fuel 2) { s with currentFreeBlockID := -1 }
        Flash.ensureFreePage g (max fuel 2) s) = _
      rw [ftlGarbageCollection_mono (Nat.le_max_left _ _) hgc]
      exact ensureFreePage_mono (Nat.le_max_right _ _) hok
    · obtain ⟨s', hok⟩ := habove h hd fun hfull' => absurd hfull' hfull
      exact ⟨2, s', hok⟩

/-- On a full current block at the reserve without room, the loops do not return. -/
theorem Running.ensureFreePage_stuck (h : Running g good clusters free s)
    (hgood : good ⊆ g.blocks) (hcard : good.card = g.leastFreeBlocksInFBL + usable)
    (hfull : g.maxPage ≤ s.currentFreePageID) (hge : free.length ≤ g.leastFreeBlocksInFBL)
    (hspace : (usable - 1) * g.maxPage ≤ storedClusters clusters s.ftlTable) {fuel : Nat} :
    Flash.ensureFreePage g fuel s ≠ .ok s' := by
  cases fuel with
  | zero => exact fun hok => by cases hok
  | succ fuel =>
    intro hok
    rw [Flash.ensureFreePage, if_pos hfull, getFreeBlock_reserve h.rep.listed hge] at hok
    change (do
      let s ← ftlGarbageCollection g fuel { s with currentFreeBlockID := -1 }
      Flash.ensureFreePage g fuel s) = _ at hok
    cases hgc : ftlGarbageCollection g fuel { s with currentFreeBlockID := -1 } with
    | error e => rw [hgc] at hok; cases hok
    | ok s₁ =>
      exact (h.dropCurrent hgood hfull).collect_stuck hgood hcard
        (Nat.le_antisymm hge h.least) hspace hgc

/-- Storing a cluster adds one to the stored clusters unless it was stored. -/
theorem storedClusters_write (hc : 0 ≤ c) (hcl : c < clusters) (hcur : s.currentFreeBlockID ≠ -1) :
    storedClusters clusters (ftlProgram (forgetCluster s c) c).ftlTable =
      storedClusters clusters s.ftlTable +
        if (s.ftlTable c).block = ftlPointToNull then 1 else 0 := by
  have htable : (ftlProgram (forgetCluster s c) c).ftlTable =
      Function.update s.ftlTable c ⟨s.currentFreeBlockID, s.currentFreePageID⟩ := by
    simp [ftlProgram]
  rw [htable, storedClusters, storedClusters]
  split
  · rename_i hnull
    exact countCells_update_add (mem_intRange_toNat.mpr ⟨hc, hcl⟩) (not_not.mpr hnull) hcur
  · rename_i hst
    exact countCells_update_of_iff (iff_of_true hcur hst)

/-- A write from a current block with room is the write itself and the loops behind it. -/
theorem Running.writeReturns (h : Running g good clusters free s) (hgood : good ⊆ g.blocks)
    (hc : 0 ≤ c) (hcl : c < clusters) (hroom : s.currentFreePageID < g.maxPage) :
    WriteReturns g s c s' ↔
      ∃ fuel, Flash.ensureFreePage g fuel (ftlProgram (forgetCluster s c) c) = .ok s' := by
  have hsecure : ∀ fuel, secureFTLWriteOneCluster g (fuel + 1) s c =
      Flash.ensureFreePage g (fuel + 1) (ftlProgram (forgetCluster s c) c) := by
    intro fuel
    have hstay : Flash.ensureFreePage g (fuel + 1) s = .ok s := by
      rw [Flash.ensureFreePage, if_neg (by omega)]
    unfold secureFTLWriteOneCluster
    rw [hstay]
    change (do let s ← ftlWriteOneCluster g s c; Flash.ensureFreePage g (fuel + 1) s) = _
    rw [(h.write hgood hc hcl hroom).1]
    rfl
  constructor
  · rintro ⟨fuel, hok⟩
    have hok' := secureFTLWriteOneCluster_mono (Nat.le_succ fuel) hok
    rw [hsecure] at hok'
    exact ⟨_, hok'⟩
  · rintro ⟨fuel, hok⟩
    have hok' := ensureFreePage_mono (Nat.le_succ fuel) hok
    rw [← hsecure] at hok'
    exact ⟨_, hok'⟩

/-- The call fits: there is a block outside the reserve, and if the write fills the current block
while the free list is at its reserve, then it leaves fewer clusters stored than one block less
than the usable ones can hold. -/
def Fits (g : Geometry) (bad : Nat) (s : Ftl) (clusterID : Int) : Prop :=
  g.leastFreeBlocksInFBL + bad < g.maxBlock ∧
    (s.currentFreePageID + 1 = g.maxPage →
      s.dev.blocksInFreeBlockList ≤ g.leastFreeBlocksInFBL →
      storedClusters (maxCluster g bad) s.ftlTable +
          (if (s.ftlTable clusterID).block = ftlPointToNull then 1 else 0) <
        (g.maxBlock - g.leastFreeBlocksInFBL - bad - 1) * g.maxPage)

/-- The number of good blocks, from the count of the bad ones. -/
theorem Fresh.card_good {d : Device} (h : Fresh g good free d) :
    good.card + d.badBlockCnt = g.maxBlock := by
  have heq : free.toFinset = good := by
    ext b
    rw [List.mem_toFinset]
    exact ⟨h.listed.mem_good b, h.free_all b⟩
  rw [← heq, List.toFinset_card_of_nodup h.listed.nodup]
  exact h.length_add_bad

/-- The states between calls, with the divider still small. -/
structure Between (g : Geometry) (draws : Draws) (s : Ftl) : Prop where
  room : s.currentFreePageID < g.maxPage
  divider : SmallDivider g s.invalidPage2ValidPageDivider
  running : g.leastFreeBlocksInFBL + (initializeFlashMemory g draws).badBlockCnt < g.maxBlock →
    ∃ free, Running g (goodBlocks g (initializeFlashMemory g draws))
      (maxCluster g (initializeFlashMemory g draws).badBlockCnt) free s
  reserve : g.maxBlock ≤ g.leastFreeBlocksInFBL + (initializeFlashMemory g draws).badBlockCnt →
    s.currentFreeBlockID = -1

variable {draws : Draws}

/-- Between calls, a call returns exactly when it fits. -/
theorem Between.writeReturns_iff (h : Between g draws s) (hc : admissible g draws c) :
    (∃ s', WriteReturns g s c s') ↔ Fits g (initializeFlashMemory g draws).badBlockCnt s c := by
  obtain ⟨free₀, hfresh⟩ := initializeFlashMemory_fresh g draws
  have hgood := hfresh.good_blocks
  have hcardBad := hfresh.card_good
  by_cases husable : g.leastFreeBlocksInFBL + (initializeFlashMemory g draws).badBlockCnt <
      g.maxBlock
  · obtain ⟨free, hrun⟩ := h.running husable
    have hcard : (goodBlocks g (initializeFlashMemory g draws)).card =
        g.leastFreeBlocksInFBL + (g.maxBlock - g.leastFreeBlocksInFBL -
          (initializeFlashMemory g draws).badBlockCnt) := by omega
    have hcur := hrun.current_ne h.room
    have hwritten := (hrun.write hgood hc.1 hc.2 h.room).2
    have hstored := storedClusters_write hc.1 hc.2 hcur
    have hpage : (ftlProgram (forgetCluster s c) c).currentFreePageID =
        s.currentFreePageID + 1 := by simp [ftlProgram]
    have hdivider : (ftlProgram (forgetCluster s c) c).invalidPage2ValidPageDivider =
        s.invalidPage2ValidPageDivider := by simp [ftlProgram]
    have hcount := hrun.rep.listed.count
    have hroom := h.room
    constructor
    · rintro ⟨s', hret⟩
      obtain ⟨fuel, hok⟩ := (hrun.writeReturns hgood hc.1 hc.2 h.room).mp hret
      refine ⟨husable, fun hlast hlist => ?_⟩
      by_contra hspace
      refine hwritten.ensureFreePage_stuck hgood hcard ?_ ?_ ?_ hok
      · omega
      · omega
      · rw [hstored]
        exact Nat.le_of_not_lt hspace
    · rintro ⟨-, hfits⟩
      obtain ⟨fuel, s', hok, -⟩ := hwritten.ensureFreePage_returns hgood hcard
        (by rw [hdivider]; exact h.divider) (fun hfull hlist => by
          rw [hstored]
          exact hfits (by omega) (by omega))
      exact ⟨s', (hrun.writeReturns hgood hc.1 hc.2 h.room).mpr ⟨fuel, hok⟩⟩
  · refine iff_of_false ?_ fun hfits => husable hfits.1
    rintro ⟨s', hret⟩
    exact not_writeReturns_of_no_current h.room (h.reserve (Nat.le_of_not_lt husable)) hret

/-- A returning call leads to the next state between calls. -/
theorem Between.write (h : Between g draws s) (hc : admissible g draws c)
    (hret : WriteReturns g s c s') : Between g draws s' := by
  obtain ⟨free₀, hfresh⟩ := initializeFlashMemory_fresh g draws
  have hgood := hfresh.good_blocks
  have hcardBad := hfresh.card_good
  have hfits := (h.writeReturns_iff hc).mp ⟨s', hret⟩
  have husable := hfits.1
  obtain ⟨free, hrun⟩ := h.running husable
  obtain ⟨fuel, hok⟩ := hret
  obtain ⟨free', hrun', hroom', -⟩ := hrun.secureWrite hgood hc.1 hc.2 hok
  refine ⟨hroom', ?_, fun _ => ⟨free', hrun'⟩, fun hle => absurd husable (Nat.not_lt.mpr hle)⟩
  have hcard : (goodBlocks g (initializeFlashMemory g draws)).card =
      g.leastFreeBlocksInFBL + (g.maxBlock - g.leastFreeBlocksInFBL -
        (initializeFlashMemory g draws).badBlockCnt) := by omega
  have hroom := h.room
  have hcount := hrun.rep.listed.count
  have hpage : (ftlProgram (forgetCluster s c) c).currentFreePageID =
      s.currentFreePageID + 1 := by simp [ftlProgram]
  have hdivider : (ftlProgram (forgetCluster s c) c).invalidPage2ValidPageDivider =
      s.invalidPage2ValidPageDivider := by simp [ftlProgram]
  obtain ⟨fuel₁, s₁, hok₁, hd₁⟩ :=
    (hrun.write hgood hc.1 hc.2 h.room).2.ensureFreePage_returns hgood hcard
      (by rw [hdivider]; exact h.divider) (fun hfull hlist => by
        rw [storedClusters_write hc.1 hc.2 (hrun.current_ne h.room)]
        exact hfits.2 (by omega) (by omega))
  have hsame := ((hrun.writeReturns hgood hc.1 hc.2 h.room).mpr ⟨fuel₁, hok₁⟩).unique ⟨fuel, hok⟩
  rw [← hsame]
  exact hd₁

theorem Between.markAccessed (h : Between g draws s) : Between g draws (markAccessed s c) := by
  refine ⟨h.room, h.divider, fun husable => ?_, h.reserve⟩
  obtain ⟨free, hrun⟩ := h.running husable
  exact ⟨free, hrun.markAccessed⟩

/-- The state before the first write. -/
theorem openFTL_between (g : Geometry) (draws : Draws) :
    ∃ s, openFTL g (initializeFlashMemory g draws) = .ok s ∧ Between g draws s := by
  obtain ⟨free, hfresh⟩ := initializeFlashMemory_fresh g draws
  have hlen := hfresh.length_add_bad
  have hpos := g.maxPage_pos
  rcases Nat.lt_or_ge g.leastFreeBlocksInFBL free.length with hleast | hleast
  · obtain ⟨s, rest, hopen, hrun, -, hpage, hd, -⟩ := hfresh.openFTL_running hleast
    refine ⟨s, hopen, by omega, ?_, fun _ => ⟨rest, hrun⟩, fun hle => by omega⟩
    rw [hd]
    exact smallDivider_one
  · obtain ⟨s, hopen, -, hnone, hpage, hd⟩ :=
      hfresh.openFTL_reserve (maxCluster g (initializeFlashMemory g draws).badBlockCnt) hleast
    refine ⟨s, hopen, by omega, ?_, fun hlt => by omega, fun _ => hnone⟩
    rw [hd]
    exact smallDivider_one

section Runs

/-- Every call of the list fits in the state it finds; `after` is what its caller adds. -/
def AllFit (g : Geometry) (bad : Nat) (after : Ftl → Int → Ftl) : Ftl → List Int → Prop
  | _, [] => True
  | s, c :: cs => Fits g bad s c ∧ ∀ s', WriteReturns g s c s' → AllFit g bad after (after s' c) cs

variable {selected : Nat → Bool} {cs : List Int}

/-- Calls fit behind others when they fit in the states that these lead to. -/
theorem allFit_append_iff {bad : Nat} {more : List Int} :
    AllFit g bad (fun s _ => s) s (cs ++ more) ↔ AllFit g bad (fun s _ => s) s cs ∧
      ∀ s', Writes g s cs s' → AllFit g bad (fun s _ => s) s' more := by
  induction cs generalizing s with
  | nil =>
    constructor
    · intro h
      refine ⟨trivial, fun s' hrun => ?_⟩
      cases hrun
      exact h
    · exact fun h => h.2 s (.nil s)
  | cons c cs ih =>
    simp only [List.cons_append, AllFit, ih, and_assoc]
    refine and_congr_right fun _ => ?_
    constructor
    · intro h
      refine ⟨fun s₁ hret => (h s₁ hret).1, fun s' hrun => ?_⟩
      cases hrun with
      | cons head tail => exact (h _ head).2 s' tail
    · rintro ⟨hfit, hmore⟩ s₁ hret
      exact ⟨hfit s₁ hret, fun s' hrun => hmore s' (.cons hret hrun)⟩

/-- More fuel changes nothing for writes that return. -/
theorem foldlM_secureFTLWriteOneCluster_mono {fuel fuel' : Nat} (hle : fuel ≤ fuel')
    (h : cs.foldlM (secureFTLWriteOneCluster g fuel) s = .ok s') :
    cs.foldlM (secureFTLWriteOneCluster g fuel') s = .ok s' := by
  induction cs generalizing s with
  | nil => exact h
  | cons c cs ih =>
    rw [List.foldlM_cons] at h ⊢
    cases hwrite : secureFTLWriteOneCluster g fuel s c with
    | error e =>
      rw [hwrite] at h
      cases h
    | ok s₁ =>
      rw [hwrite] at h
      rw [secureFTLWriteOneCluster_mono hle hwrite]
      exact ih h

/-- Returning writes return with one fuel for all of them. -/
theorem exists_foldlM_of_writes (hrun : Writes g s cs s') :
    ∃ fuel, cs.foldlM (secureFTLWriteOneCluster g fuel) s = .ok s' := by
  induction hrun with
  | nil => exact ⟨0, rfl⟩
  | cons head _ ih =>
    obtain ⟨fuel, hwrite⟩ := head
    obtain ⟨fuel', hrest⟩ := ih
    refine ⟨max fuel fuel', ?_⟩
    rw [List.foldlM_cons, secureFTLWriteOneCluster_mono (Nat.le_max_left _ _) hwrite]
    exact foldlM_secureFTLWriteOneCluster_mono (Nat.le_max_right _ _) hrest

theorem writes_unique {s₁ s₂ : Ftl} (h₁ : Writes g s cs s₁) (h₂ : Writes g s cs s₂) : s₁ = s₂ := by
  induction h₁ with
  | nil =>
    cases h₂
    rfl
  | cons head _ ih =>
    cases h₂ with
    | cons head' tail' => exact ih (head'.unique head ▸ tail')

/-- Requests return, one after the other, exactly when all of them fit. -/
theorem Between.writes_iff (h : Between g draws s) (hcs : ∀ c ∈ cs, admissible g draws c) :
    (∃ s', Writes g s cs s') ↔
      AllFit g (initializeFlashMemory g draws).badBlockCnt (fun s _ => s) s cs := by
  induction cs generalizing s with
  | nil => exact iff_of_true ⟨s, .nil s⟩ trivial
  | cons c cs ih =>
    have hc := hcs c List.mem_cons_self
    have hrest : ∀ c ∈ cs, admissible g draws c := fun c hc => hcs c (List.mem_cons_of_mem _ hc)
    constructor
    · rintro ⟨s', hrun⟩
      cases hrun with
      | @cons _ s₁ _ _ _ head tail =>
        refine ⟨(h.writeReturns_iff hc).mp ⟨s₁, head⟩, fun s₂ hret => ?_⟩
        obtain rfl := head.unique hret
        exact (ih (h.write hc head) hrest).mp ⟨s', tail⟩
    · rintro ⟨hfits, hall⟩
      obtain ⟨s₁, hret⟩ := (h.writeReturns_iff hc).mpr hfits
      obtain ⟨s', hrun⟩ := (ih (h.write hc hret) hrest).mpr (hall s₁ hret)
      exact ⟨s', .cons hret hrun⟩

theorem writes_between (hrun : Writes g s cs s') (h : Between g draws s)
    (hcs : ∀ c ∈ cs, admissible g draws c) : Between g draws s' := by
  induction hrun with
  | nil => exact h
  | cons head tail ih =>
    exact ih (h.write (hcs _ List.mem_cons_self) head)
      fun c hc => hcs c (List.mem_cons_of_mem _ hc)

/-- The initial writes of `InitializeFTL`, granted some fuel. -/
def initialWrites (g : Geometry) (fuel : Nat) (s : Ftl) (cs : List Int) : Except Fault Ftl :=
  cs.foldlM (fun s c => do
    let s ← secureFTLWriteOneCluster g fuel s c
    Except.ok (markAccessed s c)) s

theorem initialWrites_cons {fuel : Nat} {s₁ : Ftl}
    (h : secureFTLWriteOneCluster g fuel s c = .ok s₁) :
    initialWrites g fuel s (c :: cs) = initialWrites g fuel (markAccessed s₁ c) cs := by
  unfold initialWrites
  rw [List.foldlM_cons, h]
  rfl

/-- Initial writes that return, returned one after the other. -/
theorem initialWrites_cons_ok {fuel : Nat} (h : initialWrites g fuel s (c :: cs) = .ok s') :
    ∃ s₁, secureFTLWriteOneCluster g fuel s c = .ok s₁ ∧
      initialWrites g fuel (markAccessed s₁ c) cs = .ok s' := by
  cases hwrite : secureFTLWriteOneCluster g fuel s c with
  | error e =>
    unfold initialWrites at h
    rw [List.foldlM_cons, hwrite] at h
    cases h
  | ok s₁ => exact ⟨s₁, rfl, by rwa [initialWrites_cons hwrite] at h⟩

theorem initialWrites_mono {fuel fuel' : Nat} (hle : fuel ≤ fuel')
    (h : initialWrites g fuel s cs = .ok s') : initialWrites g fuel' s cs = .ok s' := by
  induction cs generalizing s with
  | nil => exact h
  | cons c cs ih =>
    obtain ⟨s₁, hwrite, hrest⟩ := initialWrites_cons_ok h
    rw [initialWrites_cons (secureFTLWriteOneCluster_mono hle hwrite)]
    exact ih hrest

theorem initialWrites_between {fuel : Nat} (hok : initialWrites g fuel s cs = .ok s')
    (h : Between g draws s) (hcs : ∀ c ∈ cs, admissible g draws c) : Between g draws s' := by
  induction cs generalizing s with
  | nil =>
    obtain rfl : s = s' := Except.ok.inj hok
    exact h
  | cons c cs ih =>
    obtain ⟨s₁, hwrite, hrest⟩ := initialWrites_cons_ok hok
    have h₁ := h.write (hcs c List.mem_cons_self) ⟨fuel, hwrite⟩
    exact ih hrest h₁.markAccessed fun c hc => hcs c (List.mem_cons_of_mem _ hc)

/-- So do the initial writes. -/
theorem Between.initialWrites_iff (h : Between g draws s)
    (hcs : ∀ c ∈ cs, admissible g draws c) :
    (∃ fuel s', initialWrites g fuel s cs = .ok s') ↔
      AllFit g (initializeFlashMemory g draws).badBlockCnt Flash.markAccessed s cs := by
  induction cs generalizing s with
  | nil => exact iff_of_true ⟨0, s, rfl⟩ trivial
  | cons c cs ih =>
    have hc := hcs c List.mem_cons_self
    have hrest : ∀ c ∈ cs, admissible g draws c := fun c hc => hcs c (List.mem_cons_of_mem _ hc)
    constructor
    · rintro ⟨fuel, s', hok⟩
      obtain ⟨s₁, hwrite, hok₁⟩ := initialWrites_cons_ok hok
      have hret : WriteReturns g s c s₁ := ⟨fuel, hwrite⟩
      refine ⟨(h.writeReturns_iff hc).mp ⟨s₁, hret⟩, fun s₂ hret₂ => ?_⟩
      obtain rfl := hret.unique hret₂
      exact (ih (h.write hc hret).markAccessed hrest).mp ⟨fuel, s', hok₁⟩
    · rintro ⟨hfits, hall⟩
      obtain ⟨s₁, fuel, hwrite⟩ := (h.writeReturns_iff hc).mpr hfits
      have hret : WriteReturns g s c s₁ := ⟨fuel, hwrite⟩
      obtain ⟨fuel', s', hok⟩ := (ih (h.write hc hret).markAccessed hrest).mpr (hall s₁ hret)
      refine ⟨max fuel fuel', s', ?_⟩
      rw [initialWrites_cons (secureFTLWriteOneCluster_mono (Nat.le_max_left _ _) hwrite)]
      exact initialWrites_mono (Nat.le_max_right _ _) hok

/-- Every call of the run returns, and the divider of the collector has not overflowed. -/
def CallsReturn (g : Geometry) (draws : Draws) (selected : Nat → Bool) (cs : List Int) : Prop :=
  ∃ s₀ s, Initialised g draws selected s₀ ∧ Writes g s₀ cs s ∧ 0 < s.invalidPage2ValidPageDivider

/-- Every call of the run fits: the initial ones after the opening, the requests after these. -/
def CallsFit (g : Geometry) (draws : Draws) (selected : Nat → Bool) (cs : List Int) : Prop :=
  ∃ s, openFTL g (initializeFlashMemory g draws) = .ok s ∧
    AllFit g (initializeFlashMemory g draws).badBlockCnt markAccessed s
      (initialClusters g (initializeFlashMemory g draws).badBlockCnt selected) ∧
    ∀ s₀, Initialised g draws selected s₀ →
      AllFit g (initializeFlashMemory g draws).badBlockCnt (fun s _ => s) s₀ cs

/-- The writes of `InitializeFTL` start from the opened layer. -/
theorem initialised_iff (hopen : openFTL g (initializeFlashMemory g draws) = .ok s) {s₀ : Ftl} :
    Initialised g draws selected s₀ ↔ ∃ fuel, initialWrites g fuel s
      (initialClusters g (initializeFlashMemory g draws).badBlockCnt selected) = .ok s₀ := by
  unfold Initialised initializeFTL
  rw [hopen]
  exact Iff.rfl

/-- A run of calls returns exactly when every call of it fits. -/
theorem callsReturn_iff_callsFit (g : Geometry) (draws : Draws) (selected : Nat → Bool)
    (cs : List Int) (hcs : ∀ c ∈ cs, admissible g draws c) :
    CallsReturn g draws selected cs ↔ CallsFit g draws selected cs := by
  obtain ⟨s, hopen, hbetween⟩ := openFTL_between g draws
  have hadm : ∀ c ∈ initialClusters g (initializeFlashMemory g draws).badBlockCnt selected,
      admissible g draws c := fun c hc => initialClusters_admissible hc
  have hinitial := hbetween.initialWrites_iff hadm
  constructor
  · rintro ⟨s₀, s₁, hinit, hrun, -⟩
    obtain ⟨fuel, hok⟩ := (initialised_iff hopen).mp hinit
    refine ⟨s, hopen, hinitial.mp ⟨fuel, s₀, hok⟩, fun s₀' hinit' => ?_⟩
    obtain ⟨fuel', hok'⟩ := (initialised_iff hopen).mp hinit'
    have hok₁ := initialWrites_mono (Nat.le_max_left fuel fuel') hok
    have hok₁' := initialWrites_mono (Nat.le_max_right fuel fuel') hok'
    obtain rfl : s₀ = s₀' := Except.ok.inj (hok₁.symm.trans hok₁')
    exact ((initialWrites_between hok hbetween hadm).writes_iff hcs).mp ⟨s₁, hrun⟩
  · rintro ⟨s', hopen', hfit, hreq⟩
    obtain rfl : s = s' := Except.ok.inj (hopen.symm.trans hopen')
    obtain ⟨fuel, s₀, hok⟩ := hinitial.mpr hfit
    have hinit := (initialised_iff hopen).mpr ⟨fuel, hok⟩
    have hbetween₀ := initialWrites_between hok hbetween hadm
    obtain ⟨s₁, hrun⟩ := (hbetween₀.writes_iff hcs).mpr (hreq s₀ hinit)
    exact ⟨s₀, s₁, hinit, hrun, (writes_between hrun hbetween₀ hcs).divider.pos⟩

/-- The clusters stored after a run of requests are those stored before and the requested ones. -/
theorem writes_stored_iff (hrun : Writes g s cs s') (h : Between g draws s)
    (hcs : ∀ c ∈ cs, admissible g draws c) (c : Int) :
    (s'.ftlTable c).block = ftlPointToNull ↔
      c ∉ cs ∧ (s.ftlTable c).block = ftlPointToNull := by
  induction hrun with
  | nil => simp
  | @cons s s₁ s' clusterID rest head tail ih =>
    have hc := hcs _ List.mem_cons_self
    obtain ⟨free₀, hfresh⟩ := initializeFlashMemory_fresh g draws
    obtain ⟨free, hrunning⟩ := h.running ((h.writeReturns_iff hc).mp ⟨s₁, head⟩).1
    obtain ⟨fuel, hok⟩ := id head
    obtain ⟨-, -, -, hnull⟩ := hrunning.secureWrite hfresh.good_blocks hc.1 hc.2 hok
    rw [ih (h.write hc head) (fun c hc => hcs c (List.mem_cons_of_mem _ hc)), hnull c,
      List.mem_cons]
    tauto

/-- As many clusters as the usable blocks have pages. -/
def usableClusters (g : Geometry) (bad : Nat) : List Int :=
  (List.range ((g.maxBlock - g.leastFreeBlocksInFBL - bad) * g.maxPage)).map fun i : Nat => (i : Int)

theorem usableClusters_admissible
    (husable : g.leastFreeBlocksInFBL + (initializeFlashMemory g draws).badBlockCnt < g.maxBlock)
    (hc : c ∈ usableClusters g (initializeFlashMemory g draws).badBlockCnt) :
    admissible g draws c := by
  obtain ⟨i, hi, rfl⟩ := List.mem_map.mp hc
  refine ⟨Int.natCast_nonneg _, lt_of_lt_of_le ?_ (usable_le_maxCluster g husable.le)⟩
  exact_mod_cast List.mem_range.mp hi

/-- No run of calls stores that many, whatever the initialisation stored. -/
theorem usableClusters_not_callsReturn
    (husable : g.leastFreeBlocksInFBL + (initializeFlashMemory g draws).badBlockCnt < g.maxBlock) :
    ¬ CallsReturn g draws selected
      (usableClusters g (initializeFlashMemory g draws).badBlockCnt) := by
  rintro ⟨s₀, s, hinit, hrun, -⟩
  have hcs : ∀ c ∈ usableClusters g (initializeFlashMemory g draws).badBlockCnt,
      admissible g draws c := fun c hc => usableClusters_admissible husable hc
  obtain ⟨s', hopen, hbetween⟩ := openFTL_between g draws
  obtain ⟨fuel, hok⟩ := (initialised_iff hopen).mp hinit
  have hbetween₀ := initialWrites_between hok hbetween fun c hc => initialClusters_admissible hc
  have hbetween₁ := writes_between hrun hbetween₀ hcs
  obtain ⟨free₀, hfresh⟩ := initializeFlashMemory_fresh g draws
  have hcardBad := hfresh.card_good
  obtain ⟨free, hrunning⟩ := hbetween₁.running husable
  have hlt := hrunning.rep.storedClusters_lt hfresh.good_blocks
    (g.maxBlock - g.leastFreeBlocksInFBL - (initializeFlashMemory g draws).badBlockCnt) (by omega)
    hrunning.least (hrunning.current_ne hbetween₁.room) hbetween₁.room
  have hsub : (usableClusters g (initializeFlashMemory g draws).badBlockCnt).toFinset ⊆
      (intRange (maxCluster g (initializeFlashMemory g draws).badBlockCnt).toNat).filter
        fun c => (s.ftlTable c).block ≠ ftlPointToNull := by
    intro c hc
    have hmem := List.mem_toFinset.mp hc
    refine Finset.mem_filter.mpr ⟨mem_intRange_toNat.mpr (hcs c hmem), fun hnull => ?_⟩
    exact ((writes_stored_iff hrun hbetween₀ hcs c).mp hnull).1 hmem
  have hcard := Finset.card_le_card hsub
  have hnodup : (usableClusters g (initializeFlashMemory g draws).badBlockCnt).Nodup :=
    List.nodup_range.map fun i j hij => Int.ofNat_inj.mp hij
  rw [List.toFinset_card_of_nodup hnodup] at hcard
  simp only [usableClusters, List.length_map, List.length_range] at hcard
  exact Nat.not_le.mpr hlt hcard

/-- Draws that mark no block as bad. -/
def goodDraws : Draws where
  selectedItem _ := 0
  isBad _ := false
  uninitialised _ := 0

theorem megabyte_admissible : ∀ c ∈ (List.range 128).map fun i : Nat => (i : Int),
    admissible megabyteGeometry goodDraws c := by
  intro c hc
  unfold admissible
  rw [initializeFlashMemory_badBlockCnt megabyteGeometry goodDraws fun _ => rfl]
  obtain ⟨i, hi, rfl⟩ := List.mem_map.mp hc
  have hlt := List.mem_range.mp hi
  have hmax : maxCluster megabyteGeometry 0 = 128 := by decide
  omega

/-- The law for the first and the last cluster of this device. -/
theorem megabyte_calls_return_iff :
    CallsReturn megabyteGeometry goodDraws (fun _ => false) [0, 127] ↔
      CallsFit megabyteGeometry goodDraws (fun _ => false) [0, 127] :=
  callsReturn_iff_callsFit _ _ _ _ fun c hc => megabyte_admissible c (by
    simp only [List.mem_cons, List.not_mem_nil, or_false] at hc
    rcases hc with rfl | rfl <;> decide)

/-- On this device the requests for all the 128 clusters below `MaxCluster` do not all return. -/
theorem megabyte_fill_does_not_return :
    maxCluster megabyteGeometry (initializeFlashMemory megabyteGeometry goodDraws).badBlockCnt = 128 ∧
      (∀ c ∈ (List.range 128).map fun i : Nat => (i : Int), admissible megabyteGeometry goodDraws c) ∧
      ¬ CallsReturn megabyteGeometry goodDraws (fun _ => false)
        ((List.range 128).map fun i : Nat => (i : Int)) := by
  have hbad := initializeFlashMemory_badBlockCnt megabyteGeometry goodDraws fun _ => rfl
  have hlist : (List.range 128).map (fun i : Nat => (i : Int)) = usableClusters megabyteGeometry
      (initializeFlashMemory megabyteGeometry goodDraws).badBlockCnt := by
    rw [hbad]
    rfl
  have husable : megabyteGeometry.leastFreeBlocksInFBL +
      (initializeFlashMemory megabyteGeometry goodDraws).badBlockCnt < megabyteGeometry.maxBlock := by
    rw [hbad]
    decide
  refine ⟨by rw [hbad]; decide, megabyte_admissible, ?_⟩
  rw [hlist]
  exact usableClusters_not_callsReturn husable

end Runs

end WiscKey.Flash
