import WiscKey.Flash.DftlCounters
import WiscKey.Flash.ListIntegrity

/-!
# Blocks the demand-based layer abandons

`AllocateDataBlk` replaces the block that its own collection copied to, without a look at the pages
that are left in it. These pages are lost until the block is collected, and a block of which no page
was programmed is lost for good: it is on no list and not current, and its page 0 hides it from
every later collection. No other step abandons a page.
-/

namespace WiscKey.Flash

variable {g : Geometry} {t : Timing} {data : Finset Int} {free : List Int} {s s' : Dftl}

/-- No block leaks. -/
structure DftlNoLeak (g : Geometry) (s : Dftl) : Prop where
  /-- Every good block is listed, current, a translation block, full, or visible to the
  collector. -/
  kept : ∀ b ∈ goodBlocks g s.dev,
    b ∈ freeBlocks s.dev ∨ b = s.currentDataBlkNum ∨ b ∈ translationBlks g s ∨
      (∀ p ∈ g.pages, s.dev.flashMemory b p ≠ freePage) ∨ s.dev.flashMemory b 0 ≠ freePage
  /-- No block that was taken is abandoned with a free page: such a block is the current one. -/
  unabandoned : ∀ b ∈ goodBlocks g s.dev, b ∉ freeBlocks s.dev → b ∉ translationBlks g s →
    (∃ p ∈ g.pages, s.dev.flashMemory b p = freePage) → b = s.currentDataBlkNum

instance (g : Geometry) (s : Dftl) : Decidable (DftlNoLeak g s) :=
  decidable_of_iff ((∀ b ∈ goodBlocks g s.dev,
    b ∈ freeBlocks s.dev ∨ b = s.currentDataBlkNum ∨ b ∈ translationBlks g s ∨
      (∀ p ∈ g.pages, s.dev.flashMemory b p ≠ freePage) ∨ s.dev.flashMemory b 0 ≠ freePage) ∧
    ∀ b ∈ goodBlocks g s.dev, b ∉ freeBlocks s.dev → b ∉ translationBlks g s →
      (∃ p ∈ g.pages, s.dev.flashMemory b p = freePage) → b = s.currentDataBlkNum)
    ⟨fun h => ⟨h.1, h.2⟩, fun h => ⟨h.kept, h.unabandoned⟩⟩

/-- A collection at this state fills the block that it copies to last. -/
def NoWaste (g : Geometry) (s : Dftl) : Prop :=
  Collects g s → ∀ victims page,
    Collection g s.dev s.currentDataBlkPageNum victims page → page = g.maxPage

/-- The condition on a call under which it abandons nothing. -/
def CallNoWaste (g : Geometry) (s : Dftl) : DftlCall → Prop
  | .write _ => NoWaste g s
  | .read _ => True

/-- Nothing leaks as long as every page of every other data block was programmed. -/
theorem DataRep.noLeak_iff (h : DataRep g data free s.dev.flashMemory s)
    (hdata : data ⊆ g.blocks) : DftlNoLeak g s ↔ ∀ p ∈ g.pages, Programmed p data free s := by
  constructor
  · intro hnoleak p hp b hb hbf hbc hpage
    obtain ⟨hgood, hunlisted, htrans⟩ := (h.inUse_iff hdata).mpr ⟨hb, hbf⟩
    exact hbc (hnoleak.unabandoned b hgood hunlisted htrans ⟨p, hp, hpage⟩)
  · intro hprogrammed
    have hused : ∀ b ∈ goodBlocks g s.dev, b ∉ freeBlocks s.dev → b ∉ translationBlks g s →
        b ≠ s.currentDataBlkNum → ∀ p ∈ g.pages, s.dev.flashMemory b p ≠ freePage := by
      intro b hgood hbf hbt hbc p hp
      obtain ⟨hb, hbf'⟩ := (h.inUse_iff hdata).mp ⟨hgood, hbf, hbt⟩
      exact hprogrammed p hp b hb hbf' hbc
    constructor
    · intro b hgood
      by_cases hbf : b ∈ freeBlocks s.dev
      · exact .inl hbf
      by_cases hbc : b = s.currentDataBlkNum
      · exact .inr (.inl hbc)
      by_cases hbt : b ∈ translationBlks g s
      · exact .inr (.inr (.inl hbt))
      exact .inr (.inr (.inr (.inl (hused b hgood hbf hbt hbc))))
    · rintro b hgood hbf hbt ⟨p, hp, hpage⟩
      by_contra hbc
      exact hused b hgood hbf hbt hbc p hp hpage

/-- A call fills the block that it copies to when it programs all its pages. -/
theorem callNoWaste_iff (call : DftlCall) :
    CallNoWaste g s call ↔ ∀ p ∈ g.pages, CallReaches g p s call := by
  have hpos := g.maxPage_pos
  cases call with
  | read c => exact iff_of_true trivial fun _ _ => trivial
  | write c =>
    constructor
    · intro hfills p hp hcollects victims page hcoll
      rw [hfills hcollects victims page hcoll]
      exact (g.mem_pages.mp hp).2
    · intro hreaches hcollects victims page hcoll
      have hlast := hreaches (g.maxPage - 1) (g.mem_pages.mpr ⟨by omega, by omega⟩) hcollects
        victims page hcoll
      have hle := hcoll.page_le
      omega

/-- Where nothing leaked, a call leaks nothing if and only if it does not collect, or its
collection fills the block that it copied to last. -/
theorem DftlSettled.noLeak_step (h : DftlSettled g data free s) (hnoleak : DftlNoLeak g s)
    {call : DftlCall} (hc : 0 ≤ call.clusterID) (hok : DftlReturns g t s call s') :
    DftlNoLeak g s' ↔ CallNoWaste g s call := by
  obtain ⟨free', h', -, hprogrammed⟩ := h.step hc hok
  have hbefore := (h.ready.rep.noLeak_iff h.blocks).mp hnoleak
  rw [h'.ready.rep.noLeak_iff h'.blocks, callNoWaste_iff]
  exact forall₂_congr fun p hp => hprogrammed p hp (hbefore p hp)

theorem DftlSettled.noLeak_run {calls : List DftlCall} (h : DftlSettled g data free s)
    (hnoleak : DftlNoLeak g s)
    (hrun : Run (StepWhen (DftlReturns g t) (CallNoWaste g)) s calls s')
    (hcalls : ∀ call ∈ calls, 0 ≤ call.clusterID) : DftlNoLeak g s' := by
  induction hrun generalizing free with
  | nil => exact hnoleak
  | cons head tail ih =>
    have hc := hcalls _ List.mem_cons_self
    obtain ⟨free₁, h₁, -⟩ := h.step hc head.2
    exact ih h₁ ((h.noLeak_step hnoleak hc head.2).mpr head.1)
      fun call hm => hcalls call (List.mem_cons_of_mem _ hm)

/-- An initialised device leaks nothing. -/
theorem DftlOpened.noLeak {memory : Int → LRUElementD} {sramSize : Int}
    (h : DftlOpened g memory sramSize data free s) : DftlNoLeak g s :=
  (h.settled.ready.rep.noLeak_iff h.settled.blocks).mpr fun p _ => h.programmed p

/-- From the initialisation on, no block leaks in a run whose collections all fill the block that
they copied to last. -/
theorem dftlRun_noLeak {draws : Draws} {sramSize : Int} {memory : Int → LRUElementD}
    {calls : List DftlCall} (hinit : DftlInitialised g t draws sramSize memory s)
    (hrun : Run (StepWhen (DftlReturns g t) (CallNoWaste g)) s calls s')
    (hcalls : ∀ call ∈ calls, 0 ≤ call.clusterID) : DftlNoLeak g s' := by
  obtain ⟨data, free, hopened⟩ := hinit.opened
  exact hopened.settled.noLeak_run hopened.noLeak hrun hcalls

/-- A run without a leak in any of its states meets the condition in all of them. -/
theorem DftlSettled.noWaste_of_noLeak {calls : List DftlCall} (h : DftlSettled g data free s)
    (hnoleak : DftlNoLeak g s) (hrun : Run (fun s call s' => DftlReturns g t s call s' ∧
      decide (DftlNoLeak g s') = true) s calls s') (hcalls : ∀ call ∈ calls, 0 ≤ call.clusterID) :
    Run (StepWhen (DftlReturns g t) (CallNoWaste g)) s calls s' := by
  induction hrun generalizing free with
  | nil => exact .nil _
  | cons head _ ih =>
    have hc := hcalls _ List.mem_cons_self
    have hnoleak₁ := of_decide_eq_true head.2
    obtain ⟨free₁, h₁, -⟩ := h.step hc head.1
    exact .cons ⟨(h.noLeak_step hnoleak hc head.1).mp hnoleak₁, head.1⟩
      (ih h₁ hnoleak₁ fun call hm => hcalls call (List.mem_cons_of_mem _ hm))

/-- The seventh of these writes collects two blocks, each with a live page, and their pages fill
the block that it took for them. -/
theorem dftlRun_noLeak_small : ∃ s s' : Dftl,
    DftlInitialised smallGeometry smallTiming noneBad 1 clearedMemory s ∧
      Run (StepWhen (DftlReturns smallGeometry smallTiming) (CallNoWaste smallGeometry)) s
        [.write 0, .write 1, .write 2, .write 3, .write 0, .write 2, .write 4] s' ∧
      s'.accessStatistics.totalBlockEraseCount = 2 ∧ DftlNoLeak smallGeometry s' := by
  obtain ⟨s, s', hinit, hchecked, herased⟩ := @exists_checkedRun smallGeometry smallTiming 9 noneBad
    1 clearedMemory [.write 0, .write 1, .write 2, .write 3, .write 0, .write 2, .write 4]
    (fun _ _ s' => decide (DftlNoLeak smallGeometry s'))
    (fun s' => decide (s'.accessStatistics.totalBlockEraseCount = 2)) (by decide +kernel)
  obtain ⟨data, free, hopened⟩ := hinit.opened
  have hrun := hopened.settled.noWaste_of_noLeak hopened.noLeak hchecked (by decide)
  exact ⟨s, s', hinit, hrun, of_decide_eq_true herased, dftlRun_noLeak hinit hrun (by decide)⟩

/-- The seventh of these writes collects two blocks without a live page and abandons the block
that it took from the reserve for their pages. -/
theorem dftlRun_leaks : ∃ s s' : Dftl,
    DftlInitialised smallGeometry smallTiming noneBad 1 clearedMemory s ∧
      DftlRun smallGeometry smallTiming s
        [.write 0, .write 1, .write 0, .write 1, .write 0, .write 1, .write 0] s' ∧
      ¬ DftlNoLeak smallGeometry s' := by
  obtain ⟨s, s', hinit, hrun, hleaks⟩ := @exists_dftlRun smallGeometry smallTiming 9 noneBad 1
    clearedMemory [.write 0, .write 1, .write 0, .write 1, .write 0, .write 1, .write 0]
    (fun s => decide (¬ DftlNoLeak smallGeometry s)) (by decide +kernel)
  exact ⟨s, s', hinit, hrun, of_decide_eq_true hleaks⟩

end WiscKey.Flash
