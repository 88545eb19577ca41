import WiscKey.Flash.BlInvariant
import WiscKey.Library.WriteBuffer

/-!
# The write buffer of the block-level simulation is transparent

What a reader sees of the layer is a page content for every cluster, and what decides
whether an update exits is the set of mapped logical blocks. On this view two updates of a
block are as good as their merger, so the collected clusters of the simulation are a buffer
in front of a merging store.
-/

namespace WiscKey.Flash

/-- What reads and updates see of the layer. -/
@[ext] structure BlView where
  content : Int → Int → Int
  mapped : Finset Int

/-- An array of updated clusters. -/
structure UpdatedClusters where
  page : Int → Int
  cluster_or_null : ∀ p, page p = blPointToNull ∨ 0 ≤ page p

/-- The later clusters replace the earlier ones. -/
def UpdatedClusters.merge (u u' : UpdatedClusters) : UpdatedClusters where
  page p := if u'.page p ≠ blPointToNull then u'.page p else u.page p
  cluster_or_null p := by
    split
    · exact u'.cluster_or_null p
    · exact u.cluster_or_null p

variable (g : Geometry)

/-- One updated cluster. -/
def singleCluster (c : Int) : UpdatedClusters where
  page p := if 0 ≤ c ∧ p = g.logicalPage c then c else blPointToNull
  cluster_or_null p := by
    split
    · rename_i hc
      exact .inr hc.1
    · exact .inl rfl

/-- The view after an update. -/
def BlView.updated (v : BlView) (l : Int) (u : UpdatedClusters) : BlView where
  content := Function.update v.content l fun p =>
    if p ∈ g.pages then pageAfterUpdate (u.page p) (v.content l p) else freePage
  mapped := insert l v.mapped

/-- An update on the view, with `capacity` for the number of blocks outside the reserve. -/
def BlView.update (capacity : Nat) (v : BlView) (l : Int) (u : UpdatedClusters) :
    Except Fault BlView :=
  if l < 0 ∨ g.maxBlock ≤ l then .error .badIndex
  else if l ∉ v.mapped ∧ capacity ≤ v.mapped.card then .error .exit
  else .ok (v.updated g l u)

/-- A read on the view. -/
def BlView.read (v : BlView) (c : Int) : Except Fault Bool :=
  if g.logicalBlock c < 0 ∨ g.maxBlock ≤ g.logicalBlock c then .error .badIndex
  else .ok (v.content (g.logicalBlock c) (g.logicalPage c) == c)

/-- An updated page does not depend on what an earlier update of it left. -/
theorem pageAfterUpdate_merge (u u' : UpdatedClusters) (p stored : Int) :
    pageAfterUpdate (u'.page p) (pageAfterUpdate (u.page p) stored) =
      pageAfterUpdate ((u.merge u').page p) stored := by
  unfold UpdatedClusters.merge
  by_cases hu' : u'.page p = blPointToNull
  · by_cases hu : u.page p = blPointToNull
    · simp only [hu', hu, pageAfterUpdate, ne_eq, not_true_eq_false, if_false]
      split <;> simp_all
    · have hcluster := (u.cluster_or_null p).resolve_left hu
      have hlive : u.page p ≠ invalidPage ∧ u.page p ≠ freePage := by
        unfold invalidPage freePage
        omega
      simp [hu', hu, pageAfterUpdate, hlive]
  · simp [hu', pageAfterUpdate]

theorem BlView.updated_merge (v : BlView) (l : Int) (u u' : UpdatedClusters) :
    (v.updated g l u).updated g l u' = v.updated g l (u.merge u') := by
  ext l' p
  · by_cases hll : l' = l
    · subst l'
      simp only [updated, Function.update_self]
      split
      · exact pageAfterUpdate_merge u u' p _
      · rfl
    · simp only [updated, Function.update_of_ne hll]
  · simp only [updated, Finset.insert_idem]

/-- The layer as a store whose updates of one block merge. -/
def blStore (capacity : Nat) : MergingStore BlView Int UpdatedClusters Int Fault where
  update := BlView.update g capacity
  read := BlView.read g
  merge := UpdatedClusters.merge
  update_merge v l u u' := by
    by_cases hl : l < 0 ∨ g.maxBlock ≤ l
    · simp only [BlView.update, if_pos hl]
      rfl
    · by_cases hroom : l ∉ v.mapped ∧ capacity ≤ v.mapped.card
      · simp only [BlView.update, if_neg hl, if_pos hroom]
        rfl
      · have hroom' : ¬ (l ∉ (v.updated g l u).mapped ∧
            capacity ≤ (v.updated g l u).mapped.card) := by
          simp [BlView.updated]
        simp only [BlView.update, if_neg hl, if_neg hroom, ok_bind, if_neg hroom',
          BlView.updated_merge]

/-- The clusters from `c` on. -/
def clustersFrom : Int → Nat → List Int
  | _, 0 => []
  | c, n + 1 => c :: clustersFrom (c + 1) n

/-- A written cluster as a command of the store. -/
def writeCommand (c : Int) : StoreCommand Int UpdatedClusters Int :=
  .write (g.logicalBlock c) (singleCluster g c)

/-- A request of the trace as commands of the store. -/
def OneRequest.commands (r : OneRequest) : List (StoreCommand Int UpdatedClusters Int) :=
  match r.accessType with
  | .write => (clustersFrom r.startCluster r.length).map (writeCommand g)
  | .read => [.read (clustersFrom r.startCluster r.length)]

/-- The simulation that updates a block for every written cluster. -/
def blDirectClusters (accessType : AccessType) : Nat → Int → Bl → Traced Bool Fault Bl
  | 0, _, s => pure s
  | n + 1, currentCluster, s =>
    match accessType with
    | .write => do
      let s ← Traced.lift (blUpdateOneBlock g s (g.logicalBlock currentCluster)
        (Function.update noUpdatedClusters (g.logicalPage currentCluster) currentCluster))
      blDirectClusters accessType n (currentCluster + 1) s
    | .read => do
      let found ← Traced.answer (blReadOneCluster g s currentCluster)
      if found then blDirectClusters accessType n (currentCluster + 1) s else pure s

/-- The reference: `BLUpdateOneBlock` for each written cluster at once. -/
def blDirectSimulation (requests : List OneRequest) (s : Bl) : Traced Bool Fault Bl :=
  requests.foldlM (fun s r => blDirectClusters g r.accessType r.length r.startCluster s) s

/-- The view of a state. -/
def blView (s : Bl) : BlView := ⟨logicalPageContent g s, mappedBlocks g s⟩

variable {g} {good : Finset Int} {s : Bl} {v : BlView}

/-- A state that keeps the invariant, and its view. -/
structure Viewed (g : Geometry) (good : Finset Int) (s : Bl) (v : BlView) : Prop where
  rep : ∃ free, BlRep g good free s
  view : blView g s = v

/-- A read of a cluster sees only the view. -/
theorem Viewed.read (h : Viewed g good s v) {c : Int} (hc : 0 ≤ c) :
    blReadOneCluster g s c = v.read g c := by
  rw [← h.view]
  simp only [blReadOneCluster, BlView.read]
  by_cases hblock : g.logicalBlock c < 0 ∨ g.maxBlock ≤ g.logicalBlock c
  · rw [if_pos hblock, if_pos hblock]
  · rw [if_neg hblock, if_neg hblock]
    have hl : g.logicalBlock c ∈ g.blocks := g.mem_blocks.mpr (by omega)
    have hp := g.logicalPage_mem hc
    by_cases hnull : s.blTable (g.logicalBlock c) = blPointToNull
    · have hne : freePage ≠ c := by
        unfold freePage
        omega
      simp [blView, logicalPageContent, hnull, hne]
    · have hmem : g.logicalBlock c ∈ mappedBlocks g s := mem_mappedBlocks.mpr ⟨hl, hnull⟩
      rw [if_neg hnull]
      simp only [blView, logicalPageContent, hmem, hp, and_self, if_true]

/-- An update does on the view what it does on the device. -/
theorem Viewed.update (h : Viewed g good s v) (hgood : good ⊆ g.blocks) (l : Int)
    (u : UpdatedClusters) :
    Traced.Ends (Viewed g good) (blUpdateOneBlock g s l u.page)
      (v.update g (good.card - g.leastFreeBlocksInFBL) l u) := by
  obtain ⟨free, hrep⟩ := h.rep
  obtain rfl := h.view
  unfold BlView.update
  by_cases hl : l < 0 ∨ g.maxBlock ≤ l
  · rw [if_pos hl, blUpdateOneBlock, if_pos hl]
    exact .error _
  · have hblock : l ∈ g.blocks := g.mem_blocks.mpr (by omega)
    rw [if_neg hl]
    by_cases hroom : BlRoom g good s l
    · obtain ⟨s', hok, hupd⟩ := hrep.updateOneBlock hgood hblock hroom u.page
      rw [hok, if_neg]
      · refine .ok ⟨hupd.rep, ?_⟩
        ext l' p
        · by_cases hll : l' = l
          · subst l'
            simp only [blView, BlView.updated, Function.update_self]
            split
            · rename_i hp
              exact hupd.page p hp
            · rename_i hp
              rw [logicalPageContent, if_neg (fun hm => hp hm.2)]
          · simp only [blView, BlView.updated, Function.update_of_ne hll]
            exact hupd.other l' hll p
        · simp only [blView, BlView.updated, hupd.mapped]
      · rintro ⟨hnot, hle⟩
        exact hroom.elim hnot (Nat.not_lt.mpr hle)
    · rw [hrep.updateOneBlock_exit hblock hroom, if_pos]
      · exact .error _
      · simp only [BlRoom, not_or, not_lt] at hroom
        exact hroom

/-- The store of the layer with these good blocks. -/
abbrev goodStore (g : Geometry) (good : Finset Int) :
    MergingStore BlView Int UpdatedClusters Int Fault :=
  blStore g (good.card - g.leastFreeBlocksInFBL)

/-- The collected clusters of the simulation are the pending updates of the buffer. -/
structure BlCollected (g : Geometry) (good : Finset Int) (sim : BlSim)
    (b : Buffered BlView Int UpdatedClusters) : Prop where
  viewed : Viewed g good sim.bl b.store
  none : b.pending = none →
    sim.currentAccessedBlock = -1 ∧ sim.updatedClusters = noUpdatedClusters
  some : ∀ l u, b.pending = some (l, u) →
    0 ≤ l ∧ sim.currentAccessedBlock = l ∧ sim.updatedClusters = u.page

/-- A single updated cluster, as the simulation stores it. -/
theorem singleCluster_page {c : Int} (hc : 0 ≤ c) :
    (singleCluster g c).page = Function.update noUpdatedClusters (g.logicalPage c) c := by
  funext p
  by_cases hp : p = g.logicalPage c
  · subst p
    simp [singleCluster, hc]
  · simp [singleCluster, hp, noUpdatedClusters]

theorem merge_singleCluster (u : UpdatedClusters) {c : Int} (hc : 0 ≤ c) :
    (u.merge (singleCluster g c)).page = Function.update u.page (g.logicalPage c) c := by
  funext p
  have hne : c ≠ blPointToNull := by
    unfold blPointToNull
    omega
  by_cases hp : p = g.logicalPage c
  · subst p
    simp [UpdatedClusters.merge, singleCluster, hc, hne]
  · simp [UpdatedClusters.merge, singleCluster, hp]

/-- The flush at the end of the simulation is that of the buffer. -/
theorem BlCollected.flush {sim : BlSim} {b : Buffered BlView Int UpdatedClusters}
    (h : BlCollected g good sim b) (hgood : good ⊆ g.blocks) :
    Traced.Ends (Viewed g good)
      (if sim.currentAccessedBlock ≠ -1 then
        blUpdateOneBlock g sim.bl sim.currentAccessedBlock sim.updatedClusters
      else .ok sim.bl)
      ((goodStore g good).flush b) := by
  unfold MergingStore.flush
  cases hpending : b.pending with
  | none =>
    rw [if_neg (not_not.mpr (h.none hpending).1)]
    exact .ok h.viewed
  | some lu =>
    obtain ⟨l, u⟩ := lu
    obtain ⟨hl, hcur, hupd⟩ := h.some l u hpending
    rw [hcur, hupd, if_pos (by omega)]
    exact h.viewed.update hgood l u

/-- Nothing is collected after a flush. -/
theorem Viewed.blCollected (h : Viewed g good s v) :
    BlCollected g good ⟨s, noUpdatedClusters, -1⟩ ⟨v, none⟩ :=
  ⟨h, fun _ => ⟨rfl, rfl⟩, fun _ _ hsome => nomatch hsome⟩

/-- A written cluster in the simulation and in the buffer. -/
theorem BlCollected.write {sim : BlSim} {b : Buffered BlView Int UpdatedClusters}
    (h : BlCollected g good sim b) (hgood : good ⊆ g.blocks) {c : Int} (hc : 0 ≤ c) :
    Traced.Corresponds (BlCollected g good)
      (do
        let sim ← Traced.lift (blFlush g sim .write c)
        pure ({ sim with
          updatedClusters := Function.update sim.updatedClusters (g.logicalPage c) c
          currentAccessedBlock := g.logicalBlock c } : BlSim))
      ((goodStore g good).buffered b (writeCommand g c)) := by
  have hlogical := g.logicalBlock_nonneg hc
  unfold writeCommand MergingStore.buffered
  cases hpending : b.pending with
  | none =>
    obtain ⟨hcur, hnone⟩ := h.none hpending
    rw [blFlush, if_neg (fun hf => hf.1 hcur), Traced.lift_ok_bind]
    refine .pure ⟨h.viewed, (fun hn => nomatch hn), ?_⟩
    rintro l u ⟨rfl, rfl⟩
    exact ⟨hlogical, rfl, by rw [singleCluster_page hc, hnone]⟩
  | some lu =>
    obtain ⟨l, u⟩ := lu
    obtain ⟨hl, hcur, hupd⟩ := h.some l u hpending
    by_cases hll : l = g.logicalBlock c
    · simp only [if_pos hll]
      rw [blFlush, if_neg, Traced.lift_ok_bind]
      · refine .pure ⟨h.viewed, (fun hn => nomatch hn), ?_⟩
        rintro l' u' ⟨rfl, rfl⟩
        refine ⟨hlogical, rfl, ?_⟩
        rw [hupd]
        exact (merge_singleCluster u hc).symm
      · rw [hcur, hll]
        simp
    · simp only [if_neg hll]
      rw [blFlush, if_pos ⟨by omega, .inl (by rw [hcur]; exact hll)⟩, hcur, hupd]
      rw [Traced.lift_bind, Traced.bind_assoc]
      refine (Traced.Corresponds.lift (h.viewed.update hgood l u)).bind fun s' v' hs' => ?_
      refine .pure ⟨hs', (fun hn => nomatch hn), ?_⟩
      rintro l' u' ⟨rfl, rfl⟩
      exact ⟨hlogical, rfl, (singleCluster_page hc).symm⟩

/-- The clusters of a write request. -/
theorem BlCollected.writeClusters (hgood : good ⊆ g.blocks) {n : Nat} {c : Int} (hc : 0 ≤ c)
    {sim : BlSim} {b : Buffered BlView Int UpdatedClusters} (h : BlCollected g good sim b) :
    Traced.Corresponds (BlCollected g good) (blAccessClusters g .write n c sim)
      (((clustersFrom c n).map (writeCommand g)).foldlM (goodStore g good).buffered b) := by
  induction n generalizing c sim b with
  | zero => exact .pure h
  | succ n ih =>
    have hstep := (h.write hgood hc).bind fun sim' b' h' => ih (by omega : 0 ≤ c + 1) h'
    rw [Traced.bind_assoc] at hstep
    rw [clustersFrom, List.map_cons, List.foldlM_cons]
    exact hstep

/-- With nothing collected the clusters of a read request are read. -/
theorem Viewed.readClusters {n : Nat} {c : Int} (hc : 0 ≤ c) (h : Viewed g good s v) :
    Traced.Corresponds (BlCollected g good)
      (blAccessClusters g .read n c ⟨s, noUpdatedClusters, -1⟩)
      ((goodStore g good).readAll v (clustersFrom c n) >>= fun _ => pure ⟨v, none⟩) := by
  induction n generalizing c with
  | zero => exact .pure h.blCollected
  | succ n ih =>
    have hread := h.read hc
    have hflush : blFlush g ⟨s, noUpdatedClusters, -1⟩ .read c =
        .ok ⟨s, noUpdatedClusters, -1⟩ := by simp [blFlush]
    simp only [blAccessClusters, hflush, Traced.lift_ok_bind, hread, clustersFrom,
      MergingStore.readAll, Traced.bind_assoc]
    refine Traced.Corresponds.bind (R := Eq) ?_ ?_
    · exact .refl _
    · rintro found _ rfl
      cases found with
      | true => exact ih (by omega)
      | false => exact .pure h.blCollected

/-- The flush before the first cluster that is read. -/
theorem BlCollected.flushRead {sim : BlSim} {b : Buffered BlView Int UpdatedClusters}
    (h : BlCollected g good sim b) (hgood : good ⊆ g.blocks) (c : Int) :
    Traced.Ends (fun sim' v' => ∃ s', Viewed g good s' v' ∧ sim' = ⟨s', noUpdatedClusters, -1⟩)
      (blFlush g sim .read c) ((goodStore g good).flush b) := by
  have hends := h.flush hgood
  by_cases hcur : sim.currentAccessedBlock = -1
  · have hpending : b.pending = Option.none := by
      cases hb : b.pending with
      | none => rfl
      | some lu =>
        have hl := h.some lu.1 lu.2 hb
        omega
    rw [if_neg (not_not.mpr hcur)] at hends
    rw [blFlush, if_neg (fun hf => hf.1 hcur)]
    simp only [MergingStore.flush, hpending]
    refine .ok ⟨sim.bl, h.viewed, ?_⟩
    rw [← (h.none hpending).2, ← hcur]
  · rw [if_pos hcur] at hends
    rw [blFlush, if_pos ⟨hcur, .inr (by simp)⟩]
    generalize blUpdateOneBlock g sim.bl sim.currentAccessedBlock sim.updatedClusters = r at hends ⊢
    generalize (goodStore g good).flush b = r' at hends ⊢
    cases hends with
    | error e => exact .error e
    | ok hv => exact .ok ⟨_, hv, rfl⟩

/-- A read request with a cluster in the simulation and in the buffer. -/
theorem BlCollected.readRequest (hgood : good ⊆ g.blocks) {n : Nat} {c : Int} (hc : 0 ≤ c)
    {sim : BlSim} {b : Buffered BlView Int UpdatedClusters} (h : BlCollected g good sim b) :
    Traced.Corresponds (BlCollected g good) (blAccessClusters g .read (n + 1) c sim)
      ((goodStore g good).buffered b (.read (clustersFrom c (n + 1)))) := by
  have hflush : blAccessClusters g .read (n + 1) c sim =
      Traced.lift (blFlush g sim .read c) >>= fun sim =>
        Traced.answer (blReadOneCluster g sim.bl c) >>= fun found =>
          if found then blAccessClusters g .read n (c + 1) sim else pure sim := rfl
  rw [hflush]
  refine (Traced.Corresponds.lift (h.flushRead hgood c)).bind ?_
  rintro _ v' ⟨s', hv, rfl⟩
  have hnone : blFlush g ⟨s', noUpdatedClusters, -1⟩ .read c =
      .ok ⟨s', noUpdatedClusters, -1⟩ := by simp [blFlush]
  have hread := hv.readClusters hc (n := n + 1)
  simp only [blAccessClusters, hnone, Traced.lift_ok_bind] at hread
  exact hread

/-- A request in the simulation and in the buffer. -/
theorem BlCollected.request (hgood : good ⊆ g.blocks) {r : OneRequest} (hr : 0 ≤ r.startCluster)
    {sim : BlSim} {b : Buffered BlView Int UpdatedClusters} (h : BlCollected g good sim b) :
    Traced.Corresponds (BlCollected g good)
      (blAccessClusters g r.accessType r.length r.startCluster sim)
      ((r.commands g).foldlM (goodStore g good).buffered b) := by
  obtain ⟨accessType, c, n⟩ := r
  cases accessType with
  | write => exact h.writeClusters hgood hr
  | read =>
    change Traced.Corresponds _ _
      ((goodStore g good).buffered b (.read (clustersFrom c n)) >>= pure)
    rw [Traced.bind_pure]
    cases n with
    | zero => exact .pure h
    | succ n => exact h.readRequest hgood hr

/-- The simulation follows the buffered store. -/
theorem Viewed.simulation (h : Viewed g good s v) (hgood : good ⊆ g.blocks)
    {requests : List OneRequest} (hrequests : ∀ r ∈ requests, 0 ≤ r.startCluster) :
    Traced.Corresponds (Viewed g good) (blSimulation g requests s)
      ((requests.flatMap (OneRequest.commands g)).foldlM (goodStore g good).buffered ⟨v, none⟩ >>=
        fun b => Traced.lift ((goodStore g good).flush b)) := by
  rw [Traced.foldlM_flatMap]
  refine Traced.Corresponds.bind (R := BlCollected g good) ?_ ?_
  · refine Traced.Corresponds.foldlM (fun r hr sim b hsim => ?_) h.blCollected
    exact hsim.request hgood (hrequests r hr)
  · intro sim b hsim
    have hends := hsim.flush hgood
    split at hends
    · rename_i hcur
      rw [if_pos hcur]
      exact .lift hends
    · rename_i hcur
      rw [if_neg hcur]
      exact .lift hends

/-- The clusters of a request, each at once, in the layer and in the store. -/
theorem Viewed.directClusters (hgood : good ⊆ g.blocks) {accessType : AccessType} {n : Nat}
    {c : Int} (hc : 0 ≤ c) (h : Viewed g good s v) :
    Traced.Corresponds (Viewed g good) (blDirectClusters g accessType n c s)
      (((⟨accessType, c, n⟩ : OneRequest).commands g).foldlM (goodStore g good).direct v) := by
  cases accessType with
  | write =>
    simp only [OneRequest.commands]
    induction n generalizing c s v with
    | zero => exact .pure h
    | succ n ih =>
      rw [clustersFrom, List.map_cons, List.foldlM_cons]
      simp only [blDirectClusters, ← singleCluster_page hc]
      refine (Traced.Corresponds.lift ?_).bind fun s' v' h' => ih (by omega) h'
      exact h.update hgood _ _
  | read =>
    change Traced.Corresponds _ _ ((goodStore g good).direct v (.read (clustersFrom c n)) >>= pure)
    rw [Traced.bind_pure]
    induction n generalizing c with
    | zero => exact .pure h
    | succ n ih =>
      have hread := h.read hc
      simp only [blDirectClusters, hread, MergingStore.direct, clustersFrom,
        MergingStore.readAll, Traced.bind_assoc]
      refine Traced.Corresponds.bind (R := Eq) (.refl _) ?_
      rintro found _ rfl
      cases found with
      | true => exact ih (by omega)
      | false => exact .pure h

/-- The reference follows the store without a buffer. -/
theorem Viewed.directSimulation (h : Viewed g good s v) (hgood : good ⊆ g.blocks)
    {requests : List OneRequest} (hrequests : ∀ r ∈ requests, 0 ≤ r.startCluster) :
    Traced.Corresponds (Viewed g good) (blDirectSimulation g requests s)
      ((requests.flatMap (OneRequest.commands g)).foldlM (goodStore g good).direct v) := by
  rw [Traced.foldlM_flatMap]
  refine Traced.Corresponds.foldlM (fun r hr s' v' h' => ?_) h
  exact h'.directClusters hgood (hrequests r hr)

/-- The marks of accessed pages are none of the layer's business. -/
theorem BlUsable.accessed {usable : Nat} (h : BlUsable g good usable s) (n : Int)
    (map : Int → Bool) : BlUsable g good usable
      { s with dev := { s.dev with accessedLogicalPages := n, accessedLogicalPageMap := map } } := by
  obtain ⟨⟨free, hrep⟩, hmapped⟩ := h
  exact ⟨⟨free, hrep.listed.congr rfl rfl rfl rfl, hrep.erased, hrep.home, hrep.owner, hrep.count,
    hrep.room⟩, hmapped⟩

/-- The initial data always finds its blocks. -/
theorem blInitialData_rep (g : Geometry) (draws : Draws) (selected : Nat → Bool) :
    ∃ good s, good ⊆ g.blocks ∧
      blInitialData g selected (initializeFlashMemory g draws) = .ok s ∧
      ∃ free, BlRep g good free s := by
  obtain ⟨free, hfresh⟩ := initializeFlashMemory_fresh g draws
  obtain ⟨husable, hroom⟩ := hfresh.blUsable
  have hgood := hfresh.good_blocks
  generalize initializeFlashMemory g draws = d at hfresh husable hroom hgood
  have hblocks := usableBlocks_le g d.badBlockCnt
  have hloop : Meets (fun _ => False) (BlUsable g (goodBlocks g d)
      (usableBlocks g d.badBlockCnt).toNat) (blInitialData g selected d) := by
    refine Meets.foldlM _ husable fun i hi s hs => ?_
    have hmem : (i : Int) ∈ intRange (usableBlocks g d.badBlockCnt).toNat := by
      have hlt := List.mem_range.mp (List.mem_of_mem_filter hi)
      rw [mem_intRange]
      unfold usableBlocks
      omega
    exact (hs.update hgood hroom hblocks hmem _).bind fun s' hs' => hs'.accessed _ _
  obtain ⟨s, hok, hs⟩ := hloop.exists_ok
  exact ⟨_, s, hgood, hok, hs.rep⟩

/-- Both states read every cluster alike. -/
def SameReads (g : Geometry) (clusters : Int) (s s' : Bl) : Prop :=
  ∀ c, 0 ≤ c → c < clusters → blReadOneCluster g s c = blReadOneCluster g s' c

/-- Collecting the clusters of a block changes no answer and no cluster that can be read at
the end, whatever the requests are. -/
theorem blSimulation_transparent (draws : Draws) (selected : Nat → Bool) :
    ∃ s, blInitialData g selected (initializeFlashMemory g draws) = .ok s ∧
      ∀ requests : List OneRequest,
        (∀ r ∈ requests, 0 ≤ r.startCluster ∧ r.startCluster + r.length ≤
          maxCluster g (initializeFlashMemory g draws).badBlockCnt) →
        Traced.Corresponds
          (SameReads g (maxCluster g (initializeFlashMemory g draws).badBlockCnt))
          (blSimulation g requests s) (blDirectSimulation g requests s) := by
  obtain ⟨good, s, hgood, hok, hrep⟩ := blInitialData_rep g draws selected
  refine ⟨s, hok, fun requests hrequests => ?_⟩
  have hstart : ∀ r ∈ requests, 0 ≤ r.startCluster := fun r hr => (hrequests r hr).1
  have hviewed : Viewed g good s (blView g s) := ⟨hrep, rfl⟩
  have hbuffered := hviewed.simulation hgood hstart
  rw [MergingStore.buffered_run] at hbuffered
  refine (hbuffered.join (hviewed.directSimulation hgood hstart)).mono ?_
  rintro s₁ s₂ ⟨v, h₁, h₂⟩ c hc -
  rw [h₁.read hc, h₂.read hc]

/-- A write over two blocks that is read, a write into the first one of them that is read with both,
and a reading of a cluster that was never written. -/
def twoBlockRequests : List OneRequest :=
  [⟨.write, 1, 2⟩, ⟨.read, 1, 2⟩, ⟨.write, 0, 1⟩, ⟨.read, 0, 3⟩, ⟨.read, 3, 1⟩]

/-- Without the buffer the five requests have the same answers. -/
theorem blSimulation_transparent_small : ∃ s,
    blInitialData smallGeometry (fun _ => false) (initializeFlashMemory smallGeometry smallDraws) =
      .ok s ∧
    (blSimulation smallGeometry twoBlockRequests s).log = [true, true, true, true, true, false] ∧
    Traced.Corresponds (SameReads smallGeometry (maxCluster smallGeometry
        (initializeFlashMemory smallGeometry smallDraws).badBlockCnt))
      (blSimulation smallGeometry twoBlockRequests s)
      (blDirectSimulation smallGeometry twoBlockRequests s) := by
  obtain ⟨s, hok, h⟩ := @blSimulation_transparent smallGeometry smallDraws fun _ => false
  refine ⟨s, hok, ?_, h _ (by decide +kernel)⟩
  have hlog : (blInitialData smallGeometry (fun _ => false)
      (initializeFlashMemory smallGeometry smallDraws)).toOption.map
        (fun s => (blSimulation smallGeometry twoBlockRequests s).log) =
      some [true, true, true, true, true, false] := by decide +kernel
  rw [hok] at hlog
  exact Option.some.inj hlog

end WiscKey.Flash
