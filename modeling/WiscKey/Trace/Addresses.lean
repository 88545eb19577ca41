import WiscKey.Flash.CollectorSlack
import WiscKey.Trace.Bounds

/-!
# The clusters of a request

A request of whole sectors addresses the clusters that its sectors lie in, each once. Its last
cluster is outside the table where the sectors of the device are not a number of whole
clusters and the request reaches the rest. A request returns exactly when its clusters are in the
table and its writes fit one after the other.
-/

namespace WiscKey

open Flash

/-- A sector of the request lies in the cluster. -/
def Operation.Overlaps (ratio : Nat) (op : Operation) (c : Int) : Prop :=
  ∃ lba, c * ratio ≤ lba ∧ lba < (c + 1) * ratio ∧
    op.startCluster ≤ lba ∧ lba < op.startCluster + op.length

/-- A call that the layer may see between two requests. -/
inductive LayerCall
  | write (clusterID : Int)
  | collect
  | request (op : Operation)

/-- The call returns. -/
def LayerStep (g : Geometry) (maxCluster : Int) (s : Ftl) : LayerCall → Ftl → Prop
  | .write clusterID, s' => WriteReturns g s clusterID s'
  | .collect, s' => ∃ fuel, ftlGarbageCollection g fuel s = .ok s'
  | .request op, s' => ∃ fuel ok, writewithFTL g maxCluster fuel s op = .ok (s', ok)

/-- The states of the layer from `InitializeFTL` on, between writes and requests that return. -/
inductive Served (g : Geometry) (draws : Draws) (selected : Nat → Bool) : Ftl → Prop
  | initialised {s : Ftl} (h : Initialised g draws selected s) : Served g draws selected s
  | write {s s' : Ftl} {c : Int} (h : Served g draws selected s) (hc : admissible g draws c)
      (hret : WriteReturns g s c s') : Served g draws selected s'
  | request {s s' : Ftl} {fuel : Nat} {op : Operation} {ok : Bool} (h : Served g draws selected s)
      (hret : writewithFTL g (maxCluster g (initializeFlashMemory g draws).badBlockCnt) fuel s op =
        .ok (s', ok)) : Served g draws selected s'

/-- What a write request of `WritewithFTL` does in state `s`. -/
structure AddressesOverlapping (g : Geometry) (maxCluster : Int) (s : Ftl) (op : Operation) :
    Prop where
  /-- The last sector is an `int`. -/
  sectors : op.startCluster + op.length - 1 < 2 ^ 31
  /-- The indices are inside `FTLTable` and the maps of accessed pages. -/
  inside : ∀ c ∈ op.clusters g.pageToLBARatio, 0 ≤ c ∧ c < maxCluster ∧ c < g.maxPage * g.maxBlock
  exact : ∀ c, c ∈ op.clusters g.pageToLBARatio ↔ op.Overlaps g.pageToLBARatio c
  once : (op.clusters g.pageToLBARatio).Nodup
  /-- It returns. -/
  returns : ∃ fuel s', writewithFTL g maxCluster fuel s op = .ok (s', true)
  /-- It has written these clusters then, one after the other. -/
  writes : ∀ fuel s' ok, writewithFTL g maxCluster fuel s op = .ok (s', ok) → ok = true ∧
    Writes g ((op.clusters g.pageToLBARatio).foldl accessCluster s)
      (op.clusters g.pageToLBARatio) s'
  /-- After it has returned, and any other calls have, the reads of its sectors succeed. -/
  reads : ∀ fuel s' ok, writewithFTL g maxCluster fuel s op = .ok (s', ok) →
    ∀ calls s'', Run (LayerStep g maxCluster) s' calls s'' →
    ∀ sub : Operation, sub.accessType = .readType → op.startCluster ≤ sub.startCluster →
      1 ≤ sub.length → sub.startCluster + sub.length ≤ op.startCluster + op.length →
    ∀ fuel', ∃ t, writewithFTL g maxCluster fuel' s'' sub = .ok (t, true)

section Clusters

variable {ratio : Nat} {op sub : Operation} {c : Int}

/-- The truncating divisions give the clusters that the sectors lie in. -/
theorem Operation.mem_clusters_iff_overlaps (hratio : 0 < ratio) (hstart : 0 ≤ op.startCluster)
    (hlength : 1 ≤ op.length) : c ∈ op.clusters ratio ↔ op.Overlaps ratio c := by
  have hpos : (0 : Int) < ratio := by exact_mod_cast hratio
  have hfirst : op.startCluster.tdiv ratio ≤ c ↔ op.startCluster < (c + 1) * ratio := by
    rw [← Int.lt_add_one_iff]
    exact tdiv_lt_iff hratio hstart
  have hlast : c ≤ (op.startCluster - 1 + op.length).tdiv ratio ↔
      c * ratio ≤ op.startCluster - 1 + op.length := by
    rw [Int.tdiv_eq_ediv_of_nonneg (by omega)]
    exact Int.le_ediv_iff_mul_le hpos
  rw [mem_clusters, hfirst, hlast]
  constructor
  · rintro ⟨hbefore, hbehind⟩
    have hwidth : c * ratio < (c + 1) * ratio := by
      rw [Int.add_mul]
      omega
    refine ⟨max op.startCluster (c * ratio), le_max_right _ _, max_lt hbefore hwidth,
      le_max_left _ _, ?_⟩
    exact max_lt (by omega) (by omega)
  · rintro ⟨lba, hlow, hhigh, hstart', hend⟩
    exact ⟨by omega, by omega⟩

/-- No cluster is addressed twice. -/
theorem Operation.clusters_nodup : (op.clusters ratio).Nodup := by
  refine List.nodup_range.map fun i j heq => ?_
  exact Int.ofNat_inj.mp (Int.add_left_cancel heq)

/-- The clusters of a sub-range are among those of the range. -/
theorem Operation.Overlaps.of_sub (h : sub.Overlaps ratio c)
    (hstart : op.startCluster ≤ sub.startCluster)
    (hend : sub.startCluster + sub.length ≤ op.startCluster + op.length) :
    op.Overlaps ratio c := by
  obtain ⟨lba, hlow, hhigh, hfirst, hlast⟩ := h
  exact ⟨lba, hlow, hhigh, by omega, by omega⟩

end Clusters

variable {g : Geometry} {clusters : Int} {s s' : Ftl} {op : Operation}

/-- A call that returns keeps what is stored. -/
theorem LayerStep.keeps {call : LayerCall} (h : LayerStep g clusters s call s') :
    KeepsMapped s s' := by
  cases call with
  | write clusterID =>
    obtain ⟨fuel, hok⟩ := h
    exact (secureFTLWriteOneCluster_keeps hok).1
  | collect =>
    obtain ⟨fuel, hok⟩ := h
    exact ftlGarbageCollection_keeps hok
  | request op =>
    obtain ⟨fuel, ok, hok⟩ := h
    exact (writewithFTL_keeps hok).2.1

/-- So do any calls that return. -/
theorem layerRun_keeps {calls : List LayerCall} (h : Run (LayerStep g clusters) s calls s') :
    KeepsMapped s s' := by
  refine h.invariant (fun s' => KeepsMapped s s') (.refl s) ?_
  intro s₁ call s₂ hkeeps hstep
  exact hkeeps.trans hstep.keeps

/-- A write request that returns is a run of writes to its clusters. -/
theorem writewithFTL_writes (htype : op.accessType = .writeType) {fuel : Nat} {ok : Bool}
    (h : writewithFTL g clusters fuel s op = .ok (s', ok)) : ok = true ∧
      Writes g ((op.clusters g.pageToLBARatio).foldl accessCluster s)
        (op.clusters g.pageToLBARatio) s' := by
  simp only [writewithFTL] at h
  split at h
  · rw [htype] at h
    obtain ⟨s₁, hwrites, h⟩ := exists_of_bind_eq_ok h
    obtain ⟨rfl, rfl⟩ := Prod.mk.inj (Except.ok.inj h)
    exact ⟨rfl, Run.of_foldlM_ok (fun _ _ _ hstep => ⟨fuel, hstep⟩) hwrites⟩
  · cases h

/-! ## Requests that return -/

section Returning

variable {draws : Draws} {selected : Nat → Bool} {c : Int} {cs : List Int} {bad : Nat}

/-- A write returns with the marks of accessed pages exactly when it does without them. -/
theorem writeReturns_unmark : WriteReturns g (unmark s) c s' ↔
    ∃ t, WriteReturns g s c t ∧ unmark t = s' := by
  unfold WriteReturns
  simp only [← secureFTLWriteOneCluster_unmark]
  constructor
  · rintro ⟨fuel, hok⟩
    cases hwrite : secureFTLWriteOneCluster g fuel s c with
    | error e =>
      rw [hwrite] at hok
      cases hok
    | ok t =>
      rw [hwrite] at hok
      exact ⟨t, ⟨fuel, hwrite⟩, Except.ok.inj hok⟩
  · rintro ⟨t, ⟨fuel, hwrite⟩, rfl⟩
    exact ⟨fuel, by rw [hwrite]; rfl⟩

/-- So whether writes fit does not depend on the marks. -/
theorem allFit_unmark : AllFit g bad (fun s _ => s) (unmark s) cs ↔
    AllFit g bad (fun s _ => s) s cs := by
  induction cs generalizing s with
  | nil => exact Iff.rfl
  | cons c cs ih =>
    refine and_congr Iff.rfl ?_
    constructor
    · intro h s₁ hret
      exact ih.mp (h _ (writeReturns_unmark.mpr ⟨s₁, hret, rfl⟩))
    · rintro h s₁ hret
      obtain ⟨t, ht, rfl⟩ := writeReturns_unmark.mp hret
      exact ih.mpr (h t ht)

/-- Two states that differ in the marks only. -/
theorem allFit_congr (h : unmark s = unmark s') :
    AllFit g bad (fun s _ => s) s cs ↔ AllFit g bad (fun s _ => s) s' cs := by
  rw [← allFit_unmark, h, allFit_unmark]

theorem between_accessCluster (h : Between g draws s) : Between g draws (accessCluster s c) := by
  unfold accessCluster
  split
  · exact h
  · exact h.markAccessed

theorem between_foldl_accessCluster (h : Between g draws s) :
    Between g draws (cs.foldl accessCluster s) := by
  induction cs generalizing s with
  | nil => exact h
  | cons c cs ih => exact ih (between_accessCluster h)

/-- The clusters of a request that returns are admissible. -/
theorem admissible_of_writewithFTL {fuel : Nat} {ok : Bool} (h : writewithFTL g
    (maxCluster g (initializeFlashMemory g draws).badBlockCnt) fuel s op = .ok (s', ok)) :
    ∀ c ∈ op.clusters g.pageToLBARatio, admissible g draws c :=
  (writewithFTL_keeps h).1

/-- A returning request leads to the next state between calls. -/
theorem between_writewithFTL {fuel : Nat} {ok : Bool} (hbetween : Between g draws s)
    (h : writewithFTL g (maxCluster g (initializeFlashMemory g draws).badBlockCnt) fuel s op =
      .ok (s', ok)) : Between g draws s' := by
  have hadm := admissible_of_writewithFTL h
  have hstart := @between_foldl_accessCluster _ _ _ (op.clusters g.pageToLBARatio) hbetween
  cases htype : op.accessType with
  | readType =>
    simp only [writewithFTL, htype] at h
    split at h
    · obtain ⟨rfl, -⟩ := Prod.mk.inj (Except.ok.inj h)
      exact hstart
    · cases h
  | writeType => exact writes_between (writewithFTL_writes htype h).2 hstart hadm

theorem Served.between (h : Served g draws selected s) : Between g draws s := by
  induction h with
  | initialised h =>
    obtain ⟨s₀, hopen, hbetween⟩ := openFTL_between g draws
    obtain ⟨fuel, hok⟩ := (initialised_iff hopen).mp h
    exact initialWrites_between hok hbetween fun c hc => initialClusters_admissible hc
  | write _ hc hret ih => exact ih.write hc hret
  | request _ hret ih => exact between_writewithFTL ih hret

/-- A request for clusters of the table passes the test of its indices. -/
theorem all_inside (h : ∀ c ∈ cs, admissible g draws c) : (cs.all fun c =>
    0 ≤ c && c < maxCluster g (initializeFlashMemory g draws).badBlockCnt) = true := by
  simpa [admissible] using h

/-- A read request returns when its clusters are in the table. -/
theorem writewithFTL_read_returns (htype : op.accessType = .readType)
    (h : ∀ c ∈ op.clusters g.pageToLBARatio, admissible g draws c) : ∃ fuel s' ok, writewithFTL g
      (maxCluster g (initializeFlashMemory g draws).badBlockCnt) fuel s op = .ok (s', ok) := by
  refine ⟨0, (op.clusters g.pageToLBARatio).foldl accessCluster s,
    (op.clusters g.pageToLBARatio).all
      (ftlReadOneCluster ((op.clusters g.pageToLBARatio).foldl accessCluster s)), ?_⟩
  simp only [writewithFTL, all_inside h, if_true, htype]

/-- A write request returns exactly when its clusters are in the table and its writes fit. -/
theorem writewithFTL_returns_iff (hbetween : Between g draws s) (htype : op.accessType = .writeType) :
    (∃ fuel s', writewithFTL g (maxCluster g (initializeFlashMemory g draws).badBlockCnt) fuel s
        op = .ok (s', true)) ↔
      (∀ c ∈ op.clusters g.pageToLBARatio, admissible g draws c) ∧
        AllFit g (initializeFlashMemory g draws).badBlockCnt (fun s _ => s) s
          (op.clusters g.pageToLBARatio) := by
  have hmarks := unmark_foldl_accessCluster s (op.clusters g.pageToLBARatio)
  have hstart := @between_foldl_accessCluster _ _ _ (op.clusters g.pageToLBARatio) hbetween
  rw [← allFit_congr hmarks]
  constructor
  · rintro ⟨fuel, s', hok⟩
    have hadm := admissible_of_writewithFTL hok
    exact ⟨hadm, (hstart.writes_iff hadm).mp ⟨s', (writewithFTL_writes htype hok).2⟩⟩
  · rintro ⟨hadm, hfit⟩
    obtain ⟨s', hwrites⟩ := (hstart.writes_iff hadm).mpr hfit
    obtain ⟨fuel, hok⟩ := exists_foldlM_of_writes hwrites
    refine ⟨fuel, s', ?_⟩
    simp only [writewithFTL, all_inside hadm, if_true, htype, hok]
    rfl

end Returning

/-- From every state that the layer reaches, a write request inside the sectors of the device
returns, addresses exactly the clusters of its sectors and can be read afterwards, exactly when its
last cluster has an entry in the tables and the device has room for its writes. -/
theorem addressesOverlapping_iff {draws : Draws} {selected : Nat → Bool}
    (h : Served g draws selected s) (htype : op.accessType = .writeType)
    (hstart : 0 ≤ op.startCluster) (hlength : 1 ≤ op.length) (hend : op.startCluster + op.length ≤
      maxLBA g (initializeFlashMemory g draws).badBlockCnt) :
    AddressesOverlapping g (maxCluster g (initializeFlashMemory g draws).badBlockCnt) s op ↔
      (op.startCluster + op.length - 1).tdiv g.pageToLBARatio <
          maxCluster g (initializeFlashMemory g draws).badBlockCnt ∧
        (op.startCluster + op.length - 1).tdiv g.pageToLBARatio < g.maxPage * g.maxBlock ∧
        AllFit g (initializeFlashMemory g draws).badBlockCnt (fun s _ => s) s
          (op.clusters g.pageToLBARatio) := by
  have hratio := g.pageToLBARatio_pos
  have hreturns := writewithFTL_returns_iff h.between htype
  have hsum : op.startCluster + op.length - 1 = op.startCluster - 1 + op.length := by omega
  rw [hsum]
  have hexact : ∀ c, c ∈ op.clusters g.pageToLBARatio ↔ op.Overlaps g.pageToLBARatio c :=
    fun c => Operation.mem_clusters_iff_overlaps hratio hstart hlength
  constructor
  · intro h
    have hlast : (op.startCluster - 1 + op.length).tdiv g.pageToLBARatio ∈
        op.clusters g.pageToLBARatio := by
      refine Operation.mem_clusters.mpr ⟨?_, le_rfl⟩
      rw [Int.tdiv_eq_ediv_of_nonneg hstart, Int.tdiv_eq_ediv_of_nonneg (by omega)]
      exact Int.ediv_le_ediv (by exact_mod_cast hratio) (by omega)
    obtain ⟨-, htable, hmaps⟩ := h.inside _ hlast
    exact ⟨htable, hmaps, (hreturns.mp h.returns).2⟩
  · rintro ⟨htable, hmaps, hfit⟩
    have hinside : ∀ c ∈ op.clusters g.pageToLBARatio, 0 ≤ c ∧
        c < maxCluster g (initializeFlashMemory g draws).badBlockCnt ∧
          c < g.maxPage * g.maxBlock := by
      intro c hc
      obtain ⟨hfirst, hle⟩ := Operation.mem_clusters.mp hc
      have hnonneg : 0 ≤ op.startCluster.tdiv g.pageToLBARatio :=
        Int.tdiv_nonneg hstart (Int.natCast_nonneg _)
      exact ⟨hnonneg.trans hfirst, hle.trans_lt htable, hle.trans_lt hmaps⟩
    have hsectors := maxLBA_lt g (initializeFlashMemory g draws).badBlockCnt
    refine ⟨by omega, hinside, hexact, Operation.clusters_nodup, ?_, ?_, ?_⟩
    · exact hreturns.mpr ⟨fun c hc => ⟨(hinside c hc).1, (hinside c hc).2.1⟩, hfit⟩
    · exact fun fuel s' ok hok => writewithFTL_writes htype hok
    · intro fuel s' ok hok calls s'' hcalls sub hread hsubstart hsublength hsubend fuel'
      obtain ⟨-, -, hstored⟩ := writewithFTL_keeps hok
      have hsub : ∀ c ∈ sub.clusters g.pageToLBARatio, c ∈ op.clusters g.pageToLBARatio := by
        intro c hc
        rw [Operation.mem_clusters_iff_overlaps hratio (by omega) hsublength] at hc
        exact (hexact c).mpr (hc.of_sub hsubstart hsubend)
      refine writewithFTL_read hread (fun c hc => ?_) fun c hc => ?_
      · obtain ⟨hc0, hcm, -⟩ := hinside c (hsub c hc)
        exact ⟨hc0, hcm⟩
      · exact layerRun_keeps hcalls c (hstored htype c (hsub c hc))

/-- Without initial clusters, `InitializeFTL` opens the layer. -/
theorem initialised_of_open {draws : Draws}
    (h : openFTL g (initializeFlashMemory g draws) = .ok s) :
    Initialised g draws (fun _ => false) s := by
  refine (initialised_iff h).mpr ⟨0, ?_⟩
  simp only [initialClusters, List.filter_false, List.flatMap_nil]
  rfl

/-- On the device of odd sizes, where cluster 11 was written before, the write of the twenty sectors
behind the fifth one returns, and so on. -/
theorem addressesOverlapping_iff_odd : ∃ s, Served oddGeometry goodDraws (fun _ => false) s ∧
    ftlReadOneCluster s 11 = true ∧ AddressesOverlapping oddGeometry (maxCluster oddGeometry
      (initializeFlashMemory oddGeometry goodDraws).badBlockCnt) s ⟨.writeType, 5, 20⟩ := by
  obtain ⟨s₀, hopen, hbetween⟩ := openFTL_between oddGeometry goodDraws
  have hadm : ∀ c ∈ ([11] ++ [0, 1, 2, 3] : List Int), admissible oddGeometry goodDraws c :=
    fun c hc => oddGeometry_admissible ((by decide :
      ∀ c ∈ ([11] ++ [0, 1, 2, 3] : List Int), 0 ≤ c ∧ c < 16) c hc)
  have hok : (([11] ++ [0, 1, 2, 3]).foldlM (secureFTLWriteOneCluster oddGeometry 2) s₀).isOk := by
    have hdecide : (oddWrites ([11] ++ [0, 1, 2, 3])).isOk = true := by decide +kernel
    unfold oddWrites at hdecide
    rwa [hopen] at hdecide
  obtain ⟨s', hrun⟩ := Run.of_foldlM (fun _ _ _ hret => (⟨2, hret⟩ : WriteReturns _ _ _ _)) hok
  have hfit := (hbetween.writes_iff hadm).mp ⟨s', hrun⟩
  cases hrun with
  | @cons _ s₁ _ _ _ head tail =>
    have hrest := (allFit_append_iff.mp hfit).2 s₁ (.cons head (.nil s₁))
    have hserved : Served oddGeometry goodDraws (fun _ => false) s₁ :=
      .write (.initialised (initialised_of_open hopen)) (hadm 11 List.mem_cons_self) head
    obtain ⟨fuel, hwrite⟩ := head
    have hend : (⟨.writeType, 5, 20⟩ : Operation).startCluster +
        (⟨.writeType, 5, 20⟩ : Operation).length ≤
          maxLBA oddGeometry (initializeFlashMemory oddGeometry goodDraws).badBlockCnt := by
      rw [oddGeometry_badBlockCnt]
      decide
    have hiff := addressesOverlapping_iff hserved rfl (by decide) (by decide) hend
    refine ⟨s₁, hserved, (secureFTLWriteOneCluster_keeps hwrite).2, hiff.mpr ⟨?_, ?_, hrest⟩⟩
    · rw [oddGeometry_maxCluster]
      decide
    · decide

/-- With one bad block the device of odd sizes has 98 sectors and 12 clusters of eight sectors:
the write of the last sector addresses the cluster behind the last one. -/
theorem lastSector_not_addressesOverlapping : ¬ ∀ (g : Geometry) (draws : Draws)
    (selected : Nat → Bool) (s : Ftl) (op : Operation), Served g draws selected s →
      op.accessType = .writeType → 0 ≤ op.startCluster → 1 ≤ op.length →
      op.startCluster + op.length ≤ maxLBA g (initializeFlashMemory g draws).badBlockCnt →
        AddressesOverlapping g (maxCluster g (initializeFlashMemory g draws).badBlockCnt) s op := by
  intro h
  obtain ⟨s, hopen, -⟩ := openFTL_between oddGeometry smallDraws
  have hbad : (initializeFlashMemory oddGeometry smallDraws).badBlockCnt = 1 := by decide +kernel
  have haddresses := h oddGeometry smallDraws (fun _ => false) s ⟨.writeType, 97, 1⟩
    (.initialised (initialised_of_open hopen)) rfl (by decide) (by decide) (by rw [hbad]; decide)
  have hcluster : (12 : Int) ∈ (⟨.writeType, 97, 1⟩ : Operation).clusters
      oddGeometry.pageToLBARatio := Operation.mem_clusters.mpr (by decide)
  have hlt := (haddresses.inside 12 hcluster).2.1
  rw [hbad] at hlt
  exact absurd hlt (by decide)

end WiscKey
