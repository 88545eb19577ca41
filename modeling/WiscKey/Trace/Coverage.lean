import Mathlib.Data.List.Dedup
import WiscKey.Trace.Addresses

/-!
# Operations that cover their tables

A table's operation is recorded in pages, rounded down, and replayed in sectors, rounded to whole
clusters. The clusters that the replay writes make up for the pages of all the tables only where
a page is a sector and the tables have no partial sectors, or for one table of at most a page.
The tables are written to the first clusters of the device, one after the other, and the replay
comes to its end exactly when these are in its table and their writes fit.
-/

namespace WiscKey

open Flash

/-- The pages of a table, the last one perhaps in part. -/
def pagesOf (pageSize fileSize : Nat) : Nat := (fileSize + pageSize - 1) / pageSize

/-- The replay of the operations returns. -/
def Replayed (g : Geometry) (maxCluster : Int) (s : Ftl) (ops : List Operation) (s' : Ftl) : Prop :=
  ∃ fuel, replayOperations g maxCluster fuel s ops = .ok s'

/-- The trace has a table's clusters: there is an operation that writes as many of them as the
table has pages, and none that another table's operation writes. -/
def HasClusters (pageSize : Nat) (tr : Trace) (tables : List (Nat × Nat)) (t : Nat × Nat)
    (p : Int × Int) : Prop :=
  tr.ssTableClusterMap.lookup t.1 = some p ∧ ⟨.writeType, p.1, p.2⟩ ∈ tr.operations ∧
    pagesOf pageSize t.2 ≤
      (Operation.clusters (pageSize / lbaSize) ⟨.writeType, p.1, p.2⟩).toFinset.card ∧
    ∀ t' ∈ tables, t'.1 ≠ t.1 → ∀ p', tr.ssTableClusterMap.lookup t'.1 = some p' →
      ∀ c ∈ Operation.clusters (pageSize / lbaSize) ⟨.writeType, p.1, p.2⟩,
        c ∉ Operation.clusters (pageSize / lbaSize) ⟨.writeType, p'.1, p'.2⟩

/-- Wherever the replay comes to the operation, it writes its clusters, one after the other. -/
def WritesClusters (g : Geometry) (maxCluster : Int) (s : Ftl) (ops : List Operation)
    (op : Operation) : Prop :=
  ∀ before after, ops = before ++ op :: after → ∃ s₁ s₂, Replayed g maxCluster s before s₁ ∧
    (∃ fuel, writewithFTL g maxCluster fuel s₁ op = .ok (s₂, true)) ∧
      Writes g ((op.clusters g.pageToLBARatio).foldl accessCluster s₁)
        (op.clusters g.pageToLBARatio) s₂

/-- Wherever the replay has come back from the write of the table, its read reads the clusters that
were written, to the end. -/
def ReadsBack (g : Geometry) (maxCluster : Int) (s : Ftl) (ops : List Operation) (p : Int × Int) :
    Prop :=
  Operation.clusters g.pageToLBARatio ⟨.readType, p.1, p.2⟩ =
      Operation.clusters g.pageToLBARatio ⟨.writeType, p.1, p.2⟩ ∧
    ∀ before after, ops = before ++ after → ⟨.writeType, p.1, p.2⟩ ∈ before →
      ∃ s₁, Replayed g maxCluster s before s₁ ∧
        ∃ fuel s₂, writewithFTL g maxCluster fuel s₁ ⟨.readType, p.1, p.2⟩ = .ok (s₂, true)

/-- The operations of the trace, replayed from a state of the layer, cover the tables. -/
structure CoversTables (g : Geometry) (maxCluster : Int) (s : Ftl) (tr : Trace)
    (tables : List (Nat × Nat)) : Prop where
  returns : ∃ s', Replayed g maxCluster s tr.operations s'
  covers : ∀ t ∈ tables, ∃ p, HasClusters g.pageSize tr tables t p ∧
    WritesClusters g maxCluster s tr.operations ⟨.writeType, p.1, p.2⟩ ∧
    ReadsBack g maxCluster s tr.operations p

/-- The clusters of an operation are all different. -/
theorem Operation.card_clusters (ratio : Nat) (op : Operation) :
    (op.clusters ratio).toFinset.card = (op.deviceLength ratio).toNat := by
  have hnodup : (op.clusters ratio).Nodup := by
    refine List.Nodup.map (fun i j hij => ?_) List.nodup_range
    exact Int.ofNat.inj (Int.add_left_cancel hij)
  rw [List.toFinset_card_of_nodup hnodup, clusters, List.length_map, List.length_range]

section Replays

variable {g : Geometry} {maxCluster : Int} {s s' : Ftl} {ops more : List Operation} {fuel : Nat}

theorem replayOperations_append_ok
    (h : replayOperations g maxCluster fuel s (ops ++ more) = .ok s') :
    ∃ s₁, replayOperations g maxCluster fuel s ops = .ok s₁ ∧
      replayOperations g maxCluster fuel s₁ more = .ok s' := by
  unfold replayOperations at h ⊢
  rw [List.foldlM_append] at h
  exact exists_of_bind_eq_ok h

theorem replayOperations_cons_ok {op : Operation}
    (h : replayOperations g maxCluster fuel s (op :: ops) = .ok s') :
    ∃ s₁ ok, writewithFTL g maxCluster fuel s op = .ok (s₁, ok) ∧
      replayOperations g maxCluster fuel s₁ ops = .ok s' := by
  rw [replayOperations, List.foldlM_cons] at h
  obtain ⟨s₁, hop, hrest⟩ := exists_of_bind_eq_ok h
  cases hresult : writewithFTL g maxCluster fuel s op with
  | error e =>
    rw [hresult] at hop
    cases hop
  | ok r =>
    rw [hresult] at hop
    obtain rfl := Except.ok.inj hop
    exact ⟨r.1, r.2, rfl, hrest⟩

/-- In a replay that returns, every write writes. -/
theorem writesClusters_of_replayed (h : Replayed g maxCluster s ops s') {op : Operation}
    (htype : op.accessType = .writeType) : WritesClusters g maxCluster s ops op := by
  rintro before after rfl
  obtain ⟨fuel, hok⟩ := h
  obtain ⟨s₁, hbefore, hrest⟩ := replayOperations_append_ok hok
  obtain ⟨s₂, ok, hop, -⟩ := replayOperations_cons_ok hrest
  obtain ⟨rfl, hwrites⟩ := writewithFTL_writes htype hop
  exact ⟨s₁, s₂, ⟨fuel, hbefore⟩, ⟨fuel, hop⟩, hwrites⟩

/-- Whatever is replayed after a write, the clusters can be read. -/
theorem readsBack_of_replayed (h : Replayed g maxCluster s ops s') (p : Int × Int) :
    ReadsBack g maxCluster s ops p := by
  refine ⟨rfl, ?_⟩
  rintro before after rfl hop
  obtain ⟨fuel, hok⟩ := h
  obtain ⟨s₁, hbefore, -⟩ := replayOperations_append_ok hok
  have hstored := (replayOperations_keeps hbefore).2 _ hop rfl
  have hread : ∃ s₂, writewithFTL g maxCluster fuel s₁ ⟨.readType, p.1, p.2⟩ = .ok (s₂, true) :=
    writewithFTL_read rfl (fun c hc => (hstored c hc).1) (fun c hc => (hstored c hc).2)
  obtain ⟨s₂, hread⟩ := hread
  exact ⟨s₁, ⟨fuel, hbefore⟩, fuel, s₂, hread⟩

end Replays

/-- The clusters that the writes among the operations write, one after the other. -/
def writtenClusters (ratio : Nat) (ops : List Operation) : List Int :=
  (ops.filter fun op => op.accessType = .writeType).flatMap (Operation.clusters ratio)

section Returning

variable {g : Geometry} {draws : Draws} {s s' t t' : Ftl} {cs : List Int} {op : Operation}
  {ops : List Operation} {clusters : Int} {fuel fuel' : Nat} {ok : Bool}

theorem writewithFTL_mono (hle : fuel ≤ fuel')
    (h : writewithFTL g clusters fuel s op = .ok (s', ok)) :
    writewithFTL g clusters fuel' s op = .ok (s', ok) := by
  simp only [writewithFTL] at h ⊢
  split at h
  · rename_i hinside
    rw [if_pos hinside]
    cases htype : op.accessType with
    | readType =>
      rw [htype] at h
      exact h
    | writeType =>
      rw [htype] at h
      obtain ⟨s₁, hwrites, hend⟩ := exists_of_bind_eq_ok h
      simp only [foldlM_secureFTLWriteOneCluster_mono hle hwrites]
      exact hend
  · cases h

theorem replayOperations_cons {s₁ : Ftl}
    (h : writewithFTL g clusters fuel s op = .ok (s₁, ok)) :
    replayOperations g clusters fuel s (op :: ops) =
      replayOperations g clusters fuel s₁ ops := by
  unfold replayOperations
  rw [List.foldlM_cons, h]
  rfl

theorem replayOperations_mono (hle : fuel ≤ fuel')
    (h : replayOperations g clusters fuel s ops = .ok s') :
    replayOperations g clusters fuel' s ops = .ok s' := by
  induction ops generalizing s with
  | nil => exact h
  | cons op ops ih =>
    obtain ⟨s₁, ok, hop, hrest⟩ := replayOperations_cons_ok h
    rw [replayOperations_cons (writewithFTL_mono hle hop)]
    exact ih hrest

theorem writtenClusters_cons_read (h : op.accessType = .readType) (ratio : Nat) :
    writtenClusters ratio (op :: ops) = writtenClusters ratio ops := by
  unfold writtenClusters
  rw [List.filter_cons_of_neg (by simp [h])]

theorem writtenClusters_cons_write (h : op.accessType = .writeType) (ratio : Nat) :
    writtenClusters ratio (op :: ops) = op.clusters ratio ++ writtenClusters ratio ops := by
  unfold writtenClusters
  rw [List.filter_cons_of_pos (by simp [h]), List.flatMap_cons]

/-- What a request that returns leaves to be written fits as it does behind its own writes. -/
theorem allFit_written_cons {bad : Nat}
    (hop : writewithFTL g clusters fuel s op = .ok (s', ok)) :
    AllFit g bad (fun s _ => s) s (writtenClusters g.pageToLBARatio (op :: ops)) ↔
      (op.accessType = .writeType →
        AllFit g bad (fun s _ => s) s (op.clusters g.pageToLBARatio)) ∧
      AllFit g bad (fun s _ => s) s' (writtenClusters g.pageToLBARatio ops) := by
  have hmarks := unmark_foldl_accessCluster s (op.clusters g.pageToLBARatio)
  cases htype : op.accessType with
  | readType =>
    simp only [writewithFTL, htype] at hop
    split at hop
    · obtain ⟨rfl, -⟩ := Prod.mk.inj (Except.ok.inj hop)
      rw [writtenClusters_cons_read htype, allFit_congr hmarks]
      simp
    · cases hop
  | writeType =>
    have hwrites := (writewithFTL_writes htype hop).2
    rw [writtenClusters_cons_write htype, ← allFit_congr hmarks, allFit_append_iff,
      allFit_congr hmarks]
    simp only [true_implies]
    refine and_congr_right fun _ => ⟨fun hrest => hrest s' hwrites, fun hrest s₁ hrun => ?_⟩
    obtain rfl := writes_unique hrun hwrites
    exact hrest

/-- A replay returns exactly when the clusters of its operations are in the table and those of its
writes fit, one after the other. -/
theorem replayed_iff (hbetween : Between g draws s) :
    (∃ s', Replayed g (maxCluster g (initializeFlashMemory g draws).badBlockCnt) s ops s') ↔
      (∀ op ∈ ops, ∀ c ∈ op.clusters g.pageToLBARatio, admissible g draws c) ∧
        AllFit g (initializeFlashMemory g draws).badBlockCnt (fun s _ => s) s
          (writtenClusters g.pageToLBARatio ops) := by
  induction ops generalizing s with
  | nil => exact iff_of_true ⟨s, 0, rfl⟩ ⟨fun op hop => (nomatch hop), trivial⟩
  | cons op ops ih =>
    rw [List.forall_mem_cons]
    constructor
    · rintro ⟨s', fuel, hok⟩
      obtain ⟨s₁, ok, hop, hrest⟩ := replayOperations_cons_ok hok
      obtain ⟨hadm, hfit⟩ := (ih (between_writewithFTL hbetween hop)).mp ⟨s', fuel, hrest⟩
      refine ⟨⟨admissible_of_writewithFTL hop, hadm⟩,
        (allFit_written_cons hop).mpr ⟨fun htype => ?_, hfit⟩⟩
      obtain ⟨rfl, -⟩ := writewithFTL_writes htype hop
      exact ((writewithFTL_returns_iff hbetween htype).mp ⟨fuel, s₁, hop⟩).2
    · rintro ⟨⟨hadm, hrest⟩, hfit⟩
      obtain ⟨fuel, s₁, ok, hop⟩ : ∃ fuel s₁ ok, writewithFTL g
          (maxCluster g (initializeFlashMemory g draws).badBlockCnt) fuel s op = .ok (s₁, ok) := by
        cases htype : op.accessType with
        | readType => exact writewithFTL_read_returns htype hadm
        | writeType =>
          rw [writtenClusters_cons_write htype] at hfit
          obtain ⟨fuel, s₁, hop⟩ := (writewithFTL_returns_iff hbetween htype).mpr
            ⟨hadm, (allFit_append_iff.mp hfit).1⟩
          exact ⟨fuel, s₁, true, hop⟩
      obtain ⟨s', fuel', hok⟩ := (ih (between_writewithFTL hbetween hop)).mpr
        ⟨hrest, ((allFit_written_cons hop).mp hfit).2⟩
      refine ⟨s', max fuel fuel', ?_⟩
      rw [replayOperations_cons (writewithFTL_mono (Nat.le_max_left _ _) hop)]
      exact replayOperations_mono (Nat.le_max_right _ _) hok

end Returning

section Ranges

variable {pageSize : Nat} {start : Int} {tables : List (Nat × Nat)} {r : TableRange}

/-- A range is that of a table. -/
theorem mem_of_mem_tableRanges (hr : r ∈ tableRanges pageSize start tables) :
    (r.number, r.fileSize) ∈ tables ∧ r.length = Trace.clusterLength pageSize r.fileSize := by
  induction tables generalizing start with
  | nil => cases hr
  | cons t tables ih =>
    rcases List.mem_cons.mp hr with rfl | hr
    · exact ⟨List.mem_cons_self .., rfl⟩
    · obtain ⟨hmem, hlength⟩ := ih hr
      exact ⟨List.mem_cons_of_mem _ hmem, hlength⟩

/-- A table has a range. -/
theorem exists_mem_tableRanges {t : Nat × Nat} (ht : t ∈ tables) :
    ∃ r ∈ tableRanges pageSize start tables, r.number = t.1 ∧ r.fileSize = t.2 := by
  induction tables generalizing start with
  | nil => cases ht
  | cons t' tables ih =>
    rcases List.mem_cons.mp ht with rfl | ht
    · exact ⟨_, List.mem_cons_self .., rfl, rfl⟩
    · obtain ⟨r, hr, hrest⟩ := ih ht
      exact ⟨r, List.mem_cons_of_mem _ hr, hrest⟩

/-- One of two tables lies behind the other. -/
def TableRange.Apart (a b : TableRange) : Prop :=
  a.start + a.length ≤ b.start ∨ b.start + b.length ≤ a.start

instance : Std.Symm TableRange.Apart := ⟨fun _ _ h => h.symm⟩

theorem tableRanges_apart (hsizes : ∀ t ∈ tables, t.2 < 2 ^ 31) :
    (tableRanges pageSize start tables).Pairwise TableRange.Apart := by
  induction tables generalizing start with
  | nil => exact .nil
  | cons t tables ih =>
    obtain ⟨hsize, hrest⟩ := List.forall_mem_cons.mp hsizes
    refine List.pairwise_cons.mpr ⟨fun b hb => .inl ?_, ih hrest⟩
    exact (tableRanges_bounds hrest hb).1

theorem map_number_tableRanges :
    (tableRanges pageSize start tables).map TableRange.number = tables.map Prod.fst := by
  induction tables generalizing start with
  | nil => rfl
  | cons t tables ih => exact congrArg (t.1 :: ·) ih

/-- Where the numbers are different, one number stands for one range. -/
theorem tableRanges_inj (hnumbers : (tables.map Prod.fst).Nodup) {r' : TableRange}
    (hr : r ∈ tableRanges pageSize start tables) (hr' : r' ∈ tableRanges pageSize start tables)
    (h : r.number = r'.number) : r = r' := by
  rw [← map_number_tableRanges] at hnumbers
  exact List.inj_on_of_nodup_map hnumbers hr hr' h

/-- The trace holds each table's range under its number. -/
theorem Trace.Holds.lookup_eq {tr : Trace}
    (h : tr.Holds (tableRanges pageSize start tables)) (hnumbers : (tables.map Prod.fst).Nodup)
    (hr : r ∈ tableRanges pageSize start tables) :
    tr.ssTableClusterMap.lookup r.number = some (r.start, r.length) := by
  obtain ⟨p, hp⟩ := Option.isSome_iff_exists.mp (h.found r hr)
  obtain ⟨r', hr', hnumber, rfl⟩ := h.lookup r.number p hp
  rw [hp, tableRanges_inj hnumbers hr' hr hnumber]

/-- A table's range, and where the trace has it. -/
theorem Trace.Holds.range_of_table {tr : Trace}
    (h : tr.Holds (tableRanges pageSize start tables)) (hnumbers : (tables.map Prod.fst).Nodup)
    {t : Nat × Nat} (ht : t ∈ tables) : ∃ r ∈ tableRanges pageSize start tables,
      r.number = t.1 ∧ r.fileSize = t.2 ∧ r.length = Trace.clusterLength pageSize t.2 ∧
        ∀ p, tr.ssTableClusterMap.lookup t.1 = some p ↔ p = (r.start, r.length) := by
  obtain ⟨r, hr, hnumber, hsize⟩ := exists_mem_tableRanges ht
  refine ⟨r, hr, hnumber, hsize, hsize ▸ (mem_of_mem_tableRanges hr).2, fun p => ?_⟩
  rw [← hnumber, h.lookup_eq hnumbers hr, Option.some.injEq, eq_comm]

end Ranges

/-- The tables have whole sectors where a page is a sector, or there is one of at most a page. -/
def Coverable (pageSize : Nat) (tables : List (Nat × Nat)) : Prop :=
  (pageSize = lbaSize ∧ (∀ t ∈ tables, lbaSize ∣ t.2 ∧ t.2 < 2 ^ 31) ∧
    (tables.map Prod.snd).sum < 2 ^ 40) ∨
  (lbaSize < pageSize ∧ tables.length ≤ 1 ∧ ∀ t ∈ tables, t.2 ≤ pageSize)

section Lengths

variable {pageSize fileSize ratio : Nat}

/-- A table's length is at most its whole pages, also when its size is no `int`. -/
theorem clusterLength_le (pageSize fileSize : Nat) :
    Trace.clusterLength pageSize fileSize ≤ (fileSize / pageSize : Nat) ∧
      Trace.clusterLength pageSize fileSize ≤ ((2 ^ 31 - 1) / pageSize : Nat) := by
  have hint : toInt32 fileSize ≤ (fileSize : Int) ∧ toInt32 fileSize ≤ (2 ^ 31 - 1 : Nat) := by
    unfold toInt32
    constructor <;> split <;> omega
  have hdiv : ∀ n : Nat, toInt32 fileSize ≤ (n : Int) →
      Trace.clusterLength pageSize fileSize ≤ (n / pageSize : Nat) := by
    intro n hn
    unfold Trace.clusterLength
    rcases le_or_gt 0 (toInt32 fileSize) with hpos | hneg
    · rw [Int.tdiv_eq_ediv_of_nonneg hpos, Int.natCast_ediv]
      rcases Nat.eq_zero_or_pos pageSize with rfl | hpage
      · simp
      · exact Int.ediv_le_ediv (by omega) hn
    · have hopposite := Int.tdiv_nonneg (a := -toInt32 fileSize) (b := pageSize) (by omega)
        (by omega)
      rw [Int.neg_tdiv] at hopposite
      exact le_trans (by omega) (Int.natCast_nonneg _)
  exact ⟨hdiv _ hint.1, hdiv _ hint.2⟩

/-- Where a page is a sector, a table that is covered has whole sectors. -/
theorem sectors_of_covered
    (h : pagesOf lbaSize fileSize ≤ (Trace.clusterLength lbaSize fileSize).toNat) :
    lbaSize ∣ fileSize ∧ fileSize < 2 ^ 31 := by
  obtain ⟨hpages, hint⟩ := clusterLength_le lbaSize fileSize
  simp only [pagesOf, lbaSize] at h hpages hint ⊢
  omega

/-- Where a page has more sectors, the first table has at most a page when it is covered. -/
theorem page_of_covered (hratio : 2 ≤ ratio) (hpage : 0 < pageSize) (h : pagesOf pageSize fileSize ≤
    ((Operation.deviceLength ratio
      ⟨.writeType, 0, Trace.clusterLength pageSize fileSize⟩).toNat)) : fileSize ≤ pageSize := by
  by_contra hlarge
  obtain ⟨hpages, -⟩ := clusterLength_le pageSize fileSize
  have htwo : 2 ≤ pagesOf pageSize fileSize := by
    rw [pagesOf, Nat.le_div_iff_mul_le hpage]
    omega
  have hwhole : fileSize / pageSize ≤ pagesOf pageSize fileSize :=
    Nat.div_le_div_right (by omega)
  simp only [Operation.deviceLength, Operation.deviceStart, Int.zero_tdiv] at h
  generalize Trace.clusterLength pageSize fileSize = length at h hpages
  rcases le_or_gt length 1 with hshort | hlong
  · have hopposite := Int.tdiv_nonneg (a := -(0 - 1 + length)) (b := ratio) (by omega) (by omega)
    rw [Int.neg_tdiv] at hopposite
    omega
  · obtain ⟨n, hn⟩ := Int.eq_ofNat_of_zero_le (show 0 ≤ 0 - 1 + length by omega)
    have hhalf : n / ratio ≤ n / 2 := Nat.div_le_div_left hratio (by decide)
    rw [hn, Int.tdiv_eq_ediv_of_nonneg (Int.natCast_nonneg n), ← Int.natCast_ediv] at h
    omega

end Lengths

section Directions

variable {pageSize : Nat} {tables : List (Nat × Nat)} {tr : Trace}

theorem deviceLength_one (op : Operation) : op.deviceLength 1 = op.length := by
  simp only [Operation.deviceLength, Operation.deviceStart, Nat.cast_one, Int.tdiv_one]
  omega

/-- The sizes of tables of whole sectors. -/
theorem sum_sizes (h : ∀ t ∈ tables, lbaSize ∣ t.2) :
    (tables.map Prod.snd).sum = lbaSize * totalLength lbaSize tables := by
  induction tables with
  | nil => rfl
  | cons t tables ih =>
    obtain ⟨ht, hrest⟩ := List.forall_mem_cons.mp h
    have hcons : totalLength lbaSize (t :: tables) =
        t.2 / lbaSize + totalLength lbaSize tables := rfl
    rw [List.map_cons, List.sum_cons, ih hrest, hcons, Nat.mul_add, Nat.mul_div_cancel' ht]

/-- A first table of at most a page is given cluster 0 only, and so is an empty one behind it. -/
theorem zero_mem_clusters {ratio : Nat} (hratio : 2 ≤ ratio) {start length : Int}
    (hstart : start = 0 ∨ start = 1) (hlength : 0 ≤ (start - 1 + length).tdiv ratio)
    (accessType : AccessType) : 0 ∈ Operation.clusters ratio ⟨accessType, start, length⟩ := by
  refine Operation.mem_clusters.mpr ⟨le_of_eq ?_, hlength⟩
  exact Int.tdiv_eq_zero_of_lt (by simp only; omega) (by simp only; omega)

theorem tdiv_first {ratio : Nat} (hratio : 2 ≤ ratio) {n : Int} (hn : n = 0 ∨ n = 1) :
    (n - 1).tdiv ratio = 0 := by
  rcases hn with rfl | rfl
  · exact (neg_one_tdiv (by omega)).trans (if_neg (by omega))
  · exact Int.zero_tdiv _

/-- The length of a table of at most a page. -/
theorem clusterLength_page {fileSize : Nat} (hint : pageSize < 2 ^ 31) (h : fileSize ≤ pageSize) :
    Trace.clusterLength pageSize fileSize = 0 ∨ Trace.clusterLength pageSize fileSize = 1 := by
  rw [clusterLength_eq (by omega)]
  rcases Nat.lt_or_ge fileSize pageSize with hlt | hge
  · exact .inl (by rw [Nat.div_eq_of_lt hlt]; rfl)
  · obtain rfl : fileSize = pageSize := Nat.le_antisymm h hge
    rcases Nat.eq_zero_or_pos fileSize with rfl | hpos
    · exact .inl rfl
    · exact .inr (by rw [Nat.div_self hpos]; rfl)

/-- A second table behind one of at most a page writes a cluster, if it is covered. -/
theorem second_not_empty {ratio : Nat} (hratio : 2 ≤ ratio) (hpos : 0 < pageSize) {start : Int}
    (hstart : start = 0 ∨ start = 1) {fileSize : Nat} (hpages : pagesOf pageSize fileSize ≤
      (Operation.deviceLength ratio
        ⟨.writeType, start, Trace.clusterLength pageSize fileSize⟩).toNat) :
    0 ≤ (start - 1 + Trace.clusterLength pageSize fileSize).tdiv ratio := by
  rcases Nat.eq_zero_or_pos fileSize with rfl | hsize
  · have hzero : Trace.clusterLength pageSize 0 = 0 := Int.zero_tdiv _
    rw [hzero, Int.add_zero, tdiv_first hratio hstart]
  · have hone : 1 ≤ pagesOf pageSize fileSize := by
      rw [pagesOf, Nat.le_div_iff_mul_le hpos]
      omega
    have hfirst : start.tdiv ratio = 0 := Int.tdiv_eq_zero_of_lt (by omega) (by omega)
    simp only [Operation.deviceLength, Operation.deviceStart, hfirst] at hpages
    omega

/-- The operation of a covered table writes as many clusters as the table has pages. -/
theorem pagesOf_le_of_covers (hnumbers : (tables.map Prod.fst).Nodup)
    (hholds : tr.Holds (tableRanges pageSize 0 tables))
    (hcovers : ∀ t ∈ tables, ∃ p, HasClusters pageSize tr tables t p) {r : TableRange}
    (hr : r ∈ tableRanges pageSize 0 tables) : pagesOf pageSize r.fileSize ≤
      ((r.operation .writeType).deviceLength (pageSize / lbaSize)).toNat := by
  obtain ⟨p, hp, -, hpages, -⟩ := hcovers _ (mem_of_mem_tableRanges hr).1
  rw [hholds.lookup_eq hnumbers hr] at hp
  obtain rfl := Option.some.inj hp
  rwa [Operation.card_clusters] at hpages

/-- Where a page is a sector, covered tables have whole sectors, which an `int` can count. -/
theorem sectors_of_covers (hnumbers : (tables.map Prod.fst).Nodup)
    (hholds : tr.Holds (tableRanges lbaSize 0 tables))
    (hfits : ∀ r ∈ tableRanges lbaSize 0 tables, r.start + r.length < 2 ^ 31)
    (hcovers : ∀ t ∈ tables, ∃ p, HasClusters lbaSize tr tables t p) :
    (∀ t ∈ tables, lbaSize ∣ t.2 ∧ t.2 < 2 ^ 31) ∧ totalLength lbaSize tables < 2 ^ 31 := by
  have hsizes : ∀ t ∈ tables, lbaSize ∣ t.2 ∧ t.2 < 2 ^ 31 := by
    intro t ht
    obtain ⟨r, hr, -, hsize, hlength, -⟩ := hholds.range_of_table hnumbers ht
    have hpages := pagesOf_le_of_covers hnumbers hholds hcovers hr
    rw [Nat.div_self (by decide), deviceLength_one] at hpages
    change _ ≤ r.length.toNat at hpages
    rw [hsize, hlength] at hpages
    exact sectors_of_covered hpages
  refine ⟨hsizes, ?_⟩
  rcases Nat.eq_zero_or_pos (totalLength lbaSize tables) with hzero | htotal
  · rw [hzero]
    exact Nat.two_pow_pos 31
  · obtain ⟨r, hr, -, hend⟩ := exists_last_range (fun t ht => (hsizes t ht).2) htotal
    have := hfits r hr
    omega

/-- Where a page has more sectors, two tables are not covered: both would have cluster 0. -/
theorem not_covers_two {ratio : Nat} (hratio : 2 ≤ ratio) (hpos : 0 < lbaSize * ratio)
    (hint : lbaSize * ratio < 2 ^ 31) {t t' : Nat × Nat}
    (hnumbers : ((t :: t' :: tables).map Prod.fst).Nodup)
    (hholds : tr.Holds (tableRanges (lbaSize * ratio) 0 (t :: t' :: tables)))
    (hfirst : t.2 ≤ lbaSize * ratio) :
    ¬ ∀ t₁ ∈ t :: t' :: tables, ∃ p, HasClusters (lbaSize * ratio) tr (t :: t' :: tables) t₁ p := by
  intro hcovers
  have hlength := clusterLength_page hint hfirst
  have hsecond : (⟨t'.1, t'.2, 0 + Trace.clusterLength (lbaSize * ratio) t.2,
      Trace.clusterLength (lbaSize * ratio) t'.2⟩ : TableRange) ∈
        tableRanges (lbaSize * ratio) 0 (t :: t' :: tables) :=
    List.mem_cons_of_mem _ (List.mem_cons_self ..)
  have hpages := pagesOf_le_of_covers hnumbers hholds hcovers hsecond
  have hlookup := hholds.lookup_eq hnumbers (List.mem_cons_self ..)
  have hlookup' := hholds.lookup_eq hnumbers hsecond
  obtain ⟨p, hp, -, -, hapart⟩ := hcovers t (List.mem_cons_self ..)
  rw [hlookup] at hp
  obtain rfl := Option.some.inj hp
  rw [Nat.mul_div_cancel_left ratio (by decide)] at hapart hpages
  have hne : t'.1 ≠ t.1 := by
    intro heq
    rw [List.map_cons, List.map_cons, heq] at hnumbers
    simp at hnumbers
  refine hapart t' (List.mem_cons_of_mem _ (List.mem_cons_self ..)) hne _ hlookup' 0
    (zero_mem_clusters hratio (.inl rfl) ?_ _)
    (zero_mem_clusters hratio (by simpa using hlength) ?_ _)
  · have hlast := tdiv_first hratio hlength
    simp only
    rw [show (0 : Int) - 1 + Trace.clusterLength (lbaSize * ratio) t.2 =
      Trace.clusterLength (lbaSize * ratio) t.2 - 1 by omega, hlast]
  · simp only [TableRange.operation, Int.zero_add] at hpages ⊢
    exact second_not_empty hratio hpos hlength hpages

/-- Tables that are covered are coverable. -/
theorem coverable_of_covers (hsectors : lbaSize ∣ pageSize) (hpos : 0 < pageSize)
    (hint : pageSize < 2 ^ 31) (hnumbers : (tables.map Prod.fst).Nodup)
    (hholds : tr.Holds (tableRanges pageSize 0 tables))
    (hfits : ∀ r ∈ tableRanges pageSize 0 tables, r.start + r.length < 2 ^ 31)
    (hcovers : ∀ t ∈ tables, ∃ p, HasClusters pageSize tr tables t p) :
    Coverable pageSize tables := by
  rcases (Nat.le_of_dvd hpos hsectors).eq_or_lt' with rfl | hmore
  · obtain ⟨hsizes, htotal⟩ := sectors_of_covers hnumbers hholds hfits hcovers
    refine .inl ⟨rfl, hsizes, ?_⟩
    rw [sum_sizes fun t ht => (hsizes t ht).1]
    rw [show lbaSize = 512 from rfl] at htotal ⊢
    omega
  · obtain ⟨ratio, rfl⟩ := hsectors
    have hratio : 2 ≤ ratio := by
      rw [show lbaSize = 512 from rfl] at hmore
      omega
    cases tables with
    | nil => exact .inr ⟨hmore, by simp, fun t ht => nomatch ht⟩
    | cons t tables =>
      have hpages := pagesOf_le_of_covers hnumbers hholds hcovers (List.mem_cons_self ..)
      rw [Nat.mul_div_cancel_left ratio (by decide)] at hpages
      have hfirst : t.2 ≤ lbaSize * ratio := page_of_covered hratio hpos hpages
      cases tables with
      | nil => exact .inr ⟨hmore, by simp, by simpa using hfirst⟩
      | cons t' tables =>
        exact absurd hcovers (not_covers_two hratio hpos hint hnumbers hholds hfirst)

/-- Coverable tables are covered. -/
theorem covers_of_coverable (hsectors : lbaSize ∣ pageSize) (hint : pageSize < 2 ^ 31)
    (hnumbers : (tables.map Prod.fst).Nodup)
    (hholds : tr.Holds (tableRanges pageSize 0 tables))
    (h : Coverable pageSize tables) : ∀ t ∈ tables, ∃ p, HasClusters pageSize tr tables t p := by
  intro t ht
  obtain ⟨r, hr, hnumber, hsize, hlength, hlookup⟩ := hholds.range_of_table hnumbers ht
  refine ⟨(r.start, r.length), (hlookup _).mpr rfl, hholds.writes r hr, ?_, ?_⟩
  · rw [Operation.card_clusters]
    rcases h with ⟨rfl, hsizes, -⟩ | ⟨hmore, hone, hpage⟩
    · obtain ⟨hwhole, hsmall⟩ := hsizes t ht
      rw [Nat.div_self (by decide), deviceLength_one]
      simp only
      rw [hlength, clusterLength_eq hsmall, Int.toNat_natCast, pagesOf]
      rw [show lbaSize = 512 from rfl] at hwhole ⊢
      omega
    · obtain ⟨ratio, rfl⟩ := hsectors
      have hratio : 2 ≤ ratio := by
        rw [show lbaSize = 512 from rfl] at hmore
        omega
      have hstart : r.start = 0 := by
        obtain ⟨t₀, rfl⟩ : ∃ t₀, tables = [t₀] :=
          List.length_eq_one_iff.mp (le_antisymm hone (List.length_pos_of_mem ht))
        obtain rfl := List.mem_singleton.mp hr
        rfl
      have hfirst := tdiv_first hratio (clusterLength_page hint (hpage t ht))
      have hpages : pagesOf (lbaSize * ratio) t.2 ≤ 1 := by
        rw [pagesOf, Nat.div_le_iff_le_mul_add_pred (by omega)]
        have := hpage t ht
        omega
      rw [Nat.mul_div_cancel_left ratio (by decide)]
      simp only [Operation.deviceLength, Operation.deviceStart, hstart, hlength, Int.zero_tdiv]
      rw [show (0 : Int) - 1 + Trace.clusterLength (lbaSize * ratio) t.2 =
        Trace.clusterLength (lbaSize * ratio) t.2 - 1 by omega, hfirst]
      exact hpages
  · intro t' ht' hne p' hp' c hc hc'
    rcases h with ⟨rfl, hsizes, -⟩ | ⟨hmore, hone, hpage⟩
    · obtain ⟨r', hr', hnumber', -, -, hlookup'⟩ := hholds.range_of_table hnumbers ht'
      obtain rfl := (hlookup' p').mp hp'
      have hranges : r ≠ r' := by
        rintro rfl
        exact hne (hnumber'.symm.trans hnumber)
      have hapart := (tableRanges_apart fun t ht => (hsizes t ht).2).forall hr hr' hranges
      unfold TableRange.Apart at hapart
      rw [Nat.div_self (by decide), Operation.mem_clusters] at hc hc'
      simp only [Nat.cast_one, Int.tdiv_one] at hc hc'
      omega
    · obtain ⟨t₀, rfl⟩ : ∃ t₀, tables = [t₀] :=
        List.length_eq_one_iff.mp (le_antisymm hone (List.length_pos_of_mem ht))
      rw [List.mem_singleton.mp ht, List.mem_singleton.mp ht'] at hne
      exact hne rfl

end Directions

/-- The numbers of coverable tables are `int`s. -/
theorem Coverable.fits {pageSize : Nat} {tables : List (Nat × Nat)} (hint : pageSize < 2 ^ 31)
    (h : Coverable pageSize tables) {r : TableRange} (hr : r ∈ tableRanges pageSize 0 tables) :
    -2 ^ 31 ≤ r.start + r.length ∧ r.start + r.length < 2 ^ 31 := by
  rcases h with ⟨rfl, hsizes, htotal⟩ | ⟨-, hone, hpage⟩
  · have hbounds := tableRanges_bounds (fun t ht => (hsizes t ht).2) hr
    rw [sum_sizes fun t ht => (hsizes t ht).1] at htotal
    rw [show lbaSize = 512 from rfl] at htotal hbounds
    omega
  · have hmem := (mem_of_mem_tableRanges hr).1
    obtain ⟨t₀, rfl⟩ : ∃ t₀, tables = [t₀] :=
      List.length_eq_one_iff.mp (le_antisymm hone (List.length_pos_of_mem hmem))
    obtain rfl := List.mem_singleton.mp hr
    have hlength := clusterLength_page hint (hpage t₀ (List.mem_singleton_self _))
    simp only
    omega

/-! ## Tables on the device -/

/-- The first clusters of the device. -/
def firstClusters (n : Nat) : List Int := (List.range n).map fun i : Nat => (i : Int)

/-- The number of clusters that coverable tables are written to: their sectors, or the first cluster
for the only one. -/
def clusterCount (pageSize : Nat) (tables : List (Nat × Nat)) : Nat :=
  if pageSize = lbaSize then totalLength lbaSize tables else tables.length

/-- The device takes the first clusters from a state on: they are in its table, and their writes fit
one after the other. -/
def TakesFirst (g : Geometry) (draws : Draws) (s : Ftl) (n : Nat) : Prop :=
  (∀ c ∈ firstClusters n, admissible g draws c) ∧
    AllFit g (initializeFlashMemory g draws).badBlockCnt (fun s _ => s) s (firstClusters n)

section Written

variable {pageSize : Nat} {start : Int} {tables : List (Nat × Nat)} {tr : Trace}

/-- Where a page is a sector, the tables fill the clusters behind the start. -/
theorem flatMap_clusters_one (hsizes : ∀ t ∈ tables, t.2 < 2 ^ 31) :
    (tableRanges pageSize start tables).flatMap
        (fun r => (r.operation .writeType).clusters 1) =
      (List.range (totalLength pageSize tables)).map fun i : Nat => start + i := by
  induction tables generalizing start with
  | nil => rfl
  | cons t tables ih =>
    obtain ⟨hsize, hrest⟩ := List.forall_mem_cons.mp hsizes
    have htotal : totalLength pageSize (t :: tables) =
        t.2 / pageSize + totalLength pageSize tables := rfl
    have hfirst : (⟨.writeType, start, (t.2 / pageSize : Nat)⟩ : Operation).clusters 1 =
        (List.range (t.2 / pageSize)).map fun i : Nat => start + i := by
      simp only [Operation.clusters, deviceLength_one, Operation.deviceStart, Nat.cast_one,
        Int.tdiv_one, Int.toNat_natCast]
    rw [htotal, List.range_add, List.map_append, List.map_map]
    simp only [tableRanges, List.flatMap_cons, TableRange.operation, clusterLength_eq hsize, hfirst,
      Function.comp_def, Nat.cast_add, ← Int.add_assoc] at ih ⊢
    rw [ih hrest]

/-- Coverable tables are written to the first clusters of the device. -/
theorem writtenClusters_of_coverable (hsectors : lbaSize ∣ pageSize) (hint : pageSize < 2 ^ 31)
    (hwrites : tr.operations.filter (fun op => op.accessType = .writeType) =
      (tableRanges pageSize 0 tables).map fun r => r.operation .writeType)
    (h : Coverable pageSize tables) : writtenClusters (pageSize / lbaSize) tr.operations =
      firstClusters (clusterCount pageSize tables) := by
  unfold writtenClusters
  rw [hwrites, List.flatMap_map]
  rcases h with ⟨rfl, hsizes, -⟩ | ⟨hmore, hone, hpage⟩
  · rw [Nat.div_self (by decide), flatMap_clusters_one fun t ht => (hsizes t ht).2]
    simp [firstClusters, clusterCount]
  · obtain ⟨ratio, rfl⟩ := hsectors
    have hratio : 2 ≤ ratio := by
      rw [show lbaSize = 512 from rfl] at hmore
      omega
    rw [clusterCount, if_neg (by omega), Nat.mul_div_cancel_left ratio (by decide)]
    cases tables with
    | nil => rfl
    | cons t tables =>
      obtain rfl : tables = [] := by simpa using hone
      have hlast := tdiv_first hratio (clusterLength_page hint (hpage t (List.mem_singleton_self _)))
      have hlength : (0 : Int) - 1 + Trace.clusterLength (lbaSize * ratio) t.2 =
          Trace.clusterLength (lbaSize * ratio) t.2 - 1 := by omega
      simp only [tableRanges, List.flatMap_cons, List.flatMap_nil, TableRange.operation,
        Operation.clusters, Operation.deviceLength, Operation.deviceStart, hlength, hlast,
        Int.zero_tdiv]
      rfl

end Written

/-- The operations that a run records, replayed from any state that the layer reaches, cover its
tables exactly when the tables are coverable and the device takes their clusters. -/
theorem run_coversTables_iff {g : Geometry} {draws : Draws} {selected : Nat → Bool} {s : Ftl}
    (hserved : Served g draws selected s) (hsectors : lbaSize ∣ g.pageSize)
    (events : List TraceEvent) (hnumbers : ((recordedTables events).map Prod.fst).Nodup) :
    (∃ tr, Trace.init.run g.pageSize events = some tr ∧
      CoversTables g (maxCluster g (initializeFlashMemory g draws).badBlockCnt) s tr
        (recordedTables events)) ↔
      Coverable g.pageSize (recordedTables events) ∧
        TakesFirst g draws s (clusterCount g.pageSize (recordedTables events)) := by
  have hreturns := @Trace.Holds.run_returns_iff g.pageSize _ _ Trace.holds_init events
  have hcurrent : Trace.init.currentCluster = 0 := rfl
  rw [hcurrent] at hreturns
  -- in a trace of coverable tables, the replay writes the first clusters
  have htakes : ∀ tr, Trace.init.run g.pageSize events = some tr →
      Coverable g.pageSize (recordedTables events) →
      ((∃ s', Replayed g (maxCluster g (initializeFlashMemory g draws).badBlockCnt) s tr.operations
          s') ↔ TakesFirst g draws s (clusterCount g.pageSize (recordedTables events))) := by
    intro tr htr hcoverable
    have hholds := Trace.holds_init.run htr
    have hwrites := Trace.holds_init.writes_run htr
    rw [hcurrent, List.nil_append] at hholds
    rw [hcurrent, show Trace.init.operations.filter _ = [] from rfl, List.nil_append] at hwrites
    have hfirst := writtenClusters_of_coverable hsectors g.pageSize_lt hwrites hcoverable
    rw [replayed_iff hserved.between, TakesFirst, ← hfirst]
    refine and_congr_left fun _ => ⟨fun h c hc => ?_, fun h op hop c hc => ?_⟩
    · obtain ⟨op, hop, hc⟩ := List.mem_flatMap.mp hc
      exact h op (List.mem_filter.mp hop).1 c hc
    · obtain ⟨r, hr, hrange⟩ := hholds.operations op hop
      rw [hrange] at hc
      refine h c (List.mem_flatMap.mpr ⟨r.operation .writeType, ?_, hc⟩)
      rw [hwrites]
      exact List.mem_map_of_mem hr
  constructor
  · rintro ⟨tr, htr, hreplay, hcovers⟩
    have hholds := Trace.holds_init.run htr
    rw [hcurrent, List.nil_append] at hholds
    have hcoverable := coverable_of_covers hsectors g.pageSize_pos g.pageSize_lt hnumbers hholds
      (fun r hr => (hreturns.mp ⟨tr, htr⟩ r hr).2)
      fun t ht => (hcovers t ht).imp fun _ hp => hp.1
    exact ⟨hcoverable, (htakes tr htr hcoverable).mp hreplay⟩
  · rintro ⟨hcoverable, hdevice⟩
    obtain ⟨tr, htr⟩ := hreturns.mpr fun r hr => hcoverable.fits g.pageSize_lt hr
    have hholds := Trace.holds_init.run htr
    rw [hcurrent, List.nil_append] at hholds
    obtain ⟨s', hreplay⟩ := (htakes tr htr hcoverable).mpr hdevice
    refine ⟨tr, htr, ⟨s', hreplay⟩, fun t ht => ?_⟩
    obtain ⟨p, hp⟩ := covers_of_coverable hsectors g.pageSize_lt hnumbers hholds hcoverable t ht
    exact ⟨p, hp, writesClusters_of_replayed hreplay rfl, readsBack_of_replayed hreplay p⟩

/-- Two tables of whole sectors, with a read and a deletion between them. -/
def sectorEvents : List TraceEvent :=
  [.table [ascii ['k']] 5 1024, .read (ascii ['k']) [], .delete 5, .table [] 6 512]

/-- They are covered where a page is a sector. -/
theorem run_coversTables_sectors : ∃ s tr,
    Served sectorGeometry goodDraws (fun _ => false) s ∧
    Trace.init.run 512 sectorEvents = some tr ∧ tr.operations.length = 3 ∧
    CoversTables sectorGeometry (maxCluster sectorGeometry
      (initializeFlashMemory sectorGeometry goodDraws).badBlockCnt) s tr [(5, 1024), (6, 512)] := by
  obtain ⟨s, hopen, hbetween⟩ := openFTL_between sectorGeometry goodDraws
  have hserved := Served.initialised (initialised_of_open hopen)
  have hbad := initializeFlashMemory_badBlockCnt sectorGeometry goodDraws fun _ => rfl
  have hadm : ∀ c ∈ firstClusters 3, admissible sectorGeometry goodDraws c := by
    unfold admissible
    rw [hbad]
    decide
  have hok : ((firstClusters 3).foldlM (secureFTLWriteOneCluster sectorGeometry 2) s).isOk := by
    have hdecide : (do
        let s ← openFTL sectorGeometry (initializeFlashMemory sectorGeometry goodDraws)
        (firstClusters 3).foldlM (secureFTLWriteOneCluster sectorGeometry 2) s).isOk = true := by
      decide +kernel
    rwa [hopen] at hdecide
  obtain ⟨s', hrun⟩ := Run.of_foldlM (fun _ _ _ hret => (⟨2, hret⟩ : WriteReturns _ _ _ _)) hok
  have htakes : TakesFirst sectorGeometry goodDraws s 3 :=
    ⟨hadm, (hbetween.writes_iff hadm).mp ⟨s', hrun⟩⟩
  obtain ⟨tr, htr, hcovers⟩ := (run_coversTables_iff hserved (by decide) sectorEvents
    (by decide)).mpr ⟨.inl ⟨rfl, by decide, by decide⟩, htakes⟩
  refine ⟨s, tr, hserved, htr, ?_, hcovers⟩
  obtain rfl := Option.some.inj ((show Trace.init.run 512 sectorEvents = some _ from rfl).symm.trans
    htr)
  rfl

/-- A table of 10000 bytes in pages of 4096 bytes is not covered. -/
theorem run_not_coversTables : ¬ ∀ (g : Geometry) (draws : Draws) (selected : Nat → Bool) (s : Ftl)
    (events : List TraceEvent), Served g draws selected s → lbaSize ∣ g.pageSize →
      ((recordedTables events).map Prod.fst).Nodup →
        ∃ tr, Trace.init.run g.pageSize events = some tr ∧
          CoversTables g (maxCluster g (initializeFlashMemory g draws).badBlockCnt) s tr
            (recordedTables events) := by
  intro h
  obtain ⟨s, hopen, -⟩ := openFTL_between megabyteGeometry goodDraws
  obtain ⟨tr, htr, -, hcovers⟩ := h megabyteGeometry goodDraws (fun _ => false) s
    [.table [] 5 10000] (.initialised (initialised_of_open hopen)) (by decide) (by decide)
  obtain ⟨p, ⟨hp, -, hpages, -⟩, -⟩ := hcovers (5, 10000) (List.mem_singleton_self _)
  obtain rfl := Option.some.inj htr
  obtain rfl : p = (0, 2) := Option.some.inj (hp.symm.trans (by decide))
  exact absurd hpages (by decide)

end WiscKey
