import WiscKey.Trace.History
import WiscKey.Trace.Replay

/-!
# Operations inside the device

Every table is given the clusters behind those of all the tables before it, and a deleted table
gives none back. The operations stay inside the device as long as all the tables that were ever
recorded fit it together.
-/

namespace WiscKey

open Flash

/-- The clusters that an operation uses run from the one of its first sector to the one of its
last. -/
theorem Operation.mem_clusters {ratio : Nat} {op : Operation} {c : Int} : c ∈ op.clusters ratio ↔
    op.startCluster.tdiv ratio ≤ c ∧ c ≤ (op.startCluster - 1 + op.length).tdiv ratio := by
  simp only [clusters, List.mem_map, List.mem_range, deviceLength, deviceStart]
  constructor
  · rintro ⟨i, hi, rfl⟩
    omega
  · rintro ⟨hfirst, hlast⟩
    exact ⟨(c - op.startCluster.tdiv ratio).toNat, by omega, by omega⟩

/-- Sectors in front of a number of whole clusters are in front of it as clusters. -/
theorem tdiv_lt_iff {ratio : Nat} (hratio : 0 < ratio) {a bound : Int} (ha : 0 ≤ a) :
    a.tdiv ratio < bound ↔ a < bound * ratio := by
  rw [Int.tdiv_eq_ediv_of_nonneg ha]
  exact Int.ediv_lt_iff_lt_mul (by exact_mod_cast hratio)

/-- The length of a table whose size is an `int`. -/
theorem clusterLength_eq {pageSize fileSize : Nat} (h : fileSize < 2 ^ 31) :
    Trace.clusterLength pageSize fileSize = (fileSize / pageSize : Nat) := by
  have hmod : fileSize % 2 ^ 32 = fileSize := Nat.mod_eq_of_lt (by omega)
  have hint : toInt32 fileSize = (fileSize : Int) := by
    unfold toInt32
    rw [hmod, if_pos h]
    omega
  rw [Trace.clusterLength, hint]
  rfl

/-- The length of all the tables together. -/
def totalLength (pageSize : Nat) (tables : List (Nat × Nat)) : Nat :=
  (tables.map fun t => t.2 / pageSize).sum

section Ranges

variable {pageSize : Nat} {start : Int} {tables : List (Nat × Nat)}

/-- A table lies between the start and the end of all the tables. -/
theorem tableRanges_bounds (hsizes : ∀ t ∈ tables, t.2 < 2 ^ 31) {r : TableRange}
    (hr : r ∈ tableRanges pageSize start tables) : start ≤ r.start ∧ 0 ≤ r.length ∧
      r.start + r.length ≤ start + totalLength pageSize tables := by
  induction tables generalizing start with
  | nil => cases hr
  | cons t tables ih =>
    obtain ⟨number, fileSize⟩ := t
    obtain ⟨hsize, hrest⟩ := List.forall_mem_cons.mp hsizes
    have hlength := @clusterLength_eq pageSize _ hsize
    simp only [tableRanges, hlength, List.mem_cons] at hr
    simp only [totalLength, List.map_cons, List.sum_cons] at ih ⊢
    generalize fileSize / pageSize = n at hr
    rcases hr with rfl | hr
    · refine ⟨le_rfl, by simp only; omega, ?_⟩
      simp only
      omega
    · have hbounds := ih hrest hr
      omega

/-- The last table with clusters ends where all the tables do. -/
theorem exists_last_range (hsizes : ∀ t ∈ tables, t.2 < 2 ^ 31)
    (htotal : 0 < totalLength pageSize tables) : ∃ r ∈ tableRanges pageSize start tables,
      0 < r.length ∧ r.start + r.length = start + totalLength pageSize tables := by
  induction tables generalizing start with
  | nil => cases htotal
  | cons t tables ih =>
    obtain ⟨number, fileSize⟩ := t
    obtain ⟨hsize, hrest⟩ := List.forall_mem_cons.mp hsizes
    have hlength := @clusterLength_eq pageSize _ hsize
    have hsum : totalLength pageSize ((number, fileSize) :: tables) =
        fileSize / pageSize + totalLength pageSize tables := rfl
    simp only [tableRanges, hlength, List.mem_cons]
    rcases Nat.eq_zero_or_pos (totalLength pageSize tables) with hzero | hpos
    · refine ⟨_, .inl rfl, ?_, ?_⟩
      · simp only
        omega
      · simp only
        omega
    · obtain ⟨r, hr, hlen, hend⟩ := @ih (start + (fileSize / pageSize : Nat)) hrest hpos
      exact ⟨r, .inr hr, hlen, by omega⟩

end Ranges

/-- The events overflow no `int`, and the operations they record use only clusters of the
device. -/
def StaysInside (pageSize ratio : Nat) (maxCluster : Int) (events : List TraceEvent) : Prop :=
  (∀ t ∈ recordedTables events, toInt32 t.2 = t.2) ∧
    ∃ tr, Trace.init.run pageSize events = some tr ∧
      ∀ op ∈ tr.operations, ∀ c ∈ op.clusters ratio, 0 ≤ c ∧ c < maxCluster

/-- The sizes are `int`s, and all the tables fit the device. Tables that are all smaller than a
page need no device where a page is a sector. -/
def FitsDevice (pageSize ratio : Nat) (maxCluster : Int) (tables : List (Nat × Nat)) : Prop :=
  (∀ t ∈ tables, t.2 < 2 ^ 31) ∧ (tables = [] ∨ (ratio = 1 ∧ ∀ t ∈ tables, t.2 < pageSize) ∨
    (0 < maxCluster ∧ (totalLength pageSize tables : Int) ≤ maxCluster * ratio))

theorem toInt32_eq_iff (n : Nat) : toInt32 n = n ↔ n < 2 ^ 31 := by
  unfold toInt32
  split <;> omega

/-- The sectors of the clusters are an `int`. -/
theorem maxCluster_mul_lt (g : Geometry) (badBlockCnt : Nat) (h : 0 < maxCluster g badBlockCnt) :
    maxCluster g badBlockCnt * g.pageToLBARatio < 2 ^ 31 := by
  have hratio : 0 < (g.pageToLBARatio : Int) := by exact_mod_cast g.pageToLBARatio_pos
  have hpos : 0 ≤ maxLBA g badBlockCnt := by
    by_contra hneg
    have hopposite := Int.tdiv_nonneg (a := -maxLBA g badBlockCnt) (by omega) hratio.le
    rw [Int.neg_tdiv] at hopposite
    unfold maxCluster at h
    omega
  have hmul : maxCluster g badBlockCnt * g.pageToLBARatio ≤ maxLBA g badBlockCnt := by
    rw [maxCluster, Int.tdiv_eq_ediv_of_nonneg hpos]
    exact Int.ediv_mul_le _ hratio.ne'
  have hbound := maxLBA_lt g badBlockCnt
  omega

/-- Where a table without clusters begins the device, rounding toward zero gives it one, unless a
page is a sector. -/
theorem neg_one_tdiv {ratio : Nat} (hratio : 0 < ratio) :
    (-1 : Int).tdiv ratio = if ratio = 1 then -1 else 0 := by
  split
  · rename_i hone
    subst hone
    rfl
  · rename_i hmore
    rw [Int.neg_tdiv, Int.tdiv_eq_zero_of_lt (by decide) (by omega)]
    rfl

section Inside

variable {pageSize ratio : Nat} {bound : Int} {tables : List (Nat × Nat)}

theorem totalLength_eq_zero_iff (hpage : 0 < pageSize) :
    totalLength pageSize tables = 0 ↔ ∀ t ∈ tables, t.2 < pageSize := by
  induction tables with
  | nil => exact iff_of_true rfl (fun _ ht => nomatch ht)
  | cons t tables ih =>
    have hcons : totalLength pageSize (t :: tables) =
        t.2 / pageSize + totalLength pageSize tables := rfl
    rw [hcons, Nat.add_eq_zero_iff, ih, List.forall_mem_cons, Nat.div_eq_zero_iff_lt hpage]

/-- The last cluster of a table that ends behind sector zero. -/
theorem last_mem_clusters (hratio : 0 < (ratio : Int)) {r : TableRange} {accessType : AccessType}
    (hstart : 0 ≤ r.start) (hlength : 0 < r.length) :
    (r.start - 1 + r.length).tdiv ratio ∈ (r.operation accessType).clusters ratio := by
  refine Operation.mem_clusters.mpr ⟨?_, le_rfl⟩
  change r.start.tdiv ratio ≤ (r.start - 1 + r.length).tdiv ratio
  rw [Int.tdiv_eq_ediv_of_nonneg hstart, Int.tdiv_eq_ediv_of_nonneg (by omega)]
  exact Int.ediv_le_ediv hratio (by omega)

/-- Where every table's clusters are inside, all the tables fit. -/
theorem fits_of_inside (hratio : 0 < ratio) (hpage : 0 < pageSize)
    (hsizes : ∀ t ∈ tables, t.2 < 2 ^ 31)
    (hinside : ∀ r ∈ tableRanges pageSize 0 tables,
      ∀ c ∈ (r.operation .writeType).clusters ratio, 0 ≤ c ∧ c < bound) :
    tables = [] ∨ (ratio = 1 ∧ ∀ t ∈ tables, t.2 < pageSize) ∨
      (0 < bound ∧ (totalLength pageSize tables : Int) ≤ bound * ratio) := by
  rcases Nat.eq_zero_or_pos (totalLength pageSize tables) with hzero | hpos
  · have hsmall := (totalLength_eq_zero_iff hpage).mp hzero
    cases tables with
    | nil => exact .inl rfl
    | cons t tables =>
      by_cases hone : ratio = 1
      · exact .inr (.inl ⟨hone, hsmall⟩)
      · have hlength : Trace.clusterLength pageSize t.2 = 0 := by
          rw [clusterLength_eq (hsizes t (List.mem_cons_self ..)),
            Nat.div_eq_of_lt (hsmall t (List.mem_cons_self ..))]
          rfl
        have hfirst := hinside _ (List.mem_cons_self ..) 0
        simp only [Operation.mem_clusters, TableRange.operation, hlength, Int.zero_tdiv, le_refl,
          true_and, Int.add_zero, zero_sub, neg_one_tdiv hratio, if_neg hone] at hfirst
        have hbound := hfirst trivial
        rw [hzero]
        have hmul : 0 ≤ bound * ratio := Int.mul_nonneg hbound.le (by omega)
        exact .inr (.inr ⟨hbound, hmul⟩)
  · obtain ⟨r, hr, hlength, hend⟩ := @exists_last_range _ 0 _ hsizes hpos
    have hstart := (tableRanges_bounds hsizes hr).1
    have hlast := (hinside r hr _ (last_mem_clusters (by omega) hstart hlength)).2
    rw [tdiv_lt_iff hratio (by omega)] at hlast
    have hproduct : 0 < bound * ratio := by omega
    have hbound : 0 < bound := by
      by_contra hneg
      have := Int.mul_nonpos_of_nonpos_of_nonneg (not_lt.mp hneg) (Int.natCast_nonneg ratio)
      omega
    exact .inr (.inr ⟨hbound, by omega⟩)

/-- Where all the tables fit, every table's clusters are inside. -/
theorem inside_of_fits (hratio : 0 < ratio) (hpage : 0 < pageSize)
    (h : FitsDevice pageSize ratio bound tables) {r : TableRange}
    (hr : r ∈ tableRanges pageSize 0 tables) {accessType : AccessType} {c : Int}
    (hc : c ∈ (r.operation accessType).clusters ratio) : 0 ≤ c ∧ c < bound := by
  obtain ⟨hsizes, hfits⟩ := h
  obtain ⟨hstart, hlength, hend⟩ := tableRanges_bounds hsizes hr
  obtain ⟨hfirst, hlast⟩ := Operation.mem_clusters.mp hc
  have hnonneg : 0 ≤ c := le_trans (Int.tdiv_nonneg hstart (by omega)) hfirst
  refine ⟨hnonneg, ?_⟩
  have hlast' : c ≤ (r.start - 1 + r.length).tdiv ratio := hlast
  rcases hfits with rfl | ⟨hone, hsmall⟩ | ⟨hbound, htotal⟩
  · cases hr
  · rw [(totalLength_eq_zero_iff hpage).mpr hsmall] at hend
    have hsum : r.start - 1 + r.length = -1 := by omega
    rw [hsum, neg_one_tdiv hratio, if_pos hone] at hlast'
    omega
  · rcases (show r.start - 1 + r.length = -1 ∨ 0 ≤ r.start - 1 + r.length by omega) with hsum | hsum
    · rw [hsum, neg_one_tdiv hratio] at hlast'
      split at hlast' <;> omega
    · have hlt := (@tdiv_lt_iff _ hratio _ bound hsum).mpr (by omega)
      omega

/-- The numbers of all the tables that fit are `int`s. -/
theorem totalLength_lt (hpage : 0 < pageSize) (hlimit : 0 < bound → bound * ratio < 2 ^ 31)
    (h : FitsDevice pageSize ratio bound tables) : totalLength pageSize tables < 2 ^ 31 := by
  rcases h.2 with rfl | ⟨-, hsmall⟩ | ⟨hbound, htotal⟩
  · exact Nat.two_pow_pos 31
  · rw [(totalLength_eq_zero_iff hpage).mpr hsmall]
    decide
  · have := hlimit hbound
    omega

end Inside

/-- The operations of a run stay inside the device exactly when all its tables fit it. -/
theorem staysInside_iff (g : Geometry) (badBlockCnt : Nat) (events : List TraceEvent) :
    StaysInside g.pageSize g.pageToLBARatio (maxCluster g badBlockCnt) events ↔
      FitsDevice g.pageSize g.pageToLBARatio (maxCluster g badBlockCnt)
        (recordedTables events) := by
  have hreturns := @Trace.Holds.run_returns_iff g.pageSize _ _ Trace.holds_init events
  have hcurrent : Trace.init.currentCluster = 0 := rfl
  rw [hcurrent] at hreturns
  constructor
  · rintro ⟨hints, tr, htr, hinside⟩
    have hsizes : ∀ t ∈ recordedTables events, t.2 < 2 ^ 31 :=
      fun t ht => (toInt32_eq_iff t.2).mp (hints t ht)
    have hholds := Trace.holds_init.run htr
    rw [hcurrent, List.nil_append] at hholds
    exact ⟨hsizes, fits_of_inside g.pageToLBARatio_pos g.pageSize_pos hsizes
      fun r hr => hinside _ (hholds.writes r hr)⟩
  · intro hfits
    have htotal := totalLength_lt g.pageSize_pos (maxCluster_mul_lt g badBlockCnt) hfits
    obtain ⟨tr, htr⟩ := hreturns.mpr fun r hr => by
      have hbounds := tableRanges_bounds hfits.1 hr
      omega
    have hholds := Trace.holds_init.run htr
    rw [hcurrent, List.nil_append] at hholds
    refine ⟨fun t ht => (toInt32_eq_iff t.2).mpr (hfits.1 t ht), tr, htr, fun op hop c hc => ?_⟩
    obtain ⟨r, hr, hrange⟩ := hholds.operations op hop
    rw [hrange] at hc
    exact inside_of_fits g.pageToLBARatio_pos g.pageSize_pos hfits hr hc

/-- Three tables of two megabytes leave a device of one megabyte. -/
theorem megabyte_not_staysInside : ¬ ∀ (g : Geometry) (badBlockCnt : Nat)
    (events : List TraceEvent),
    StaysInside g.pageSize g.pageToLBARatio (maxCluster g badBlockCnt) events := by
  intro h
  let events : List TraceEvent :=
    [.table [] 5 (2 ^ 21), .table [] 6 (2 ^ 21), .table [] 7 (2 ^ 21)]
  let last : TableRange := ⟨7, 2 ^ 21, 1024, 512⟩
  obtain ⟨-, tr, htr, hinside⟩ := h megabyteGeometry 0 events
  have hholds := Trace.holds_init.run htr
  have hlast : last ∈ [] ++ tableRanges megabyteGeometry.pageSize 0 (recordedTables events) := by
    decide
  have hcluster : (128 : Int) ∈ (last.operation .writeType).clusters
      megabyteGeometry.pageToLBARatio := Operation.mem_clusters.mpr (by decide)
  have hlt := (hinside _ (hholds.writes _ hlast) 128 hcluster).2
  have hmax : maxCluster megabyteGeometry 0 = 128 := by decide
  omega

end WiscKey
