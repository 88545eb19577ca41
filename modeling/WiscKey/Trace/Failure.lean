import WiscKey.Compaction.Output

/-!
# What failures leave in the trace

Flushes and compactions record a table when it has been written, before anything is known about
its verification and its place in the next version. The record stays when they fail.
-/

namespace WiscKey

/-- A flush of a memtable or a compaction, with all that it finds. -/
inductive TableJob
  | flush (env : BuildEnv) (versions : VersionSet) (base : Option (Version Bytes))
      (mem : List MemTableEntry) (edit : VersionEdit Bytes)
  | compaction (env : WorkEnv) (c : Compaction) (smallestSnapshot : Nat)

namespace Trace

/-- Two traces hold the same. -/
structure Same (tr tr' : Trace) : Prop where
  keySSTableMap : ∀ t, tr'.keySSTableMap.lookup t = tr.keySSTableMap.lookup t
  ssTableClusterMap : ∀ number,
    tr'.ssTableClusterMap.lookup number = tr.ssTableClusterMap.lookup number
  currentCluster : tr'.currentCluster = tr.currentCluster
  operations : tr'.operations = tr.operations

end Trace

namespace TableJob

/-- Whether `BuildTable`, the verification of an output, or `InstallCompactionResults` returned an
error, and the trace in the end. -/
def run (ucmp : Comparator) (maxFileSize pageSize : Nat) (tr : Trace) :
    TableJob → Option (Bool × Trace)
  | .flush env versions base mem edit =>
    (writeLevel0Table ucmp maxFileSize pageSize env versions base mem edit tr).map fun r =>
      (r.status ≠ .ok, r.trace)
  | .compaction env c smallestSnapshot =>
    let r := doCompactionWork ucmp maxFileSize env c smallestSnapshot
    (tr.run pageSize r.state.events).map fun tr' =>
      (r.state.unusable || r.install.any (· ≠ .ok), tr')

/-- A compaction that keeps no entry of its input, and flushes no memtable meanwhile. -/
def WritesNothing (ucmp : Comparator) : TableJob → Prop
  | .flush .. => False
  | .compaction env c smallestSnapshot =>
    survivors ucmp smallestSnapshot .init c env.input = [] ∧ env.flushes = 0

end TableJob

variable {ucmp : Comparator} {maxFileSize pageSize : Nat} {tr tr' : Trace}

theorem Trace.Same.refl (tr : Trace) : tr.Same tr := ⟨fun _ => rfl, fun _ => rfl, rfl, rfl⟩

/-- Every table that is recorded adds an operation. -/
theorem Trace.operations_step {event : TraceEvent} (h : tr.step pageSize event = some tr') :
    tr.operations.length + (recordedTables [event]).length ≤ tr'.operations.length := by
  cases event with
  | table texts number fileSize =>
    rw [(Trace.recordTable_eq_some.mp h).2]
    simp [recordedTables]
  | read key behind =>
    simp only [Trace.step, Trace.recordRead] at h
    split at h
    · obtain rfl := Option.some.inj h
      exact Nat.le_refl _
    · split at h
      · cases h
      · obtain rfl := Option.some.inj h
        simp [recordedTables]
  | delete number =>
    obtain rfl := Option.some.inj h
    exact Nat.le_refl _

theorem Trace.operations_run {events : List TraceEvent} (h : tr.run pageSize events = some tr') :
    tr.operations.length + (recordedTables events).length ≤ tr'.operations.length := by
  induction events generalizing tr with
  | nil =>
    obtain rfl := Option.some.inj h
    exact Nat.le_refl _
  | cons event events ih =>
    rw [Trace.run, List.foldlM_cons] at h
    obtain ⟨tr₁, hstep, hrest⟩ := Option.bind_eq_some_iff.mp h
    have hfirst := Trace.operations_step hstep
    have hnext := ih hrest
    have hsplit : recordedTables (event :: events) =
        recordedTables [event] ++ recordedTables events :=
      List.filterMap_append (l := [event])
    rw [hsplit, List.length_append]
    omega

/-- A trace in which a table was recorded is not the same. -/
theorem Trace.Same.recordedTables_eq_nil {events : List TraceEvent} (hsame : tr.Same tr')
    (h : tr.run pageSize events = some tr') : (recordedTables events).length = 0 := by
  have hlength := Trace.operations_run h
  rw [hsame.operations] at hlength
  omega

/-- An output of a compaction that is installed holds an entry. -/
theorem CompactionState.Ok.outputs_eq_nil {st : CompactionState} {entries : List TableEntry}
    {flushes : Nat} (h : st.Ok entries flushes) (hbuilder : st.builder = none) :
    st.outputs = [] ↔ entries = [] := by
  have hwritten := h.written
  rw [CompactionState.written, hbuilder] at hwritten
  constructor
  · intro hnil
    rw [← hwritten, hnil]
    rfl
  · intro hnil
    refine List.eq_nil_iff_forall_not_mem.mpr fun p hp => ?_
    have hp2 : p.2 = [] := by
      rw [hnil] at hwritten
      refine List.eq_nil_iff_forall_not_mem.mpr fun e he => ?_
      have hmem : e ∈ st.outputs.flatMap Prod.snd := List.mem_flatMap.mpr ⟨p, hp, he⟩
      rw [(List.append_eq_nil_iff.mp hwritten).1] at hmem
      cases hmem
    have hfirst := (h.outputs p hp).1
    rw [hp2] at hfirst
    cases hfirst

/-- A failed flush has recorded its table. -/
theorem not_same_of_flush {env : BuildEnv} {versions : VersionSet} {base : Option (Version Bytes)}
    {mem : List MemTableEntry} {edit : VersionEdit Bytes} {r : LevelZeroResult}
    (h : writeLevel0Table ucmp maxFileSize pageSize env versions base mem edit tr = some r) :
    ¬ tr.Same r.trace := by
  intro hsame
  have hstep : tr.run pageSize [.table (mem.map MemTableEntry.keyText) versions.nextFileNumber
      (buildTable env versions.nextFileNumber mem).2.fileSize] = some r.trace := by
    rw [Trace.run, List.foldlM_cons]
    exact Option.bind_eq_some_iff.mpr ⟨r.trace, (trace_writeLevel0Table h).1, rfl⟩
  exact absurd (hsame.recordedTables_eq_nil hstep) (by simp [recordedTables])

/-- A failed compaction leaves the trace as it was exactly when it has written nothing. -/
theorem same_of_compaction_iff {env : WorkEnv} {c : Compaction} {smallestSnapshot : Nat}
    (hrun : tr.run pageSize
      (doCompactionWork ucmp maxFileSize env c smallestSnapshot).state.events = some tr')
    (hfailed : (doCompactionWork ucmp maxFileSize env c smallestSnapshot).state.unusable = true ∨
      (doCompactionWork ucmp maxFileSize env c smallestSnapshot).install.isSome) :
    tr.Same tr' ↔
      survivors ucmp smallestSnapshot .init c env.input = [] ∧ env.flushes = 0 := by
  obtain ⟨hinstalled, hreached⟩ := doCompactionWork_written
     (c := c)
  generalize doCompactionWork ucmp maxFileSize env c smallestSnapshot = r
    at hrun hfailed hinstalled hreached
  rcases hfailed with hunusable | hinstall
  · obtain ⟨hwritten, hevents⟩ := hreached.unusable hunusable
    refine iff_of_false (fun hsame => ?_) fun hnothing => ?_
    · have hlength := hsame.recordedTables_eq_nil hrun
      rw [hreached.recorded] at hlength
      exact hevents (List.length_eq_zero_iff.mp hlength)
    · have hprefix := hreached.written
      rw [hnothing.1] at hprefix
      exact hwritten (List.prefix_nil.mp hprefix)
  · obtain ⟨hok, hbuilder⟩ := hinstalled hinstall
    constructor
    · intro hsame
      have hlength := hsame.recordedTables_eq_nil hrun
      rw [hok.recorded, hok.events] at hlength
      have houtputs : r.state.outputs = [] := List.length_eq_zero_iff.mp (by omega)
      exact ⟨(hok.outputs_eq_nil hbuilder).mp houtputs, by omega⟩
    · rintro ⟨hnothing, hflushes⟩
      have hevents := hok.events
      rw [(hok.outputs_eq_nil hbuilder).mpr hnothing, hflushes] at hevents
      rw [List.length_eq_zero_iff.mp hevents] at hrun
      obtain rfl := Option.some.inj hrun
      exact .refl tr

/-- A failed flush or compaction leaves the trace as it was exactly when it has written nothing. -/
theorem failed_same_iff {job : TableJob}
    (h : job.run ucmp maxFileSize pageSize tr = some (true, tr')) :
    tr.Same tr' ↔ job.WritesNothing ucmp := by
  cases job with
  | flush env versions base mem edit =>
    simp only [TableJob.run, Option.map_eq_some_iff] at h
    obtain ⟨r, hr, htr⟩ := h
    obtain rfl := congrArg Prod.snd htr
    exact iff_of_false (not_same_of_flush hr) id
  | compaction env c smallestSnapshot =>
    simp only [TableJob.run, Option.map_eq_some_iff] at h
    obtain ⟨tr₁, hrun, htr⟩ := h
    obtain rfl := congrArg Prod.snd htr
    refine same_of_compaction_iff hrun ?_
    have hfailed := congrArg Prod.fst htr
    simp only [Bool.or_eq_true, Option.any_eq_true] at hfailed
    rcases hfailed with hunusable | ⟨s, hs, -⟩
    · exact .inl hunusable
    · exact .inr (Option.isSome_of_mem hs)

/-- A compaction of one tombstone, whose key is in no deeper level, with an error at the end. -/
def tombstoneJob : TableJob :=
  let key := appendInternalKey ⟨ascii ['k'], 1, .deletion⟩
  .compaction
    ⟨[(⟨key, []⟩, ⟨false, none, goodFinish, 6, .ok, 4096, goodFinish⟩)], false, goodFinish, .ok,
      .ioError "MANIFEST-000002"⟩
    ⟨0, 2 ^ 21, .empty, .empty, [⟨5, 4096, key, key⟩], [], [], 0, false, 0, fun _ => 0⟩ 1

/-- The tombstone is dropped, and the failure leaves the trace as it was. -/
theorem failed_same_tombstone : ∃ tr',
    tombstoneJob.run bytewiseComparator (2 ^ 21) 4096 .init = some (true, tr') ∧
      Trace.init.Same tr' := by
  have h : tombstoneJob.run bytewiseComparator (2 ^ 21) 4096 .init = some (true, .init) := rfl
  exact ⟨_, h, (failed_same_iff h).mpr ⟨by decide, rfl⟩⟩

/-- A flush whose table cannot be verified leaves the table in the trace. -/
theorem failed_flush_not_same : ¬ ∀ (ucmp : Comparator) (maxFileSize pageSize : Nat) (tr tr' : Trace)
    (job : TableJob), job.run ucmp maxFileSize pageSize tr = some (true, tr') → tr.Same tr' := by
  intro h
  have hsame := h bytewiseComparator (2 ^ 21) 4096 .init _
    (.flush { goodBuild with verify := .ioError "000005.ldb" } .init none [entryK 1] .empty) rfl
  exact absurd hsame.operations (by decide)

end WiscKey
