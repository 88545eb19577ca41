import WiscKey.Trace.State

/-!
# The trace over the life of a database

Flushes and the outputs of compactions record tables, reads record the tables of their keys, and
deletions of tables leave the trace alone. The tables stand behind each other in the units of the
trace, in the order in which they were recorded.
-/

namespace WiscKey

/-- What the engine does to the trace. -/
inductive TraceEvent
  /-- A flush or an output of a compaction, with the texts it records for its keys. -/
  | table (texts : List Bytes) (number fileSize : Nat)
  | read (key behind : Bytes)
  | delete (number : Nat)
  deriving DecidableEq, Repr

namespace Trace

/-- One event. -/
def step (pageSize : Nat) (tr : Trace) : TraceEvent → Option Trace
  | .table texts number fileSize => (tr.recordKeys texts number).recordTable pageSize number fileSize
  | .read key behind => tr.recordRead key behind
  | .delete _ => some tr

/-- The events, one after the other. -/
def run (pageSize : Nat) (tr : Trace) (events : List TraceEvent) : Option Trace :=
  events.foldlM (step pageSize) tr

end Trace

/-- The numbers and the sizes of the tables that events record. -/
def recordedTables (events : List TraceEvent) : List (Nat × Nat) :=
  events.filterMap fun
    | .table _ number fileSize => some (number, fileSize)
    | _ => none

/-- A table with the clusters that it is given. -/
structure TableRange where
  number : Nat
  fileSize : Nat
  start : Int
  length : Int
  deriving DecidableEq, Repr

/-- The operation that writes or reads the table. -/
def TableRange.operation (r : TableRange) (accessType : AccessType) : Operation :=
  ⟨accessType, r.start, r.length⟩

/-- The tables with their clusters, from a start on. -/
def tableRanges (pageSize : Nat) (start : Int) : List (Nat × Nat) → List TableRange
  | [] => []
  | (number, fileSize) :: tables =>
    let length := Trace.clusterLength pageSize fileSize
    ⟨number, fileSize, start, length⟩ :: tableRanges pageSize (start + length) tables

/-- What a trace says about the tables that were recorded in it. -/
structure Trace.Holds (tr : Trace) (ranges : List TableRange) : Prop where
  current : tr.currentCluster = (ranges.map TableRange.length).sum
  writes : ∀ r ∈ ranges, r.operation .writeType ∈ tr.operations
  operations : ∀ op ∈ tr.operations, ∃ r ∈ ranges, op = r.operation op.accessType
  lookup : ∀ number p, tr.ssTableClusterMap.lookup number = some p →
    ∃ r ∈ ranges, r.number = number ∧ p = (r.start, r.length)
  found : ∀ r ∈ ranges, (tr.ssTableClusterMap.lookup r.number).isSome
  keys : ∀ t number, tr.keySSTableMap.lookup t = some number →
    number = 0 ∨ (tr.ssTableClusterMap.lookup number).isSome

namespace Trace

variable {pageSize : Nat} {tr tr' : Trace} {ranges : List TableRange}

theorem holds_init : init.Holds [] where
  current := rfl
  writes := fun _ h => nomatch h
  operations := fun _ h => nomatch h
  lookup := fun _ _ h => nomatch h
  found := fun _ h => nomatch h
  keys := fun _ _ h => nomatch h

/-- A table is recorded with the clusters behind all the others. -/
theorem Holds.table (h : tr.Holds ranges) {texts : List Bytes} {number fileSize : Nat}
    (hstep : tr.step pageSize (.table texts number fileSize) = some tr') :
    tr'.Holds (ranges ++ tableRanges pageSize tr.currentCluster [(number, fileSize)]) := by
  obtain ⟨hadd, htr⟩ := recordTable_eq_some.mp hstep
  obtain ⟨-, hcurrent⟩ := addInt_eq_some.mp hadd
  have hkeys := @lookup_recordKeys tr number texts
  generalize (tr.recordKeys texts number).keySSTableMap = keyMap at htr hkeys
  simp only [recordKeys_currentCluster, recordKeys_ssTableClusterMap, recordKeys_operations]
    at htr hcurrent
  have hlookup : ∀ n, tr'.ssTableClusterMap.lookup n = if n = number then
      some (tr.currentCluster, clusterLength pageSize fileSize)
      else tr.ssTableClusterMap.lookup n := by
    intro n
    rw [htr]
    split
    · rename_i hn
      subst hn
      exact AList.lookup_insert _
    · rename_i hn
      exact AList.lookup_insert_ne hn
  constructor
  · rw [hcurrent, h.current]
    simp [tableRanges]
  · intro r hr
    rw [htr]
    rcases List.mem_append.mp hr with hr | hr
    · exact List.mem_append_left _ (h.writes r hr)
    · obtain rfl := List.mem_singleton.mp hr
      exact List.mem_append_right _ (List.mem_singleton_self _)
  · intro op hop
    rw [htr] at hop
    rcases List.mem_append.mp hop with hop | hop
    · obtain ⟨r, hr, hop⟩ := h.operations op hop
      exact ⟨r, List.mem_append_left _ hr, hop⟩
    · obtain rfl := List.mem_singleton.mp hop
      exact ⟨_, List.mem_append_right _ (List.mem_singleton_self _), rfl⟩
  · intro n p hp
    rw [hlookup] at hp
    split at hp
    · rename_i hn
      exact ⟨_, List.mem_append_right _ (List.mem_singleton_self _), hn.symm,
        (Option.some.inj hp).symm⟩
    · obtain ⟨r, hr, hrest⟩ := h.lookup n p hp
      exact ⟨r, List.mem_append_left _ hr, hrest⟩
  · intro r hr
    rw [hlookup]
    split
    · rfl
    · rename_i hn
      rcases List.mem_append.mp hr with hr | hr
      · exact h.found r hr
      · obtain rfl := List.mem_singleton.mp hr
        exact absurd rfl hn
  · intro t n hn
    rw [hlookup]
    split
    · exact .inr rfl
    · rename_i hne
      rw [htr] at hn
      rw [hkeys] at hn
      split at hn
      · exact absurd (Option.some.inj hn).symm hne
      · exact h.keys t n hn

/-- A read finds the clusters of the table it is directed to. -/
theorem Holds.read (h : tr.Holds ranges) (pageSize : Nat) (key behind : Bytes) :
    ∃ tr', tr.step pageSize (.read key behind) = some tr' ∧ tr'.Holds ranges ∧
      tr'.currentCluster = tr.currentCluster ∧
      tr'.operations.filter (fun op => op.accessType = .writeType) =
        tr.operations.filter (fun op => op.accessType = .writeType) := by
  let t := cString (key ++ behind)
  let number := (tr.keySSTableMap.lookup t).getD 0
  have hfound : number = 0 ∨ (tr.ssTableClusterMap.lookup number).isSome := by
    cases hlookup : tr.keySSTableMap.lookup t with
    | none => exact .inl (by simp [number, hlookup])
    | some n =>
      rw [show number = n by simp [number, hlookup]]
      exact h.keys t n hlookup
  have hkeys : ∀ t' n, (tr.keySSTableMap.insert t number).lookup t' = some n →
      n = 0 ∨ (tr.ssTableClusterMap.lookup n).isSome := by
    intro t' n hn
    rcases eq_or_ne t' t with rfl | hne
    · rw [AList.lookup_insert] at hn
      exact Option.some.inj hn ▸ hfound
    · rw [AList.lookup_insert_ne hne] at hn
      exact h.keys t' n hn
  by_cases hzero : number = 0
  · refine ⟨_, recordRead_zero hzero,
      ⟨h.current, h.writes, h.operations, h.lookup, h.found, ?_⟩, rfl, rfl⟩
    rwa [hzero] at hkeys
  · obtain ⟨p, hp⟩ := Option.isSome_iff_exists.mp (hfound.resolve_left hzero)
    obtain ⟨r, hr, -, rfl⟩ := h.lookup number p hp
    refine ⟨_, recordRead_found rfl hzero hp, ⟨h.current,
      fun r hr => List.mem_append_left _ (h.writes r hr), fun op hop => ?_, h.lookup, h.found,
      hkeys⟩, rfl, by rw [List.filter_append]; exact List.append_nil _⟩
    rcases List.mem_append.mp hop with hop | hop
    · exact h.operations op hop
    · obtain rfl := List.mem_singleton.mp hop
      exact ⟨r, hr, rfl⟩

theorem recordedTables_cons_table (texts : List Bytes) (number fileSize : Nat)
    (events : List TraceEvent) : recordedTables (.table texts number fileSize :: events) =
      (number, fileSize) :: recordedTables events := rfl

/-- A run records its tables behind those that were there. -/
theorem Holds.run (h : tr.Holds ranges) {events : List TraceEvent}
    (hrun : tr.run pageSize events = some tr') : tr'.Holds
      (ranges ++ tableRanges pageSize tr.currentCluster (recordedTables events)) := by
  induction events generalizing tr ranges with
  | nil =>
    obtain rfl := Option.some.inj hrun
    exact (List.append_nil ranges).symm ▸ h
  | cons event events ih =>
    rw [Trace.run, List.foldlM_cons] at hrun
    obtain ⟨tr₁, hstep, hrest⟩ := Option.bind_eq_some_iff.mp hrun
    cases event with
    | table texts number fileSize =>
      have hnext := ih (h.table hstep) hrest
      obtain ⟨-, hcurrent⟩ := addInt_eq_some.mp (recordTable_eq_some.mp hstep).1
      rw [hcurrent, List.append_assoc] at hnext
      exact hnext
    | read key behind =>
      obtain ⟨tr₂, hread, hholds, hcurrent, -⟩ := h.read pageSize key behind
      obtain rfl := Option.some.inj (hstep.symm.trans hread)
      have hnext := ih hholds hrest
      rwa [hcurrent] at hnext
    | delete number =>
      obtain rfl := Option.some.inj hstep
      exact ih h hrest

/-- The write operations of a run are those of its tables, in their order. -/
theorem Holds.writes_run (h : tr.Holds ranges) {events : List TraceEvent}
    (hrun : tr.run pageSize events = some tr') :
    tr'.operations.filter (fun op => op.accessType = .writeType) =
      tr.operations.filter (fun op => op.accessType = .writeType) ++
        (tableRanges pageSize tr.currentCluster (recordedTables events)).map
          fun r => r.operation .writeType := by
  induction events generalizing tr ranges with
  | nil =>
    obtain rfl := Option.some.inj hrun
    exact (List.append_nil _).symm
  | cons event events ih =>
    rw [Trace.run, List.foldlM_cons] at hrun
    obtain ⟨tr₁, hstep, hrest⟩ := Option.bind_eq_some_iff.mp hrun
    cases event with
    | table texts number fileSize =>
      obtain ⟨hadd, htr⟩ := recordTable_eq_some.mp hstep
      obtain ⟨-, hcurrent⟩ := addInt_eq_some.mp hadd
      have hoperations := congrArg Trace.operations htr
      rw [ih (h.table hstep) hrest, hoperations, hcurrent, List.filter_append, List.append_assoc]
      rfl
    | read key behind =>
      obtain ⟨tr₂, hread, hholds, hcurrent, hwrites⟩ := h.read pageSize key behind
      obtain rfl := Option.some.inj (hstep.symm.trans hread)
      rw [ih hholds hrest, hcurrent, hwrites]
      rfl
    | delete number =>
      obtain rfl := Option.some.inj hstep
      exact ih h hrest

/-- A run returns as long as the clusters of its tables are numbers of an `int`. -/
theorem Holds.run_returns_iff (h : tr.Holds ranges) {events : List TraceEvent} :
    (∃ tr', tr.run pageSize events = some tr') ↔
      ∀ r ∈ tableRanges pageSize tr.currentCluster (recordedTables events),
        -2 ^ 31 ≤ r.start + r.length ∧ r.start + r.length < 2 ^ 31 := by
  induction events generalizing tr ranges with
  | nil => exact iff_of_true ⟨tr, rfl⟩ (fun _ hr => nomatch hr)
  | cons event events ih =>
    cases event with
    | table texts number fileSize =>
      rw [recordedTables_cons_table, tableRanges, List.forall_mem_cons]
      constructor
      · rintro ⟨tr', hrun⟩
        rw [Trace.run, List.foldlM_cons] at hrun
        obtain ⟨tr₁, hstep, hrest⟩ := Option.bind_eq_some_iff.mp hrun
        obtain ⟨hfits, hcurrent⟩ := addInt_eq_some.mp (recordTable_eq_some.mp hstep).1
        have hnext := (ih (h.table hstep)).mp ⟨tr', hrest⟩
        rw [hcurrent] at hnext
        exact ⟨hfits, hnext⟩
      · rintro ⟨hfits, hrest⟩
        have hadd := addInt_eq_some.mpr ⟨hfits, rfl⟩
        have hstep : tr.step pageSize (.table texts number fileSize) = some
            ⟨(tr.recordKeys texts number).keySSTableMap, tr.ssTableClusterMap.insert number
              (tr.currentCluster, clusterLength pageSize fileSize),
              tr.currentCluster + clusterLength pageSize fileSize, tr.operations ++
                [⟨.writeType, tr.currentCluster, clusterLength pageSize fileSize⟩]⟩ :=
          recordTable_eq_some.mpr ⟨hadd, rfl⟩
        obtain ⟨tr', hrun⟩ := (ih (h.table hstep)).mpr hrest
        refine ⟨tr', ?_⟩
        rw [Trace.run, List.foldlM_cons]
        exact Option.bind_eq_some_iff.mpr ⟨_, hstep, hrun⟩
    | read key behind =>
      obtain ⟨tr₁, hstep, hholds, hcurrent, -⟩ := h.read pageSize key behind
      have hnext := ih hholds
      rw [hcurrent] at hnext
      refine Iff.trans ?_ hnext
      rw [Trace.run, List.foldlM_cons, hstep]
      exact Iff.rfl
    | delete number => exact ih h

end Trace

end WiscKey
