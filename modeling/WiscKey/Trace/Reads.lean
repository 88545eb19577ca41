import WiscKey.Trace.History
import WiscKey.Trace.LevelZero
import WiscKey.Version.Get

/-!
# The reads in the trace

`DBImpl::Get` adds the operation that reads the table that was last recorded under the text of the
key, wherever the version that it returns was found.
-/

namespace WiscKey

/-- `DBImpl::Get`: what it returns, and the trace afterwards. The bytes `behind` follow the key in
memory. -/
def ReadState.get (ucmp : Comparator) (db : ReadState) (snapshot : Option Nat)
    (key behind : Bytes) (tr : Trace) : Option (ReadResult × Trace) := do
  let r := db.lookup ucmp snapshot key
  let tr ← tr.recordRead key behind
  some (r, tr)

/-- A read added the operation that reads the table where the version was found, and none for a
version in a memtable and for a key in no table. -/
def ReadState.ReadRecorded (ucmp : Comparator) (db : ReadState) (key : Bytes) (r : ReadResult)
    (tr tr' : Trace) : Prop :=
  match r.found with
  | .table number => ∃ p, tr.ssTableClusterMap.lookup number = some p ∧
      tr'.operations = tr.operations ++ [⟨.readType, p.1, p.2⟩]
  | .memTable => tr'.operations = tr.operations
  | .nowhere => db.InNoTable ucmp key → tr'.operations = tr.operations

/-- The number of the table that was last recorded with a text, from the last one on. -/
def TraceEvent.recordedAfter (t : Bytes) (last : Nat) : TraceEvent → Nat
  | .table texts number _ => if t ∈ texts then number else last
  | _ => last

/-- The number of the table that was last recorded with a text, or zero. -/
def lastRecorded (t : Bytes) (events : List TraceEvent) : Nat :=
  events.foldl (TraceEvent.recordedAfter t) 0

/-- The table that was last recorded with the C string of a key is given the clusters of the table
where the version is found, and there is none for a version in a memtable and for a key in no
table. -/
def ReadState.LastIsRead (ucmp : Comparator) (db : ReadState) (snapshot : Option Nat)
    (key behind : Bytes) (events : List TraceEvent) (tr : Trace) : Prop :=
  let last := lastRecorded (cString (key ++ behind)) events
  match (db.lookup ucmp snapshot key).found with
  | .table number =>
    last ≠ 0 ∧ tr.ssTableClusterMap.lookup last = tr.ssTableClusterMap.lookup number
  | .memTable => last = 0
  | .nowhere => db.InNoTable ucmp key → last = 0

namespace Trace

variable {pageSize : Nat} {tr tr' : Trace}

/-- What a read leaves for the texts. -/
theorem lookup_recordRead {key behind : Bytes} (h : tr.recordRead key behind = some tr')
    (t : Bytes) : (tr'.keySSTableMap.lookup t).getD 0 = (tr.keySSTableMap.lookup t).getD 0 := by
  have hinsert : ∀ m : AList fun _ : Bytes => Nat,
      m = tr.keySSTableMap.insert (cString (key ++ behind))
        ((tr.keySSTableMap.lookup (cString (key ++ behind))).getD 0) →
      (m.lookup t).getD 0 = (tr.keySSTableMap.lookup t).getD 0 := by
    rintro m rfl
    rcases eq_or_ne t (cString (key ++ behind)) with rfl | hne
    · rw [AList.lookup_insert, Option.getD_some]
    · rw [AList.lookup_insert_ne hne]
  apply hinsert
  simp only [recordRead] at h
  split at h
  · obtain rfl := Option.some.inj h
    rfl
  · split at h
    · cases h
    · obtain rfl := Option.some.inj h
      rfl

/-- The map of the texts has the table that was last recorded with one. -/
theorem lookup_run {events : List TraceEvent} (h : tr.run pageSize events = some tr') (t : Bytes) :
    (tr'.keySSTableMap.lookup t).getD 0 =
      events.foldl (TraceEvent.recordedAfter t) ((tr.keySSTableMap.lookup t).getD 0) := by
  induction events generalizing tr with
  | nil =>
    obtain rfl := Option.some.inj h
    rfl
  | cons event events ih =>
    rw [Trace.run, List.foldlM_cons] at h
    obtain ⟨tr₁, hstep, hrest⟩ := Option.bind_eq_some_iff.mp h
    rw [ih hrest, List.foldl_cons]
    congr 1
    cases event with
    | table texts number fileSize =>
      have hmap : tr₁.keySSTableMap = (tr.recordKeys texts number).keySSTableMap := by
        rw [(recordTable_eq_some.mp hstep).2]
      rw [hmap, lookup_recordKeys, TraceEvent.recordedAfter]
      exact apply_ite (fun o => Option.getD o 0) ..
    | read key behind => exact lookup_recordRead hstep t
    | delete number =>
      obtain rfl := Option.some.inj hstep
      rfl

/-- What a read does to a trace that was recorded. -/
theorem operations_recordRead {events : List TraceEvent}
    (h : init.run pageSize events = some tr) (key behind : Bytes) :
    ∃ tr', tr.recordRead key behind = some tr' ∧
      ((lastRecorded (cString (key ++ behind)) events = 0 ∧ tr'.operations = tr.operations) ∨
        lastRecorded (cString (key ++ behind)) events ≠ 0 ∧
        ∃ p, tr.ssTableClusterMap.lookup (lastRecorded (cString (key ++ behind)) events) = some p ∧
          tr'.operations = tr.operations ++ [⟨.readType, p.1, p.2⟩]) := by
  have hlast : (tr.keySSTableMap.lookup (cString (key ++ behind))).getD 0 =
      lastRecorded (cString (key ++ behind)) events := lookup_run h _
  by_cases hzero : lastRecorded (cString (key ++ behind)) events = 0
  · exact ⟨_, recordRead_zero (hlast.trans hzero), .inl ⟨hzero, rfl⟩⟩
  · have hfound : (tr.ssTableClusterMap.lookup
        (lastRecorded (cString (key ++ behind)) events)).isSome := by
      cases hlookup : tr.keySSTableMap.lookup (cString (key ++ behind)) with
      | none =>
        rw [hlookup] at hlast
        exact absurd hlast.symm hzero
      | some n =>
        rw [hlookup] at hlast
        rw [← hlast] at hzero ⊢
        exact ((holds_init.run h).keys _ n hlookup).resolve_left hzero
    obtain ⟨p, hp⟩ := Option.isSome_iff_exists.mp hfound
    exact ⟨_, recordRead_found hlast hzero hp, .inr ⟨hzero, p, hp, rfl⟩⟩

end Trace

/-- A read records the table that it reads exactly when that is the one last recorded for its
key. -/
theorem get_readRecorded_iff {pageSize : Nat} {events : List TraceEvent} {tr : Trace}
    (hrun : Trace.init.run pageSize events = some tr) (ucmp : Comparator) (db : ReadState)
    (snapshot : Option Nat) (key behind : Bytes) :
    (∃ r tr', db.get ucmp snapshot key behind tr = some (r, tr') ∧
      db.ReadRecorded ucmp key r tr tr') ↔
      db.LastIsRead ucmp snapshot key behind events tr := by
  obtain ⟨tr₁, hread, hoperations⟩ := Trace.operations_recordRead hrun key behind
  have hget : db.get ucmp snapshot key behind tr =
      some (db.lookup ucmp snapshot key, tr₁) := by
    rw [ReadState.get, hread]
    rfl
  have hreturn : (∃ r tr', db.get ucmp snapshot key behind tr = some (r, tr') ∧
      db.ReadRecorded ucmp key r tr tr') ↔
        db.ReadRecorded ucmp key (db.lookup ucmp snapshot key) tr tr₁ := by
    rw [hget]
    constructor
    · rintro ⟨_, _, ⟨rfl, rfl⟩, h⟩
      exact h
    · exact fun h => ⟨_, _, rfl, h⟩
  have hunchanged : tr₁.operations = tr.operations ↔
      lastRecorded (cString (key ++ behind)) events = 0 := by
    rcases hoperations with ⟨hzero, hsame⟩ | ⟨hne, p, -, hadded⟩
    · exact iff_of_true hsame hzero
    · refine iff_of_false (fun hsame => ?_) hne
      simp [hadded] at hsame
  rw [hreturn, ReadState.ReadRecorded, ReadState.LastIsRead]
  cases (db.lookup ucmp snapshot key).found with
  | memTable => exact hunchanged
  | nowhere => exact imp_congr_right fun _ => hunchanged
  | table number =>
    simp only
    rcases hoperations with ⟨hzero, hsame⟩ | ⟨hne, p, hp, hadded⟩
    · refine iff_of_false ?_ fun h => h.1 hzero
      rintro ⟨p, -, hp⟩
      simp [hsame] at hp
    · rw [hp]
      constructor
      · rintro ⟨p', hp', hadded'⟩
        have hops := List.append_cancel_left (hadded.symm.trans hadded')
        simp only [List.cons.injEq, Operation.mk.injEq, true_and, and_true] at hops
        exact ⟨hne, by rw [hp', Prod.ext hops.1 hops.2]⟩
      · rintro ⟨-, hp'⟩
        exact ⟨p, hp'.symm, hadded⟩

/-- The database after the value `v` of the key `k` was flushed to the table 5, at level 0. -/
def flushedK (mem : List TableEntry) : ReadState :=
  let key := appendInternalKey (entryK 0x10101).key
  ⟨0x10102, mem, none, ⟨fun level => if level = 0 then [⟨5, 4096, key, key⟩] else []⟩,
    fun _ => (.ok, [⟨key, ascii ['v']⟩])⟩

/-- What the flush records. -/
def flushK : TraceEvent := .table ([entryK 0x10101].map MemTableEntry.keyText) 5 4096

/-- A read of the flushed value records its table. -/
theorem get_readRecorded_flushedK : ∃ tr, Trace.init.run 4096 [flushK] = some tr ∧
    ∃ r tr', (flushedK []).get bytewiseComparator none (ascii ['k']) [0] tr = some (r, tr') ∧
      (flushedK []).ReadRecorded bytewiseComparator (ascii ['k']) r tr tr' := by
  obtain ⟨tr, htr⟩ : ∃ tr, Trace.init.run 4096 [flushK] = some tr := ⟨_, rfl⟩
  refine ⟨tr, htr, (get_readRecorded_iff htr bytewiseComparator (flushedK []) none (ascii ['k'])
    [0]).mpr ?_⟩
  have hfound : ((flushedK []).lookup bytewiseComparator none (ascii ['k'])).found = .table 5 := by
    decide
  have hlast : lastRecorded (cString (ascii ['k'] ++ [0])) [flushK] = 5 := by decide
  rw [ReadState.LastIsRead, hfound, hlast]
  exact ⟨by decide, rfl⟩

/-- A read of a newer value in the memtable records the table of the old one. -/
theorem get_records_memTable : ¬ ∀ (pageSize : Nat) (events : List TraceEvent) (tr : Trace),
    Trace.init.run pageSize events = some tr → ∀ (ucmp : Comparator) (db : ReadState)
      (snapshot : Option Nat) (key behind : Bytes), ∃ r tr',
        db.get ucmp snapshot key behind tr = some (r, tr') ∧ db.ReadRecorded ucmp key r tr tr' := by
  intro h
  let newer : List TableEntry := [⟨appendInternalKey (entryK 0x10102).key, ascii ['w']⟩]
  obtain ⟨r, tr', hget, hrecorded⟩ := h 4096 [flushK] _ rfl bytewiseComparator (flushedK newer) none
    (ascii ['k']) [0]
  have hfound : ((flushedK newer).lookup bytewiseComparator none (ascii ['k'])).found =
      .memTable := by decide
  obtain ⟨rfl, rfl⟩ := Prod.mk.inj (Option.some.inj hget)
  rw [ReadState.ReadRecorded, hfound] at hrecorded
  exact absurd hrecorded (by decide)

end WiscKey
