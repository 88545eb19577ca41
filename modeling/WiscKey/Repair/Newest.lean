import WiscKey.Repair.Lookup

/-!
# Repair and the newest data

A repair ranks its tables by their numbers, and the sequence numbers of the entries count for
nothing. So it keeps the newest data exactly when the last source that has a key, from the table
with the lowest number to the log that is listed last, has what is newest.
-/

namespace WiscKey

/-- The sequence number of an entry. -/
def TableEntry.sequence (e : TableEntry) : Nat := internalTag e.key >>> 8

/-- The tables of a directory, from the lowest number on, and behind them the logs as they are
listed. -/
def RepairFiles.sources (files : RepairFiles) (batches : Nat → List WriteBatch) :
    List (List TableEntry) :=
  (files.tableNumbers.insertionSort (· ≤ ·)).map (fun number => (files.tables number).2) ++
    files.logNumbers.map fun log => logEntries (batches log)

section Newest

variable (ucmp : Comparator) (sources : List (List TableEntry)) (userKey : Bytes)

/-- The entry has the highest sequence number of its user key. -/
def IsNewest (e : TableEntry) : Prop :=
  e ∈ sources.flatten ∧ ofKey ucmp userKey e = true ∧
    ∀ f ∈ sources.flatten, ofKey ucmp userKey f = true → f.sequence ≤ e.sequence

/-- A read of the user key returns the value of the entry with the highest sequence number, or not
found if that is a deletion or there is none. -/
def ReadsNewest (db : ReadState) : Prop :=
  let read := db.lookup ucmp none userKey
  (∃ e, IsNewest ucmp sources userKey e ∧ (read.status, read.value) = answer (some e)) ∨
    (∀ s ∈ sources, hasKey ucmp userKey s = false) ∧ (read.status, read.value) = answer none

/-- In the last source that has the user key, the first entry of it in the order of internal keys
gives what the entry with the highest sequence number of all sources gives. -/
def LastIsNewest : Prop :=
  ∀ s, (sources.filter (hasKey ucmp userKey)).getLast? = some s →
    ∀ e ∈ s, ofKey ucmp userKey e = true →
      (∀ f ∈ s, ofKey ucmp userKey f = true → internalTag f.key ≤ internalTag e.key) →
        ∃ f, IsNewest ucmp sources userKey f ∧ answer (some e) = answer (some f)

end Newest

variable {dbname : Bytes} {ucmp : Comparator} {files : RepairFiles}
  {batches : Nat → List WriteBatch} {next : Nat} {userKey : Bytes}

theorem hasKey_congr {xs ys : List TableEntry} (h : ∀ e, e ∈ xs ↔ e ∈ ys) :
    hasKey ucmp userKey xs = hasKey ucmp userKey ys := by
  rw [Bool.eq_iff_iff, hasKey_iff, hasKey_iff]
  simp only [h]

namespace Repairer

/-- The tables of the logs that have a key. -/
theorem filter_logTables (next : Nat) (logs : List Nat) :
    ((converted (fun log => memTableOf ucmp (batches log)) next logs).filter
      fun p => hasKey ucmp userKey p.2).map Prod.snd =
      (logs.filter fun log => hasKey ucmp userKey (logEntries (batches log))).map
        fun log => memTableOf ucmp (batches log) := by
  induction logs generalizing next with
  | nil => rfl
  | cons log logs ih =>
    have hsame : hasKey ucmp userKey (logEntries (batches log)) =
        hasKey ucmp userKey (memTableOf ucmp (batches log)) :=
      hasKey_congr fun e => mem_memTableOf.symm
    rw [converted, List.filter_append, List.map_append, ih, List.filter_cons, hsame]
    cases hempty : (memTableOf ucmp (batches log)).isEmpty with
    | true =>
      rw [List.isEmpty_iff.mp hempty]
      rfl
    | false =>
      cases hkey : hasKey ucmp userKey (memTableOf ucmp (batches log)) with
      | true => simp [hkey]
      | false => simp [hkey]

/-- The last table of the repair that has a key is made of the last source that has it. -/
theorem last_source (h : files.Intact dbname ucmp batches) (next : Nat) (userKey : Bytes) :
    (((numberedTables ucmp files batches next).filter
        fun p => hasKey ucmp userKey p.2).getLast? = none ∧
      ((files.sources batches).filter (hasKey ucmp userKey)).getLast? = none) ∨
    ∃ p s, ((numberedTables ucmp files batches next).filter
        fun p => hasKey ucmp userKey p.2).getLast? = some p ∧
      ((files.sources batches).filter (hasKey ucmp userKey)).getLast? = some s ∧
      (∀ e, e ∈ p.2 ↔ e ∈ s) ∧ SortedStream ucmp p.2 ∧ Distinct ucmp s := by
  obtain ⟨lastLog, hlog⟩ : ∃ lastLog, (files.logNumbers.filter
      fun log => hasKey ucmp userKey (logEntries (batches log))).getLast? = lastLog := ⟨_, rfl⟩
  obtain ⟨lastTable, htable⟩ : ∃ lastTable, ((files.tableNumbers.insertionSort (· ≤ ·)).filter
      fun n => hasKey ucmp userKey (files.tables n).2).getLast? = lastTable := ⟨_, rfl⟩
  have hnumbered : ((numberedTables ucmp files batches next).filter
      fun p => hasKey ucmp userKey p.2).getLast?.map Prod.snd =
        (lastLog.map fun log => memTableOf ucmp (batches log)).or
          (lastTable.map fun n => (files.tables n).2) := by
    rw [← hlog, ← htable, ← List.getLast?_map, ← List.getLast?_map, ← List.getLast?_map,
      numberedTables, List.filter_append, List.map_append, logTables, filter_logTables,
      List.getLast?_append, List.filter_map, List.map_map]
    rfl
  have hsources : ((files.sources batches).filter (hasKey ucmp userKey)).getLast? =
      (lastLog.map fun log => logEntries (batches log)).or
        (lastTable.map fun n => (files.tables n).2) := by
    rw [← hlog, ← htable, ← List.getLast?_map, ← List.getLast?_map, RepairFiles.sources,
      List.filter_append, List.getLast?_append, List.filter_map, List.filter_map]
    rfl
  rw [hsources]
  cases lastLog with
  | some log =>
    obtain ⟨p, hp, hsame⟩ := Option.map_eq_some_iff.mp hnumbered
    have hmem := (List.mem_filter.mp (List.mem_of_getLast? hlog)).1
    refine .inr ⟨p, _, hp, rfl, fun e => ?_, ?_, (h.logs log hmem).distinct ucmp⟩
    · rw [hsame]
      exact mem_memTableOf
    · rw [hsame]
      exact memTableOf_sorted ucmp (batches log)
  | none =>
    cases lastTable with
    | some n =>
      obtain ⟨p, hp, hsame⟩ := Option.map_eq_some_iff.mp hnumbered
      have hmem := mem_sorted_iff.mp (List.mem_filter.mp (List.mem_of_getLast? htable)).1
      refine .inr ⟨p, _, hp, rfl, fun e => by rw [hsame], ?_, (h.tables n hmem).distinct⟩
      rw [hsame]
      exact (h.tables n hmem).sorted
    | none => exact .inl ⟨Option.map_eq_none_iff.mp hnumbered, rfl⟩

/-- For a key, a read in the repaired database and the last source that has it agree on what is
newest. -/
theorem readsNewest_iff_of_answer (h : files.Intact dbname ucmp batches) {db : ReadState}
    (hread : ((db.lookup ucmp none userKey).status, (db.lookup ucmp none userKey).value) =
      answer (((numberedTables ucmp files batches next).filter
        fun p => hasKey ucmp userKey p.2).getLast?.bind fun p => firstOf ucmp userKey p.2)) :
    ReadsNewest ucmp (files.sources batches) userKey db ↔
      LastIsNewest ucmp (files.sources batches) userKey := by
  rw [ReadsNewest, hread]
  rcases last_source h next userKey with ⟨hnone, hsource⟩ | ⟨p, s, hp, hs, hsame, hsorted, hdist⟩
  · rw [hnone, LastIsNewest, hsource]
    refine iff_of_true (.inr ⟨fun s hs => ?_, rfl⟩) fun s hs => nomatch hs
    rw [List.getLast?_eq_none_iff, List.filter_eq_nil_iff] at hsource
    exact Bool.eq_false_iff.mpr (hsource s hs)
  -- the first entry of the key in the table is the newest of its source
  have hmem := List.mem_filter.mp (List.mem_of_getLast? hs)
  obtain ⟨e, hfirst⟩ : ∃ e, firstOf ucmp userKey p.2 = some e := by
    rw [← Option.ne_none_iff_exists', ne_eq, firstOf_eq_none, hasKey_congr hsame, hmem.2]
    exact Bool.noConfusion
  have hof := ofKey_of_firstOf hfirst
  have hmax : ∀ f ∈ s, ofKey ucmp userKey f = true → internalTag f.key ≤ internalTag e.key :=
    fun f hf => hsorted.tag_le_firstOf hfirst ((hsame f).mpr hf)
  have hes := (hsame e).mp (mem_of_firstOf hfirst)
  rw [hp, Option.bind_some, hfirst]
  constructor
  · rintro (⟨f, hf, hanswer⟩ | ⟨hall, -⟩)
    · intro s' hs' e' he' hof' hmax'
      obtain rfl := Option.some.inj (hs.symm.trans hs')
      obtain rfl : e = e' := by
        refine hdist e hes e' he' ?_
        rw [Comparator.internalCompare, Ordering.then_eq_eq]
        refine ⟨Std.TransCmp.eq_trans (ofKey_iff.mp hof)
          (Std.OrientedCmp.eq_symm (ofKey_iff.mp hof')), Nat.compare_eq_eq.mpr ?_⟩
        exact le_antisymm (hmax e' he' hof') (hmax' e hes hof)
      exact ⟨f, hf, hanswer⟩
    · rw [hall s hmem.1] at hmem
      exact absurd hmem.2 Bool.false_ne_true
  · intro hlast
    exact .inl (hlast s hs e hes hof hmax)

end Repairer

/-- Repair keeps the newest data of every key exactly when, for every key, the last source that
has it holds what is newest. -/
theorem repair_readsNewest_iff (h : files.Intact dbname ucmp batches) (options : Options)
    (appendable : Bool) :
    ∃ r db, Repairer.run dbname ucmp files = some r ∧
      r.reopen dbname ucmp options appendable = some db ∧
      ((∀ userKey, ReadsNewest ucmp (files.sources batches) userKey db) ↔
        ∀ userKey, LastIsNewest ucmp (files.sources batches) userKey) := by
  obtain ⟨next, r, hrun, hr⟩ := Repairer.run_intact h
  obtain ⟨db, hopen, hread⟩ := hr.answer_lookup h options appendable
  exact ⟨_, db, hrun, hopen,
    forall_congr' fun userKey => Repairer.readsNewest_iff_of_answer h (hread userKey)⟩

section Compacted

/-- A directory with a table of a memtable, and a table of a compaction that began before the
memtable was written and ended behind it: the higher number has the older entry. -/
def compactedFiles : RepairFiles where
  filenames := [ascii ['0', '0', '0', '0', '0', '7', '.', 'l', 'd', 'b'],
    ascii ['0', '0', '0', '0', '0', '9', '.', 'l', 'd', 'b']]
  disk := []
  tables
    | 7 => (.ok, [⟨appendInternalKey ⟨[97], 10, .value⟩, [1]⟩])
    | 9 => (.ok, [⟨appendInternalKey ⟨[97], 5, .value⟩, [2]⟩])
    | _ => (.ok, [])
  fileSize _ := 100

theorem compactedFiles_intact : compactedFiles.Intact [] bytewiseComparator fun _ => [] := by
  have htables : compactedFiles.tableNumbers = [7, 9] := by decide
  have hlogs : compactedFiles.logNumbers = [] := by decide
  constructor
  · exact List.cons_ne_nil _ _
  · have hparse : ∀ filename ∈ compactedFiles.filenames, ∃ number < 10,
        parseFileName filename = some (number, .tableFile) := by decide
    intro filename hmem number type h
    obtain ⟨n, hlt, hn⟩ := hparse filename hmem
    obtain ⟨rfl, -⟩ := Prod.mk.inj (Option.some.inj (hn.symm.trans h))
    rw [hlogs, List.length_nil]
    omega
  · rw [hlogs]
    decide
  · intro number
    exact (by decide : 100 < 2 ^ 64)
  · rw [htables]
    decide
  · rw [hlogs]
    exact List.nodup_nil
  · rw [htables]
    intro number hnumber
    rcases List.mem_pair.mp hnumber with rfl | rfl
    · constructor <;> decide
    · constructor <;> decide
  · rw [hlogs]
    exact fun log hlog => absurd hlog List.not_mem_nil

/-- The last source that has the key does not have its newest entry. -/
theorem compactedFiles_not_lastIsNewest :
    ¬ LastIsNewest bytewiseComparator (compactedFiles.sources fun _ => []) [97] := by
  have hsources : compactedFiles.sources (fun _ => []) =
      [[⟨appendInternalKey ⟨[97], 10, .value⟩, [1]⟩],
        [⟨appendInternalKey ⟨[97], 5, .value⟩, [2]⟩]] := by decide
  intro hlast
  rw [hsources] at hlast
  obtain ⟨f, ⟨hmem, -, hmax⟩, hanswer⟩ := hlast [⟨appendInternalKey ⟨[97], 5, .value⟩, [2]⟩]
    (by decide) _ (List.mem_singleton_self _) (by decide) (by decide)
  have hnewest := hmax ⟨appendInternalKey ⟨[97], 10, .value⟩, [1]⟩ List.mem_cons_self (by decide)
  rcases List.mem_pair.mp hmem with rfl | rfl
  · exact absurd hanswer (by decide)
  · exact absurd hnewest (by decide)

/-- A repair of this directory brings an old value of the key back. -/
theorem repair_restores_older : ¬ ∀ (dbname : Bytes) (ucmp : Comparator) (files : RepairFiles)
    (batches : Nat → List WriteBatch) (options : Options) (appendable : Bool),
    files.Intact dbname ucmp batches →
      ∃ r db, Repairer.run dbname ucmp files = some r ∧
        r.reopen dbname ucmp options appendable = some db ∧
        ∀ userKey, ReadsNewest ucmp (files.sources batches) userKey db := by
  intro hall
  obtain ⟨r, db, hrun, hopen, hnewest⟩ := hall [] bytewiseComparator compactedFiles (fun _ => [])
    ⟨false, 0⟩ false compactedFiles_intact
  obtain ⟨next, r', hrun', hr⟩ := Repairer.run_intact compactedFiles_intact
  obtain ⟨db', hopen', hread⟩ := hr.answer_lookup compactedFiles_intact ⟨false, 0⟩ false
  obtain rfl := Option.some.inj (hrun'.symm.trans hrun)
  obtain rfl := Option.some.inj (hopen'.symm.trans hopen)
  exact compactedFiles_not_lastIsNewest
    ((Repairer.readsNewest_iff_of_answer compactedFiles_intact (hread [97])).mp (hnewest [97]))

/-- The theorem at this directory. -/
theorem repair_readsNewest_iff_compacted : ∃ r db,
    Repairer.run [] bytewiseComparator compactedFiles = some r ∧
      r.reopen [] bytewiseComparator ⟨false, 0⟩ false = some db ∧
      ((∀ userKey, ReadsNewest bytewiseComparator (compactedFiles.sources fun _ => []) userKey db) ↔
        ∀ userKey, LastIsNewest bytewiseComparator (compactedFiles.sources fun _ => []) userKey) :=
  repair_readsNewest_iff compactedFiles_intact ⟨false, 0⟩ false

end Compacted

end WiscKey
