import WiscKey.Repair.Intact

/-!
# Reads in a repaired database

A read in the repaired database answers from the table with the highest number that has entries of
its key. The tables keep their numbers and the logs get the next ones as they are listed, so this
is the newest entry of the key when the last source that has the key holds it.
-/

namespace WiscKey

variable {dbname : Bytes} {ucmp : Comparator} {files : RepairFiles}
  {batches : Nat → List WriteBatch} {r : Repairer} {next : Nat}

/-- A table of a repair can be read to its end, is sorted, and fits the coding of the descriptor. -/
structure GoodTable (ucmp : Comparator) (table : Status × List TableEntry) : Prop where
  ok : table.1 = .ok
  nonempty : table.2 ≠ []
  sorted : SortedStream ucmp table.2
  decodable : ∀ e ∈ table.2, (parseInternalKey e.key).isSome
  fits : ∀ e ∈ table.2, e.key.length < 2 ^ 32

theorem RepairFiles.IntactTable.good {number : Nat} (h : files.IntactTable ucmp number) :
    GoodTable ucmp (files.tables number) := ⟨h.ok, h.nonempty, h.sorted, h.decodable, h.fits⟩

/-- The memtable of an intact log makes a good table. -/
theorem RepairFiles.IntactLog.good {log : Nat} {bs : List WriteBatch}
    (h : files.IntactLog dbname log bs) (hne : memTableOf ucmp bs ≠ []) :
    GoodTable ucmp (.ok, memTableOf ucmp bs) := by
  refine ⟨rfl, hne, memTableOf_sorted ucmp bs, fun e he => ?_, fun e he => ?_⟩
  · obtain ⟨u, -, -, hparse, -⟩ := h.parse (mem_memTableOf.mp he)
    exact Option.isSome_of_eq_some hparse
  · obtain ⟨u, -, -, -, hlength⟩ := h.parse (mem_memTableOf.mp he)
    exact hlength

/-- The last element with a property, where the numbers go up, is the one with the highest. -/
theorem getLast?_filter_spec {β : Type} {l : List (Nat × β)} {q : Nat × β → Bool} {p : Nat × β}
    (hinc : l.Pairwise fun p p' => p.1 < p'.1) (h : (l.filter q).getLast? = some p) :
    p ∈ l ∧ q p = true ∧ ∀ p' ∈ l, q p' = true → p'.1 ≤ p.1 := by
  obtain ⟨front, hfront⟩ := List.getLast?_eq_some_iff.mp h
  have hp : p ∈ l.filter q := by
    rw [hfront]
    exact List.mem_concat_self
  obtain ⟨hmem, hq⟩ := List.mem_filter.mp hp
  refine ⟨hmem, hq, fun p' hp' hq' => ?_⟩
  have hp'' : p' ∈ l.filter q := List.mem_filter.mpr ⟨hp', hq'⟩
  have hsorted := hinc.sublist (List.filter_sublist (p := q))
  rw [hfront] at hsorted hp''
  rcases List.mem_append.mp hp'' with hbefore | hself
  · exact ((List.pairwise_append.mp hsorted).2.2 p' hbefore p (List.mem_singleton_self p)).le
  · rw [List.mem_singleton.mp hself]

namespace Repairer

/-- The tables of the logs, with the numbers that they get. -/
def logTables (ucmp : Comparator) (files : RepairFiles) (batches : Nat → List WriteBatch)
    (next : Nat) : List (Nat × List TableEntry) :=
  converted (fun log => memTableOf ucmp (batches log)) next files.logNumbers

/-- What a repair has found before it writes the descriptor. -/
structure Repaired (dbname : Bytes) (ucmp : Comparator) (files : RepairFiles)
    (batches : Nat → List WriteBatch) (next : Nat) (r : Repairer) : Prop where
  manifests : ∀ name ∈ r.manifests, ∃ number, parseFileName name = some (number, .descriptorFile)
  logsGone : ∀ log ∈ r.logs, r.disk.read (logFileName dbname log) = none
  tables : r.tables = (files.tableNumbers ++ (logTables ucmp files batches next).map Prod.fst).map
    fun n => scanEntries n (files.fileSize n) (r.contents n).2
  below : ∀ n ∈ files.tableNumbers, n < next
  kept : ∀ n ∈ files.tableNumbers, r.contents n = files.tables n
  added : ∀ p ∈ logTables ucmp files batches next, r.contents p.1 = (.ok, p.2)
  nextFileNumber : r.nextFileNumber = next + files.logNumbers.length
  room : r.nextFileNumber + 2 < 2 ^ 64

/-- The repair of an intact directory finds all of it. -/
theorem run_intact (h : files.Intact dbname ucmp batches) :
    ∃ next r, run dbname ucmp files = some (r.writeDescriptor dbname ucmp) ∧
      Repaired dbname ucmp files batches next r := by
  have hfew := h.few
  obtain ⟨bound, hbound⟩ : ∃ bound, bound = 2 ^ 64 - (files.logNumbers.length + 3) := ⟨_, rfl⟩
  obtain ⟨manifests, next, hfind, hmanifests, -, hnext, htables, hlogs⟩ :=
    @findFiles_spec (new files) files.filenames bound (by omega)
      (fun filename hmem number type hparse => by
        have hroom := h.numbers filename hmem number type hparse
        omega)
      (by simp only [new]; omega)
  have hlogMax : ∀ log ∈ files.logNumbers, log ≤ kMaxUint64 := by
    intro log hlog
    have hlt := hlogs log hlog
    have hmax : kMaxUint64 = 2 ^ 64 - 1 := by decide
    omega
  obtain ⟨found, hfound⟩ : ∃ found, (new files).findFiles files.filenames = found := ⟨_, rfl⟩
  rw [hfound] at hfind
  have hfoundNext : found.nextFileNumber = next := by rw [hfind]
  have hfoundLogs : found.logs = files.logNumbers := by rw [hfind]; rfl
  have hfoundDisk : found.disk = files.disk := by rw [hfind]; rfl
  have hfoundContents : found.contents = files.tables := by rw [hfind]; rfl
  obtain ⟨disk, contents, hconvert, hadded, hold, hgone⟩ :=
    @convertLogFilesToTables_spec dbname ucmp found
      (fun log => memTableOf ucmp (batches log)) files.logNumbers h.logsOnce hlogMax
      (fun log hlog => by
        rw [hfoundDisk]
        exact (h.logs log hlog).read ucmp)
      (by omega)
  rw [hfoundNext] at hconvert hadded hold
  rw [hfoundContents] at hold
  obtain ⟨converting, hconverting⟩ : ∃ converting,
      found.convertLogFilesToTables dbname ucmp = converting := ⟨_, rfl⟩
  have hconverted := hconverting
  rw [convertLogFilesToTables, hfoundLogs, hconvert] at hconverted
  have hnumbers : converting.tableNumbers =
      files.tableNumbers ++ (logTables ucmp files batches next).map Prod.fst := by
    rw [← hconverted, hfind]
    rfl
  have hcontents : converting.contents = contents := by rw [← hconverted]
  have hextract := @extractMetaData_spec converting converting.tableNumbers (fun n hn => by
    rw [hnumbers, List.mem_append] at hn
    rw [hcontents]
    rcases hn with hn | hn
    · rw [hold n (htables n hn)]
      exact (h.tables n hn).ok
    · obtain ⟨p, hp, rfl⟩ := List.mem_map.mp hn
      rw [hadded p hp])
  refine ⟨next, converting.extractMetaData, ?_, ?_⟩
  · rw [run, if_neg (by simpa using h.nonempty), hfound, hconverting]
  · rw [extractMetaData, hextract]
    constructor
    · rw [← hconverted, hfind]
      exact hmanifests
    · rw [← hconverted]
      intro log hlog
      have hmem : log ∈ files.logNumbers := hfoundLogs ▸ hlog
      exact hgone log (.inl hmem) (hlogMax log hmem)
    · have hbefore : converting.tables = [] ∧ converting.fileSize = files.fileSize := by
        rw [← hconverted, hfind]
        exact ⟨rfl, rfl⟩
      simp only [hbefore.1, hbefore.2, hnumbers, List.nil_append]
    · exact htables
    · intro n hn
      exact (congrFun hcontents n).trans (hold n (htables n hn))
    · intro p hp
      exact (congrFun hcontents p.1).trans (hadded p hp)
    · rw [← hconverted]
    · rw [← hconverted]
      change next + files.logNumbers.length + 2 < 2 ^ 64
      omega

/-- The tables of a repair, from the lowest number on. -/
def numberedTables (ucmp : Comparator) (files : RepairFiles) (batches : Nat → List WriteBatch)
    (next : Nat) : List (Nat × List TableEntry) :=
  (files.tableNumbers.insertionSort (· ≤ ·)).map (fun n => (n, (files.tables n).2)) ++
    logTables ucmp files batches next

theorem mem_sorted_iff {n : Nat} :
    n ∈ files.tableNumbers.insertionSort (· ≤ ·) ↔ n ∈ files.tableNumbers :=
  (List.perm_insertionSort _ _).mem_iff

theorem mem_numbers {n : Nat} :
    n ∈ files.tableNumbers ++ (logTables ucmp files batches next).map Prod.fst ↔
      ∃ p ∈ numberedTables ucmp files batches next, p.1 = n := by
  have hmap : (numberedTables ucmp files batches next).map Prod.fst =
      files.tableNumbers.insertionSort (· ≤ ·) ++
        (logTables ucmp files batches next).map Prod.fst := by
    rw [numberedTables, List.map_append, List.map_map]
    exact congrArg (· ++ _) (List.map_id _)
  rw [← List.mem_map, hmap, List.mem_append, List.mem_append, mem_sorted_iff]

/-- The tables of the logs have numbers that go up. -/
theorem converted_increasing {mem : Nat → List TableEntry} {logs : List Nat} (next : Nat) :
    (converted mem next logs).Pairwise fun p q => p.1 < q.1 := by
  induction logs generalizing next with
  | nil => exact List.Pairwise.nil
  | cons log logs ih =>
    rw [converted]
    refine List.pairwise_append.mpr ⟨?_, ih (next + 1), fun p hp q hq => ?_⟩
    · split
      · exact List.Pairwise.nil
      · exact List.pairwise_singleton ..
    · have hle := (le_of_mem_converted hq).1
      split at hp
      · exact absurd hp List.not_mem_nil
      · rw [List.mem_singleton.mp hp]
        exact hle

namespace Repaired

variable (hr : Repaired dbname ucmp files batches next r)

include hr

/-- Every table has a number of its own. -/
theorem increasing (h : files.Intact dbname ucmp batches) :
    (numberedTables ucmp files batches next).Pairwise fun p q => p.1 < q.1 := by
  refine List.pairwise_append.mpr ⟨?_, converted_increasing next, fun p hp q hq => ?_⟩
  · refine List.pairwise_map.mpr ?_
    have hsorted := List.pairwise_insertionSort (· ≤ ·) files.tableNumbers
    have hnodup := (List.perm_insertionSort (· ≤ ·) files.tableNumbers).nodup_iff.mpr h.tablesOnce
    exact (hsorted.and hnodup).imp fun hlt => lt_of_le_of_ne hlt.1 hlt.2
  · obtain ⟨n, hn, rfl⟩ := List.mem_map.mp hp
    exact (hr.below n (mem_sorted_iff.mp hn)).trans_le (le_of_mem_converted hq).1

/-- The contents of the tables. -/
theorem contents_eq (h : files.Intact dbname ucmp batches) {p : Nat × List TableEntry}
    (hp : p ∈ numberedTables ucmp files batches next) :
    r.contents p.1 = (.ok, p.2) ∧ GoodTable ucmp (r.contents p.1) ∧ p.1 < 2 ^ 64 := by
  have hroom := hr.room
  have hnext := hr.nextFileNumber
  rcases List.mem_append.mp hp with hp | hp
  · obtain ⟨n, hn, rfl⟩ := List.mem_map.mp hp
    have hmem := mem_sorted_iff.mp hn
    have hlt := hr.below n hmem
    have hgood := (h.tables n hmem).good
    refine ⟨?_, ?_, by simp only; omega⟩
    · rw [hr.kept n hmem]
      exact Prod.ext hgood.ok rfl
    · rw [hr.kept n hmem]
      exact hgood
  · obtain ⟨-, hlt, hne, log, hlog, hmem⟩ := le_of_mem_converted hp
    refine ⟨hr.added p hp, ?_, by omega⟩
    rw [hr.added p hp, hmem]
    exact (h.logs log hlog).good (hmem ▸ hne)

/-- The tables of the repair are the numbered ones. -/
theorem mem_tables {t : TableInfo} : t ∈ r.tables ↔
    ∃ p ∈ numberedTables ucmp files batches next,
      t = scanEntries p.1 (files.fileSize p.1) (r.contents p.1).2 := by
  rw [hr.tables, List.mem_map]
  constructor
  · rintro ⟨n, hn, rfl⟩
    obtain ⟨p, hp, rfl⟩ := mem_numbers.mp hn
    exact ⟨p, hp, rfl⟩
  · rintro ⟨p, hp, rfl⟩
    exact ⟨p.1, mem_numbers.mpr ⟨p, hp, rfl⟩, rfl⟩

end Repaired

end Repairer

/-- What the scan of a good table finds. -/
theorem GoodTable.scan {table : Status × List TableEntry} (h : GoodTable ucmp table)
    {number size : Nat} (hnumber : number < 2 ^ 64) (hsize : size < 2 ^ 64) :
    let t := Repairer.scanEntries number size table.2
    t.file.number = number ∧ t.file.Fits ∧ t.maxSequence ≤ kMaxSequenceNumber ∧
      (∀ e ∈ table.2, Visible t.maxSequence e) ∧
      ∀ e ∈ table.2, ∀ userKey, ofKey ucmp userKey e = true →
        ucmp.compare userKey (extractUserKey t.file.smallest) ≠ .lt ∧
          ucmp.compare userKey (extractUserKey t.file.largest) ≠ .gt := by
  obtain ⟨status, entries⟩ := table
  obtain ⟨e, rest, rfl⟩ := List.exists_cons_of_ne_nil h.nonempty
  obtain ⟨s, hscan, hs, hall⟩ := Repairer.scanEntries_spec number size h.decodable
  intro t
  rw [show t = _ from hscan]
  refine ⟨rfl, ⟨hnumber, hsize, h.fits e List.mem_cons_self, h.fits _ (List.getLast_mem _)⟩, hs,
    fun f hf => ?_, fun f hf userKey hkey => h.sorted.between hf hkey⟩
  obtain ⟨fkey, hparse⟩ := Option.isSome_iff_exists.mp (h.decodable f hf)
  exact ⟨fkey, hparse, hall f hf fkey hparse⟩

namespace Repairer.Repaired

variable (hr : Repaired dbname ucmp files batches next r)

include hr

/-- What the scan of a table of the repair finds. -/
theorem scan (h : files.Intact dbname ucmp batches) {p : Nat × List TableEntry}
    (hp : p ∈ numberedTables ucmp files batches next) :
    let t := scanEntries p.1 (files.fileSize p.1) (r.contents p.1).2
    t.file.number = p.1 ∧ t.file.Fits ∧ t.maxSequence ≤ kMaxSequenceNumber ∧
      (∀ e ∈ p.2, Visible t.maxSequence e) ∧
      ∀ e ∈ p.2, ∀ userKey, ofKey ucmp userKey e = true →
        ucmp.compare userKey (extractUserKey t.file.smallest) ≠ .lt ∧
          ucmp.compare userKey (extractUserKey t.file.largest) ≠ .gt := by
  obtain ⟨hcontents, hgood, hlt⟩ := hr.contents_eq h hp
  have hscan := hgood.scan hlt (h.fileSize p.1)
  rw [hcontents] at hscan ⊢
  exact hscan

theorem numbers_eq (h : files.Intact dbname ucmp batches) :
    (r.tables.map fun t => t.file.number) =
      files.tableNumbers ++ (logTables ucmp files batches next).map Prod.fst := by
  rw [hr.tables, List.map_map]
  refine (List.map_congr_left fun n hn => ?_).trans (List.map_id _)
  obtain ⟨p, hp, rfl⟩ := mem_numbers.mp hn
  exact (hr.scan h hp).1

theorem tablesFit (h : files.Intact dbname ucmp batches) : r.TablesFit := by
  have hscan : ∀ t ∈ r.tables, t.file.Fits ∧ t.maxSequence ≤ kMaxSequenceNumber := by
    intro t ht
    obtain ⟨p, hp, rfl⟩ := hr.mem_tables.mp ht
    obtain ⟨-, hfits, hmax, -⟩ := hr.scan h hp
    exact ⟨hfits, hmax⟩
  constructor
  · rw [hr.numbers_eq h]
    refine List.nodup_append.mpr ⟨h.tablesOnce, ?_, fun n hn m hm => ?_⟩
    · exact List.pairwise_map.mpr ((converted_increasing next).imp fun hlt => hlt.ne)
    · obtain ⟨p, hp, rfl⟩ := List.mem_map.mp hm
      exact ((hr.below n hn).trans_le (le_of_mem_converted hp).1).ne
  · exact fun t ht => (hscan t ht).1
  · exact hr.room
  · have hmax : kMaxSequenceNumber < 2 ^ 64 := by decide
    exact (r.maxSequence_spec.2 _ fun t ht => (hscan t ht).2).trans_lt hmax

/-- What a read finds in one table of the repaired database. -/
theorem searchable (h : files.Intact dbname ucmp batches) {p : Nat × List TableEntry}
    (hp : p ∈ numberedTables ucmp files batches next) :
    Version.Searchable ucmp r.maxSequence r.contents p.1 := by
  obtain ⟨hcontents, hgood, -⟩ := hr.contents_eq h hp
  obtain ⟨-, -, -, hvisible, -⟩ := hr.scan h hp
  refine ⟨hgood.ok, hgood.sorted, fun e he => ?_⟩
  rw [hcontents] at he
  obtain ⟨ikey, hparse, hle⟩ := hvisible e he
  exact ⟨ikey, hparse, hle.trans (r.maxSequence_spec.1 _ (hr.mem_tables.mpr ⟨p, hp, rfl⟩))⟩

/-- A read in the repaired database answers from the last table that has entries of its key. -/
theorem answer_lookup (h : files.Intact dbname ucmp batches) (options : Options)
    (appendable : Bool) :
    ∃ db, (r.writeDescriptor dbname ucmp).reopen dbname ucmp options appendable = some db ∧
      ∀ userKey, ((db.lookup ucmp none userKey).status, (db.lookup ucmp none userKey).value) =
        answer (((numberedTables ucmp files batches next).filter
          fun p => hasKey ucmp userKey p.2).getLast?.bind fun p => firstOf ucmp userKey p.2) := by
  obtain ⟨v, hopen, hfiles⟩ :=
    @TablesFit.reopen dbname ucmp r options appendable (hr.tablesFit h) hr.manifests hr.logsGone
  refine ⟨_, hopen, fun userKey => ?_⟩
  have hdeep : ∀ level, level ≠ 0 → v.files level = [] := by
    intro level hlevel
    refine List.eq_nil_iff_forall_not_mem.mpr fun f hf => ?_
    exact hlevel ((hfiles level f).mp hf).1
  -- the files of level 0 are those of the numbered tables
  have hfile : ∀ f, f ∈ v.files 0 ↔ ∃ p ∈ numberedTables ucmp files batches next,
      f = (scanEntries p.1 (files.fileSize p.1) (r.contents p.1).2).file := by
    intro f
    rw [hfiles, eq_self, true_and, List.mem_map]
    constructor
    · rintro ⟨t, ht, rfl⟩
      obtain ⟨p, hp, rfl⟩ := hr.mem_tables.mp ht
      exact ⟨p, hp, rfl⟩
    · rintro ⟨p, hp, rfl⟩
      exact ⟨_, hr.mem_tables.mpr ⟨p, hp, rfl⟩, rfl⟩
  have hsearch := @Version.answer_searchFiles ucmp userKey r.maxSequence r.contents
    (v.levelZeroFiles ucmp userKey) (r.maxSequence_spec.2 _ fun t ht => by
      obtain ⟨p, hp, rfl⟩ := hr.mem_tables.mp ht
      exact (hr.scan h hp).2.2.1) fun f hf => by
      obtain ⟨p, hp, rfl⟩ := (hfile f).mp (Version.mem_levelZeroFiles.mp hf).1
      rw [(hr.scan h hp).1]
      exact hr.searchable h hp
  have hlookup : (ReadState.lookup ucmp ⟨r.maxSequence, [], none, v, r.contents⟩ none userKey) =
      Version.searchFiles ucmp r.contents userKey (lookupKey userKey r.maxSequence)
        (v.levelZeroFiles ucmp userKey) := by
    rw [← Version.filesToSearch_levelZero hdeep]
    rfl
  rw [hlookup, hsearch.1, hsearch.2]
  refine congrArg answer ?_
  cases hlast : ((numberedTables ucmp files batches next).filter
      fun p => hasKey ucmp userKey p.2).getLast? with
  | none =>
    rw [List.getLast?_eq_none_iff, List.filter_eq_nil_iff] at hlast
    refine List.findSome?_eq_none_iff.mpr fun f hf => firstOf_eq_none.mpr ?_
    obtain ⟨p, hp, rfl⟩ := (hfile f).mp (Version.mem_levelZeroFiles.mp hf).1
    rw [(hr.scan h hp).1, (hr.contents_eq h hp).1]
    exact Bool.eq_false_iff.mpr (hlast p hp)
  | some p =>
    obtain ⟨hp, hkey, hhighest⟩ := getLast?_filter_spec (hr.increasing h) hlast
    obtain ⟨hnumber, -, -, -, hbetween⟩ := hr.scan h hp
    obtain ⟨e, he, hof⟩ := hasKey_iff.mp hkey
    have hfirst : (firstOf ucmp userKey p.2).isSome := by
      rw [Option.isSome_iff_ne_none, ne_eq, firstOf_eq_none, hkey]
      exact Bool.noConfusion
    rw [Version.findSome?_of_descending Version.levelZeroFiles_descending
      (Version.mem_levelZeroFiles.mpr ⟨(hfile _).mpr ⟨p, hp, rfl⟩, hbetween e he userKey hof⟩),
      hnumber, (hr.contents_eq h hp).1]
    · rfl
    · rw [hnumber, (hr.contents_eq h hp).1]
      exact hfirst
    · intro g hg heq
      obtain ⟨q, hq, rfl⟩ := (hfile g).mp (Version.mem_levelZeroFiles.mp hg).1
      rw [(hr.scan h hq).1, hnumber] at heq
      rw [heq]
    · intro g hg hlt
      obtain ⟨q, hq, rfl⟩ := (hfile g).mp (Version.mem_levelZeroFiles.mp hg).1
      rw [(hr.scan h hq).1, hnumber] at hlt
      rw [(hr.scan h hq).1, (hr.contents_eq h hq).1, firstOf_eq_none, ← Bool.not_eq_true]
      exact fun hhas => absurd (hhighest q hq hhas) (Nat.not_le.mpr hlt)

end Repairer.Repaired

end WiscKey
