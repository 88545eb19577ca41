import WiscKey.Repair.Descriptor
import WiscKey.Repair.Search

/-!
# The database behind a repair

The database that is opened behind a repair has all tables of the repair in level 0, and sees all
of their entries.
-/

namespace WiscKey.Repairer

open VersionSet VersionSet.Recovering

variable {dbname : Bytes} {ucmp : Comparator} {r : Repairer} {options : Options} {appendable : Bool}

/-- The version set that the descriptor of a repair describes. -/
def described (r : Repairer) (ucmp : Comparator) : VersionSet where
  nextFileNumber := r.nextFileNumber
  manifestFileNumber := 0
  lastSequence := r.maxSequence
  logNumber := 0
  prevLogNumber := 0
  descriptorLog := none
  current := (replay ucmp [r.edit ucmp]).builder.saveTo .empty
  compactPointer _ := []

/-- The tables of a repair have different numbers and fit their codings. -/
structure TablesFit (r : Repairer) : Prop where
  numbers : (r.tables.map fun t => t.file.number).Nodup
  fits : ∀ t ∈ r.tables, t.file.Fits
  next : r.nextFileNumber + 2 < 2 ^ 64
  sequence : r.maxSequence < 2 ^ 64

theorem TablesFit.eq_of_number (h : r.TablesFit) {f g : TableFile}
    (hf : f ∈ r.tables.map TableInfo.file) (hg : g ∈ r.tables.map TableInfo.file)
    (hnumber : f.number = g.number) : f = g := by
  obtain ⟨t, ht, rfl⟩ := List.mem_map.mp hf
  obtain ⟨u, hu, rfl⟩ := List.mem_map.mp hg
  rw [List.inj_on_of_nodup_map h.numbers ht hu hnumber]

theorem mem_newFiles_edit {level : Level} {f : TableFile} :
    (level, f) ∈ (r.edit ucmp).newFiles ↔ level = 0 ∧ f ∈ r.tables.map TableInfo.file := by
  rw [edit_eq]
  simp only [List.mem_map, Prod.mk.injEq]
  constructor
  · rintro ⟨t, ht, rfl, rfl⟩
    exact ⟨rfl, t, ht, rfl⟩
  · rintro ⟨rfl, t, ht, rfl⟩
    exact ⟨t, ht, rfl, rfl⟩

/-- The files that the edit adds. -/
theorem TablesFit.mem_addedFiles (h : r.TablesFit) {level : Level} {f : TableFile} :
    f ∈ ((replay ucmp [r.edit ucmp]).builder level).addedFiles.toList ↔
      level = 0 ∧ f ∈ r.tables.map TableInfo.file := by
  have happly := @Builder.mem_addedFiles_apply _ ucmp.internalCompare (Builder.init _) level _
    (r.edit ucmp) (by
      rintro f g (hf | hf) (hg | hg)
      · cases hf
      · cases hf
      · cases hg
      · exact h.eq_of_number (mem_newFiles_edit.mp hf).2 (mem_newFiles_edit.mp hg).2) f
  rw [mem_newFiles_edit] at happly
  exact happly.trans (or_iff_right (by simp [Builder.init, OrderedSet.empty]))

/-- The edit leads to what the descriptor describes. -/
theorem TablesFit.logged (h : r.TablesFit) : Logged ucmp [r.edit ucmp] (r.described ucmp)
    (r.tables.map fun t => t.file.number) := by
  have hfits : (r.edit ucmp).Fits := by
    have hnext := h.next
    rw [edit_eq]
    constructor
    · intro name hname
      cases hname
      exact ucmp.length_name
    · intro n hn
      cases hn
      decide
    · exact fun n hn => nomatch hn
    · intro n hn
      cases hn
      omega
    · intro n hn
      cases hn
      exact h.sequence
    · exact fun p hp => nomatch hp
    · exact fun p hp => nomatch hp
    · intro p hp
      obtain ⟨t, ht, rfl⟩ := List.mem_map.mp hp
      exact h.fits t ht
  have hcomparator : (r.edit ucmp).comparator = some ucmp.name := by rw [edit_eq]
  constructor
  · constructor
    · intro e he
      rw [List.mem_singleton.mp he]
      exact ⟨hfits, .inr hcomparator⟩
    · exact ⟨_, [], rfl, hcomparator⟩
    · rfl
    · intro level level' f g hf hg hnumber
      exact h.eq_of_number (h.mem_addedFiles.mp hf).2 (h.mem_addedFiles.mp hg).2 hnumber
    · intro level f hf
      obtain ⟨t, ht, rfl⟩ := List.mem_map.mp (h.mem_addedFiles.mp hf).2
      exact List.mem_map_of_mem ht
    · intro level f hf
      obtain ⟨t, ht, rfl⟩ := List.mem_map.mp (h.mem_addedFiles.mp hf).2
      exact h.fits t ht
  all_goals
    rw [edit_eq]
    rfl

/-- The files of the version that the descriptor describes. -/
theorem TablesFit.mem_described (h : r.TablesFit) {level : Level} {f : TableFile} :
    f ∈ (r.described ucmp).current.files level ↔
      level = 0 ∧ f ∈ r.tables.map TableInfo.file := by
  rw [described, Builder.mem_saveTo, h.mem_addedFiles]
  have hempty : f ∉ (Version.empty : Version Bytes).files level := List.not_mem_nil
  have hdeleted : f.number ∉ ((replay ucmp [r.edit ucmp]).builder level).deletedFiles := by
    intro hmem
    have happly := (Builder.mem_deletedFiles_apply (Builder.init ucmp.internalCompare) level
      (r.edit ucmp) f.number).mp hmem
    rw [edit_eq] at happly
    rcases happly.1 with hinit | hnew
    · exact absurd hinit (Finset.notMem_empty _)
    · exact absurd hnew List.not_mem_nil
  tauto

/-- An edit without files leaves the files of every level. -/
theorem mem_files_logAndApply {v : VersionSet} {disk : Disk} {edit : VersionEdit Bytes}
    (hnew : edit.newFiles = []) (hdeleted : edit.deletedFiles.toList = []) {level : Level}
    {f : TableFile} : f ∈ (v.logAndApply dbname ucmp disk edit).1.current.files level ↔
      f ∈ v.current.files level := by
  have hfill : (v.fillEdit edit).newFiles = [] ∧ (v.fillEdit edit).deletedFiles.toList = [] :=
    ⟨hnew, hdeleted⟩
  simp only [logAndApply]
  rw [Builder.mem_saveTo, Builder.mem_deletedFiles_apply, Builder.mem_addedFiles_apply, hfill.1,
    hfill.2]
  · simp [Builder.init, OrderedSet.empty]
  · rw [hfill.1]
    simp [Builder.init, OrderedSet.empty]

/-- The database is opened with the tables of the repair in level 0. -/
theorem TablesFit.reopen (h : r.TablesFit)
    (hmanifests : ∀ name ∈ r.manifests, ∃ number,
      parseFileName name = some (number, .descriptorFile))
    (hlogs : ∀ log ∈ r.logs, r.disk.read (logFileName dbname log) = none) :
    ∃ v, (r.writeDescriptor dbname ucmp).reopen dbname ucmp options appendable =
        some ⟨r.maxSequence, [], none, v, r.contents⟩ ∧
      ∀ level f, f ∈ v.files level ↔ level = 0 ∧ f ∈ r.tables.map TableInfo.file := by
  obtain ⟨hcurrent, hdescriptor, hlogNames⟩ :=
    @read_writeDescriptor dbname ucmp r hmanifests
  have harchive : ∀ (manifests : List Bytes) (r : Repairer),
      (manifests.foldl (archiveFile dbname) r).logs = r.logs ∧
        (manifests.foldl (archiveFile dbname) r).contents = r.contents := by
    intro manifests
    induction manifests with
    | nil => exact fun r => ⟨rfl, rfl⟩
    | cons name manifests ih => exact fun r => ih _
  obtain ⟨hsameLogs, hcontents⟩ := harchive r.manifests { r with
    disk := r.disk.write (tempFileName dbname 1)
      ((Log.Writer.ofFile []).addRecord (r.edit ucmp).encodeTo).dest }
  have hremaining : (r.writeDescriptor dbname ucmp).remainingLogs dbname = [] := by
    rw [remainingLogs, List.filter_eq_nil_iff]
    intro log hlog
    have hmem : log ∈ r.logs := by
      rw [← hsameLogs]
      exact hlog
    rw [hlogNames, hlogs log hmem]
    exact Bool.false_ne_true
  -- either way of recovery gives the version that the descriptor describes
  obtain ⟨versions, saveManifest, hrecover, hlast, hfiles⟩ : ∃ versions saveManifest,
      recover dbname ucmp options appendable .init (r.writeDescriptor dbname ucmp).disk =
        ⟨versions, .ok, saveManifest⟩ ∧ versions.lastSequence = r.maxSequence ∧
      ∀ level f, f ∈ versions.current.files level ↔
        level = 0 ∧ f ∈ r.tables.map TableInfo.file := by
    rcases recover_logged options appendable h.logged
      (Log.Writer.holds_new.addRecord (r.edit ucmp).encodeTo) (by decide) hcurrent hdescriptor
      with hfresh | hreused
    · exact ⟨_, _, hfresh, rfl, fun level f => h.mem_described⟩
    · exact ⟨_, _, hreused, rfl, fun level f => h.mem_described⟩
  unfold Repairer.reopen
  rw [hrecover, hremaining]
  cases saveManifest with
  | false =>
    refine ⟨versions.current, ?_, hfiles⟩
    rw [← hlast, ← hcontents]
    rfl
  | true =>
    refine ⟨(versions.newFileNumber.2.logAndApply dbname ucmp
      (r.writeDescriptor dbname ucmp).disk { (VersionEdit.empty : VersionEdit Bytes) with
        prevLogNumber := some 0
        logNumber := some versions.newFileNumber.1 }).1.current, ?_, fun level f => ?_⟩
    · rw [← hlast, ← hcontents]
      rfl
    · rw [mem_files_logAndApply rfl rfl]
      exact hfiles level f

end WiscKey.Repairer

/-!
## Repair of an intact directory

The tables of a directory are sorted, and its logs hold the batches that were written. A repair
keeps all of their entries: the tables as they are, and a sorted table for each log.
-/

namespace WiscKey

/-- Entries of a source that compare equal are the same. -/
def Distinct (ucmp : Comparator) (entries : List TableEntry) : Prop :=
  ∀ e ∈ entries, ∀ f ∈ entries, ucmp.internalCompare e.key f.key = .eq → e = f

/-- The updates of the batches of a log. -/
def logUpdates (batches : List WriteBatch) : List MemEntry :=
  batches.flatMap fun b => numbered b.sequence b.operations

/-- The entries of a log, in the order of writing. -/
def logEntries (batches : List WriteBatch) : List TableEntry :=
  (logUpdates batches).map MemEntry.tableEntry

/-- The memtable of a log. -/
def memTableOf (ucmp : Comparator) (batches : List WriteBatch) : List TableEntry :=
  (logEntries batches).foldl (memTableAdd ucmp) []

namespace RepairFiles

variable (files : RepairFiles)

/-- The numbers of the tables, as they are listed. -/
def tableNumbers : List Nat := files.filenames.filterMap tableNumber?

/-- The numbers of the logs, as they are listed. -/
def logNumbers : List Nat := files.filenames.filterMap logNumber?

/-- The file of a table is as a builder left it. -/
structure IntactTable (ucmp : Comparator) (number : Nat) : Prop where
  ok : (files.tables number).1 = .ok
  nonempty : (files.tables number).2 ≠ []
  increasing : (files.tables number).2.Pairwise fun e f => ucmp.internalCompare e.key f.key = .lt
  decodable : ∀ e ∈ (files.tables number).2, (parseInternalKey e.key).isSome
  fits : ∀ e ∈ (files.tables number).2, e.key.length < 2 ^ 32

/-- The file of a log holds these batches, whose sequence numbers go up. -/
structure IntactLog (dbname : Bytes) (log : Nat) (batches : List WriteBatch) : Prop where
  written : ∃ w : Log.Writer, w.Holds (batches.map WriteBatch.rep) ∧
    files.disk.read (logFileName dbname log) = some w.dest
  replayable : ∀ b ∈ batches, b.Replayable b.operations
  increasing : (logUpdates batches).Pairwise fun u v => u.sequence < v.sequence
  bounded : ∀ u ∈ logUpdates batches, u.sequence ≤ kMaxSequenceNumber
  fits : ∀ u ∈ logUpdates batches, u.key.length + 8 < 2 ^ 32

/-- All tables and logs of a directory are intact, and the numbers of its files leave room for
more. -/
structure Intact (dbname : Bytes) (ucmp : Comparator) (batches : Nat → List WriteBatch) :
    Prop where
  nonempty : files.filenames ≠ []
  numbers : ∀ filename ∈ files.filenames, ∀ number type,
    parseFileName filename = some (number, type) → number + files.logNumbers.length + 3 < 2 ^ 64
  few : files.logNumbers.length + 4 < 2 ^ 64
  fileSize : ∀ number, files.fileSize number < 2 ^ 64
  tablesOnce : files.tableNumbers.Nodup
  logsOnce : files.logNumbers.Nodup
  tables : ∀ number ∈ files.tableNumbers, files.IntactTable ucmp number
  logs : ∀ log ∈ files.logNumbers, files.IntactLog dbname log (batches log)

end RepairFiles

section MemTable

variable {ucmp : Comparator} {mem entries : List TableEntry} {batches : List WriteBatch}

theorem memTableAdd_perm (ucmp : Comparator) (mem : List TableEntry) (e : TableEntry) :
    (memTableAdd ucmp mem e).Perm (e :: mem) := List.perm_orderedInsert ..

/-- A memtable stays sorted. -/
theorem SortedStream.memTableAdd (h : SortedStream ucmp mem) (e : TableEntry) :
    SortedStream ucmp (memTableAdd ucmp mem e) := by
  have htotal : Std.Total fun a b : TableEntry => ucmp.internalCompare a.key b.key ≠ .gt :=
    ⟨fun a b => by
      by_cases hgt : ucmp.internalCompare a.key b.key = .gt
      · exact .inr (not_gt_iff_not_lt.mpr fun hlt => by rw [hgt] at hlt; cases hlt)
      · exact .inl hgt⟩
  have htrans : IsTrans TableEntry fun a b => ucmp.internalCompare a.key b.key ≠ .gt :=
    ⟨fun _ _ _ => not_gt_trans⟩
  exact h.orderedInsert ..

theorem foldl_memTableAdd (h : SortedStream ucmp mem) :
    SortedStream ucmp (entries.foldl (memTableAdd ucmp) mem) ∧
      (entries.foldl (memTableAdd ucmp) mem).Perm (entries ++ mem) := by
  induction entries generalizing mem with
  | nil => exact ⟨h, .refl _⟩
  | cons e entries ih =>
    obtain ⟨hsorted, hperm⟩ := ih (h.memTableAdd e)
    exact ⟨hsorted, (hperm.trans ((memTableAdd_perm ucmp mem e).append_left entries)).trans
      List.perm_middle⟩

theorem memTableOf_sorted (ucmp : Comparator) (batches : List WriteBatch) :
    SortedStream ucmp (memTableOf ucmp batches) := (foldl_memTableAdd List.Pairwise.nil).1

theorem mem_memTableOf {e : TableEntry} :
    e ∈ memTableOf ucmp batches ↔ e ∈ logEntries batches := by
  have hperm := (@foldl_memTableAdd ucmp [] (logEntries batches) List.Pairwise.nil).2
  rw [List.append_nil] at hperm
  exact hperm.mem_iff

/-- The records of a log fill its memtable. -/
theorem foldl_addRecord (h : ∀ b ∈ batches, b.Replayable b.operations) :
    (batches.map WriteBatch.rep).foldl (Repairer.addRecord ucmp) mem =
      (logEntries batches).foldl (memTableAdd ucmp) mem := by
  induction batches generalizing mem with
  | nil => rfl
  | cons b batches ih =>
    have hb := h b List.mem_cons_self
    have hlength : ¬ b.rep.length < 12 := by
      obtain ⟨records, hlayout, -⟩ := hb
      exact Nat.not_lt.mpr hlayout.kHeader_le
    have hrecord : Repairer.addRecord ucmp mem b.rep =
        (logEntries [b]).foldl (memTableAdd ucmp) mem := by
      simp only [Repairer.addRecord, if_neg hlength, WriteBatch.insertInto, List.nil_append,
        logEntries, logUpdates, List.flatMap_cons, List.flatMap_nil, List.append_nil,
        List.foldl_map]
    rw [List.map_cons, List.foldl_cons, hrecord, ih fun b hb => h b (List.mem_cons_of_mem _ hb),
      ← List.foldl_append]
    simp [logEntries, logUpdates]

end MemTable

namespace RepairFiles

variable {files : RepairFiles} {dbname : Bytes} {ucmp : Comparator} {log number : Nat}
  {batches : List WriteBatch} {e : TableEntry}

/-- A repair reads the memtable of an intact log. -/
theorem IntactLog.read (h : files.IntactLog dbname log batches) (ucmp : Comparator) :
    ∃ contents, files.disk.read (logFileName dbname log) = some contents ∧
      Repairer.logMemTable ucmp contents = memTableOf ucmp batches := by
  obtain ⟨w, hholds, hread⟩ := h.written
  refine ⟨w.dest, hread, ?_⟩
  rw [Repairer.logMemTable, (hholds.reads false).readAll.1, foldl_addRecord h.replayable]
  rfl

/-- The entries of an intact log are those of its updates. -/
theorem IntactLog.parse (h : files.IntactLog dbname log batches) (he : e ∈ logEntries batches) :
    ∃ u ∈ logUpdates batches, u.tableEntry = e ∧
      parseInternalKey e.key = some ⟨u.key, u.sequence, u.type⟩ ∧ e.key.length < 2 ^ 32 := by
  obtain ⟨u, hu, rfl⟩ := List.mem_map.mp he
  refine ⟨u, hu, rfl, parseInternalKey_appendInternalKey (h.bounded u hu), ?_⟩
  have hlength := h.fits u hu
  rw [MemEntry.tableEntry, appendInternalKey, List.length_append, encodeFixed64,
    length_encodeFixed]
  exact hlength

/-- Each sequence number is used once in a log. -/
theorem IntactLog.distinct (h : files.IntactLog dbname log batches) (ucmp : Comparator) :
    Distinct ucmp (logEntries batches) := by
  intro e he f hf hcmp
  obtain ⟨u, hu, rfl, hparse, -⟩ := h.parse he
  obtain ⟨v, hv, rfl, hparse', -⟩ := h.parse hf
  have htags : internalTag v.tableEntry.key = internalTag u.tableEntry.key := by
    rw [Comparator.internalCompare, Ordering.then_eq_eq] at hcmp
    exact Nat.compare_eq_eq.mp hcmp.2
  have hu' := (parseInternalKey_spec hparse).2
  have hv' := (parseInternalKey_spec hparse').2
  have hcode : ∀ t : ValueType, t.code < 256 := fun t => by cases t <;> decide
  have hsequence : u.sequence = v.sequence := by
    have hcodeU := hcode u.type
    have hcodeV := hcode v.type
    simp only at hu' hv'
    omega
  -- different places of the log have different sequence numbers
  have hmap : ((logUpdates batches).map MemEntry.sequence).Nodup :=
    List.Pairwise.map _ (fun _ _ hlt => hlt.ne) h.increasing
  rw [List.inj_on_of_nodup_map hmap hu hv hsequence]

theorem IntactTable.sorted (h : files.IntactTable ucmp number) :
    SortedStream ucmp (files.tables number).2 := by
  refine h.increasing.imp fun {a b} hlt hgt => ?_
  rw [hlt] at hgt
  cases hgt

theorem IntactTable.distinct (h : files.IntactTable ucmp number) :
    Distinct ucmp (files.tables number).2 := by
  have heq : ∀ {e f : TableEntry}, ucmp.internalCompare e.key f.key = .lt →
      ucmp.internalCompare e.key f.key ≠ .eq := fun hlt heq => by
    rw [hlt] at heq
    cases heq
  refine List.Pairwise.forall_of_forall_of_flip (fun e _ _ => rfl) ?_ ?_
  · exact h.increasing.imp fun hlt hcmp => absurd hcmp (heq hlt)
  · exact h.increasing.imp fun hlt hcmp => absurd (Std.OrientedCmp.eq_symm hcmp) (heq hlt)

end RepairFiles

end WiscKey
