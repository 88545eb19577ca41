import WiscKey.Repair.Repairer
import WiscKey.Version.ManifestRun

/-!
# What a repair finds and writes

The tables that a repair finds, those that it makes of logs, and the descriptor from which the
database is opened again: all of its tables are in level 0.
-/

namespace WiscKey

/-- The number of a table in a listing. -/
def tableNumber? (filename : Bytes) : Option Nat :=
  match parseFileName filename with
  | some (number, .tableFile) => some number
  | _ => none

/-- The number of a log in a listing. -/
def logNumber? (filename : Bytes) : Option Nat :=
  match parseFileName filename with
  | some (number, .logFile) => some number
  | _ => none

namespace Repairer

variable {dbname : Bytes} {ucmp : Comparator} {r : Repairer} {filenames : List Bytes}

/-- What one name of a listing does. -/
theorem findFile_spec {bound : Nat} {filename : Bytes} (hbound : bound < 2 ^ 64)
    (hnumber : ∀ number type, parseFileName filename = some (number, type) → number < bound)
    (hnext : r.nextFileNumber ≤ bound) :
    ∃ manifests next, r.findFile filename = { r with
        manifests := r.manifests ++ manifests
        tableNumbers := r.tableNumbers ++ (tableNumber? filename).toList
        logs := r.logs ++ (logNumber? filename).toList
        nextFileNumber := next } ∧
      (∀ name ∈ manifests, ∃ number, parseFileName name = some (number, .descriptorFile)) ∧
      r.nextFileNumber ≤ next ∧ next ≤ bound ∧
      ∀ number ∈ (tableNumber? filename).toList ++ (logNumber? filename).toList, number < next := by
  unfold findFile tableNumber? logNumber?
  cases hparse : parseFileName filename with
  | none => exact ⟨[], r.nextFileNumber, by simp, by simp, le_rfl, hnext, by simp⟩
  | some p =>
    obtain ⟨number, type⟩ := p
    have hlt := hnumber number type hparse
    have hmod : (number + 1) % 2 ^ 64 = number + 1 := Nat.mod_eq_of_lt (by omega)
    have hmax : r.nextFileNumber ≤ max r.nextFileNumber (number + 1) := le_max_left ..
    have hmaxLe : max r.nextFileNumber (number + 1) ≤ bound := max_le hnext hlt
    have hstep : (if r.nextFileNumber < (number + 1) % 2 ^ 64 then
        { r with nextFileNumber := (number + 1) % 2 ^ 64 } else r) =
          { r with nextFileNumber := max r.nextFileNumber (number + 1) } := by
      rw [hmod]
      split
      · rename_i hless
        rw [max_eq_right hless.le]
      · rename_i hless
        rw [max_eq_left (Nat.not_lt.mp hless)]
    have hself : number < max r.nextFileNumber (number + 1) := lt_max_of_lt_right (by omega)
    cases type with
    | descriptorFile =>
      exact ⟨[filename], r.nextFileNumber, by simp, by simp [hparse], le_rfl, hnext, by simp⟩
    | logFile =>
      simp only [hstep]
      exact ⟨[], _, by simp, by simp, hmax, hmaxLe, by simp⟩
    | tableFile =>
      simp only [hstep]
      exact ⟨[], _, by simp, by simp, hmax, hmaxLe, by simp⟩
    | dbLockFile | currentFile | tempFile | infoLogFile =>
      simp only [hstep]
      exact ⟨[], _, by simp, by simp, hmax, hmaxLe, by simp⟩

/-- `FindFiles` collects the numbers of the tables and logs, and a next number above them. -/
theorem findFiles_spec {bound : Nat} (hbound : bound < 2 ^ 64)
    (hnumber : ∀ filename ∈ filenames, ∀ number type,
      parseFileName filename = some (number, type) → number < bound)
    (hnext : r.nextFileNumber ≤ bound) :
    ∃ manifests next, r.findFiles filenames = { r with
        manifests := r.manifests ++ manifests
        tableNumbers := r.tableNumbers ++ filenames.filterMap tableNumber?
        logs := r.logs ++ filenames.filterMap logNumber?
        nextFileNumber := next } ∧
      (∀ name ∈ manifests, ∃ number, parseFileName name = some (number, .descriptorFile)) ∧
      r.nextFileNumber ≤ next ∧ next ≤ bound ∧
      (∀ number ∈ filenames.filterMap tableNumber?, number < next) ∧
      ∀ number ∈ filenames.filterMap logNumber?, number < next := by
  induction filenames generalizing r with
  | nil => exact ⟨[], r.nextFileNumber, by simp [findFiles], by simp, le_rfl, hnext, by simp, by simp⟩
  | cons filename filenames ih =>
    obtain ⟨manifests, next, hfind, hmanifests, hle, hnext', hlt⟩ :=
      findFile_spec hbound (hnumber filename List.mem_cons_self) hnext
    obtain ⟨manifests', next', hrest, hmanifests', hle', hnext'', htables, hlogs⟩ :=
      @ih (r.findFile filename) (fun name hname => hnumber name (List.mem_cons_of_mem _ hname))
        (by rw [hfind]; exact hnext')
    rw [hfind] at hrest hle'
    have hcons : ∀ f : Bytes → Option Nat,
        (filename :: filenames).filterMap f = (f filename).toList ++ filenames.filterMap f := by
      intro f
      rw [List.filterMap_cons]
      cases f filename with
      | none => rfl
      | some n => rfl
    refine ⟨manifests ++ manifests', next', ?_, ?_, hle.trans hle', hnext'', ?_, ?_⟩
    · rw [findFiles, List.foldl_cons, hfind, hcons, hcons]
      rw [findFiles] at hrest
      rw [hrest]
      simp only [List.append_assoc]
    · intro name hname
      rcases List.mem_append.mp hname with hname | hname
      · exact hmanifests name hname
      · exact hmanifests' name hname
    · intro number hmem
      rw [hcons, List.mem_append] at hmem
      rcases hmem with hmem | hmem
      · exact (hlt number (List.mem_append_left _ hmem)).trans_le hle'
      · exact htables number hmem
    · intro number hmem
      rw [hcons, List.mem_append] at hmem
      rcases hmem with hmem | hmem
      · exact (hlt number (List.mem_append_right _ hmem)).trans_le hle'
      · exact hlogs number hmem

section Names

variable {log other number : Nat} {name : Bytes}

theorem logFileName_eq (dbname : Bytes) (log : Nat) :
    logFileName dbname log = dbname ++ (ascii ['/'] ++ logBaseName log) := rfl

/-- Names with a digit in front differ from names with a letter in front. -/
theorem digit_ne_letter (dbname : Bytes) {name other : Bytes}
    (hname : ∃ c rest, name = c :: rest ∧ c.toNat ≤ 57)
    (hother : ∃ c rest, other = c :: rest ∧ 57 < c.toNat) :
    dbname ++ (ascii ['/'] ++ name) ≠ dbname ++ (ascii ['/'] ++ other) := by
  obtain ⟨c, rest, rfl, hc⟩ := hname
  obtain ⟨d, rest', rfl, hd⟩ := hother
  intro h
  obtain rfl : c = d := (List.cons.inj (List.cons.inj (List.append_cancel_left h)).2).1
  omega

theorem head_numbered (n : Nat) (rest : Bytes) :
    ∃ c rest', paddedDecimal n ++ rest = c :: rest' ∧ c.toNat ≤ 57 := by
  obtain ⟨c, digits, htext, hc⟩ := head_paddedDecimal n
  exact ⟨c, digits ++ rest, by rw [htext, List.cons_append], hc⟩

/-- The names of descriptors begin with a letter. -/
theorem head_of_descriptor (h : parseFileName name = some (number, .descriptorFile)) :
    ∃ c rest, name = c :: rest ∧ 57 < c.toNat := by
  have hprefix : manifestText.isPrefixOf name = true := by
    unfold parseFileName at h
    by_contra hletter
    split_ifs at h with hcurrent hlock hlog
    · cases h
    · cases h
    · cases h
    · split at h
      · split_ifs at h
        all_goals cases h
      · cases h
  obtain ⟨suffix, rfl⟩ := List.isPrefixOf_iff_prefix.mp hprefix
  exact ⟨77, _, rfl, by decide⟩

/-- The names of archived files begin with a letter. -/
theorem head_lost (name : Bytes) :
    ∃ c rest, ascii ['l', 'o', 's', 't', '/'] ++ name = c :: rest ∧ 57 < c.toNat :=
  ⟨108, _, rfl, by decide⟩

theorem logFileName_inj (hlog : log ≤ kMaxUint64) (hother : other ≤ kMaxUint64)
    (h : logFileName dbname log = logFileName dbname other) : log = other := by
  have hscan : ∀ n ≤ kMaxUint64,
      consumeDecimalNumber (logBaseName n) = some (n, ascii ['.', 'l', 'o', 'g']) :=
    fun n hn => consumeDecimalNumber_padded hn (by rintro c ⟨⟩; rfl)
  have hname : logBaseName log = logBaseName other :=
    List.append_cancel_left (List.append_cancel_left h)
  have hlogScan := hscan log hlog
  rw [hname, hscan other hother] at hlogScan
  exact (Prod.mk.inj (Option.some.inj hlogScan)).1.symm

end Names

/-- The tables that the logs become: the numbers go up, and a log without entries has no table. -/
def converted (mem : Nat → List TableEntry) : Nat → List Nat → List (Nat × List TableEntry)
  | _, [] => []
  | next, log :: logs =>
    (if (mem log).isEmpty then [] else [(next, mem log)]) ++ converted mem (next + 1) logs

theorem le_of_mem_converted {mem : Nat → List TableEntry} {next : Nat} {logs : List Nat}
    {p : Nat × List TableEntry} (h : p ∈ converted mem next logs) :
    next ≤ p.1 ∧ p.1 < next + logs.length ∧ p.2 ≠ [] ∧ ∃ log ∈ logs, p.2 = mem log := by
  induction logs generalizing next with
  | nil => exact absurd h List.not_mem_nil
  | cons log logs ih =>
    rw [converted, List.mem_append] at h
    rw [List.length_cons]
    rcases h with h | h
    · split at h
      · exact absurd h List.not_mem_nil
      · rename_i hne
        obtain rfl := List.mem_singleton.mp h
        exact ⟨le_rfl, by simp, by simpa using hne, log, List.mem_cons_self, rfl⟩
    · obtain ⟨hle, hlt, hne, log', hlog, hmem⟩ := ih h
      exact ⟨by omega, by omega, hne, log', List.mem_cons_of_mem _ hlog, hmem⟩

/-- `ConvertLogFilesToTables` makes these tables and leaves no log. -/
theorem convertLogFilesToTables_spec {mem : Nat → List TableEntry} {logs : List Nat}
    (hlogs : logs.Nodup) (hmax : ∀ log ∈ logs, log ≤ kMaxUint64)
    (hread : ∀ log ∈ logs, ∃ contents, r.disk.read (logFileName dbname log) = some contents ∧
      logMemTable ucmp contents = mem log)
    (hnext : r.nextFileNumber + logs.length < 2 ^ 64) :
    ∃ disk contents, logs.foldl (fun r log =>
        (r.convertLogToTable dbname ucmp log).archiveFile dbname (logBaseName log)) r =
          { r with
            disk, contents
            tableNumbers := r.tableNumbers ++ (converted mem r.nextFileNumber logs).map Prod.fst
            nextFileNumber := r.nextFileNumber + logs.length } ∧
      (∀ p ∈ converted mem r.nextFileNumber logs, contents p.1 = (.ok, p.2)) ∧
      (∀ number < r.nextFileNumber, contents number = r.contents number) ∧
      ∀ log, (log ∈ logs ∨ r.disk.read (logFileName dbname log) = none) → log ≤ kMaxUint64 →
        disk.read (logFileName dbname log) = none := by
  induction logs generalizing r with
  | nil =>
    refine ⟨r.disk, r.contents, by simp [converted], by simp [converted], fun _ _ => rfl, ?_⟩
    rintro log (h | h) -
    · exact absurd h List.not_mem_nil
    · exact h
  | cons log logs ih =>
    obtain ⟨hnotMem, hlogs⟩ := List.nodup_cons.mp hlogs
    obtain ⟨contents, hcontents, hmem⟩ := hread log List.mem_cons_self
    have hlog := hmax log List.mem_cons_self
    rw [List.length_cons] at hnext
    have hmod : (r.nextFileNumber + 1) % 2 ^ 64 = r.nextFileNumber + 1 :=
      Nat.mod_eq_of_lt (by omega)
    -- the table of the first log
    obtain ⟨r₁, hr₁⟩ : ∃ r₁, (r.convertLogToTable dbname ucmp log).archiveFile dbname
        (logBaseName log) = r₁ := ⟨_, rfl⟩
    have hstep : ∃ contents₁, r₁ = { r with
          disk := r.disk.renameFile (logFileName dbname log)
            (dbname ++ (ascii ['/', 'l', 'o', 's', 't', '/'] ++ logBaseName log))
          contents := contents₁
          tableNumbers := r.tableNumbers ++
            (if (mem log).isEmpty then [] else [(r.nextFileNumber, mem log)]).map Prod.fst
          nextFileNumber := r.nextFileNumber + 1 } ∧
        ((mem log).isEmpty = false → contents₁ r.nextFileNumber = (.ok, mem log)) ∧
        ∀ number ≠ r.nextFileNumber, contents₁ number = r.contents number := by
      subst hr₁
      unfold convertLogToTable
      simp only [hcontents, hmem, hmod]
      cases hempty : (mem log).isEmpty with
      | true => exact ⟨r.contents, by simp [archiveFile, logFileName_eq], by simp, by simp⟩
      | false =>
        refine ⟨Function.update r.contents r.nextFileNumber (.ok, mem log), ?_, ?_, ?_⟩
        · simp [archiveFile, logFileName_eq]
        · simp
        · exact fun number hne => Function.update_of_ne hne ..
    obtain ⟨contents₁, hr₁', hself, hother⟩ := hstep
    have hlost : ∀ n, logFileName dbname n ≠
        dbname ++ (ascii ['/', 'l', 'o', 's', 't', '/'] ++ logBaseName log) :=
      fun n => digit_ne_letter dbname (head_numbered n _) (head_lost (logBaseName log))
    have hreadOther : ∀ n, n ≤ kMaxUint64 → n ≠ log →
        r₁.disk.read (logFileName dbname n) = r.disk.read (logFileName dbname n) := by
      intro n hn hne
      rw [hr₁']
      exact Disk.read_renameFile_of_ne _ (fun h => hne (logFileName_inj hn hlog h)) (hlost n)
    have hreadSelf : r₁.disk.read (logFileName dbname log) = none := by
      rw [hr₁']
      exact Disk.read_renameFile_self _ (hlost log)
    have hnext₁ : r₁.nextFileNumber = r.nextFileNumber + 1 := by rw [hr₁']
    obtain ⟨disk, contents', hfold, hconverted, hold, hgone⟩ := @ih r₁ hlogs
      (fun n hn => hmax n (List.mem_cons_of_mem _ hn))
      (fun n hn => by
        rw [hreadOther n (hmax n (List.mem_cons_of_mem _ hn)) (fun h => hnotMem (h ▸ hn))]
        exact hread n (List.mem_cons_of_mem _ hn))
      (by omega)
    refine ⟨disk, contents', ?_, ?_, ?_, ?_⟩
    · rw [List.foldl_cons, hr₁, hfold, hr₁']
      simp only [converted, List.map_append, List.append_assoc, List.length_cons]
      congr 1
      omega
    · intro p hp
      rw [converted, List.mem_append] at hp
      rcases hp with hp | hp
      · split at hp
        · exact absurd hp List.not_mem_nil
        · rename_i hne
          obtain rfl := List.mem_singleton.mp hp
          rw [hold _ (by omega), hr₁']
          exact hself (by simpa using hne)
      · rw [← hnext₁] at hp
        exact hconverted p hp
    · intro number hlt
      rw [hold number (by omega), hr₁']
      exact hother number hlt.ne
    · intro n hn hmaxn
      refine hgone n ?_ hmaxn
      by_cases hne : n = log
      · exact .inr (hne ▸ hreadSelf)
      · rw [hreadOther n hmaxn hne]
        exact hn.imp_left fun h => (List.mem_cons.mp h).resolve_left hne

/-- Tables that can be read to their ends are all kept. -/
theorem extractMetaData_spec {numbers : List Nat} (h : ∀ n ∈ numbers, (r.contents n).1 = .ok) :
    numbers.foldl scanTable r = { r with
      tables := r.tables ++ numbers.map fun n => scanEntries n (r.fileSize n) (r.contents n).2 } := by
  induction numbers generalizing r with
  | nil => simp
  | cons n numbers ih =>
    have hstep : r.scanTable n = { r with
        tables := r.tables ++ [scanEntries n (r.fileSize n) (r.contents n).2] } := by
      simp only [scanTable, if_pos (h n List.mem_cons_self)]
    rw [List.foldl_cons, hstep]
    refine (@ih { r with tables := r.tables ++ [_] } fun n hn =>
      h n (List.mem_cons_of_mem _ hn)).trans ?_
    simp

section Scan

variable {entries : List TableEntry} {e : TableEntry} {t : TableInfo}

/-- Behind the first key, the scan keeps the smallest key and the largest sequence number. -/
theorem foldl_scanEntry (h : ∀ e ∈ entries, (parseInternalKey e.key).isSome)
    (ht : t.maxSequence ≤ kMaxSequenceNumber) :
    ∃ s, entries.foldl scanEntry (false, t) = (false, ⟨{ t.file with
        largest := (entries.getLast?.map TableEntry.key).getD t.file.largest }, s⟩) ∧
      t.maxSequence ≤ s ∧ s ≤ kMaxSequenceNumber ∧
      ∀ e ∈ entries, ∀ ikey, parseInternalKey e.key = some ikey → ikey.sequence ≤ s := by
  induction entries generalizing t with
  | nil => exact ⟨t.maxSequence, rfl, le_rfl, ht, by simp⟩
  | cons e entries ih =>
    obtain ⟨ikey, hparse⟩ := Option.isSome_iff_exists.mp (h e List.mem_cons_self)
    have hle := sequence_le_of_parse hparse
    have hmax : (if t.maxSequence < ikey.sequence then ikey.sequence else t.maxSequence) =
        max t.maxSequence ikey.sequence := by
      split
      · rename_i hlt
        rw [max_eq_right hlt.le]
      · rename_i hlt
        rw [max_eq_left (Nat.not_lt.mp hlt)]
    have hstep : scanEntry (false, t) e = (false, ⟨{ t.file with largest := e.key },
        max t.maxSequence ikey.sequence⟩) := by
      simp only [scanEntry, hparse, hmax, Bool.false_eq_true, if_false]
    obtain ⟨s, hfold, hs, hsmax, hall⟩ :=
      @ih ⟨{ t.file with largest := e.key }, max t.maxSequence ikey.sequence⟩
        (fun e he => h e (List.mem_cons_of_mem _ he)) (max_le ht hle)
    refine ⟨s, ?_, (le_max_left ..).trans hs, hsmax, fun f hf fkey hfkey => ?_⟩
    · rw [List.foldl_cons, hstep, hfold]
      cases entries with
      | nil => rfl
      | cons f entries => simp [List.getLast?_eq_some_getLast]
    · rcases List.mem_cons.mp hf with rfl | hf
      · obtain rfl := Option.some.inj (hparse.symm.trans hfkey)
        exact (le_max_right ..).trans hs
      · exact hall f hf fkey hfkey

/-- The scan of a table finds its first and its last key and its largest sequence number. -/
theorem scanEntries_spec (number fileSize : Nat)
    (h : ∀ f ∈ e :: entries, (parseInternalKey f.key).isSome) :
    ∃ s, scanEntries number fileSize (e :: entries) =
        ⟨⟨number, fileSize, e.key, ((e :: entries).getLast (List.cons_ne_nil e entries)).key⟩, s⟩ ∧
      s ≤ kMaxSequenceNumber ∧
      ∀ f ∈ e :: entries, ∀ ikey, parseInternalKey f.key = some ikey → ikey.sequence ≤ s := by
  obtain ⟨ikey, hparse⟩ := Option.isSome_iff_exists.mp (h e List.mem_cons_self)
  have hle := sequence_le_of_parse hparse
  have hmax : (if 0 < ikey.sequence then ikey.sequence else 0) = ikey.sequence := by
    split
    · rfl
    · omega
  have hstep : scanEntry (true, ⟨⟨number, fileSize, [], []⟩, 0⟩) e =
      (false, ⟨⟨number, fileSize, e.key, e.key⟩, ikey.sequence⟩) := by
    simp only [scanEntry, hparse, hmax, if_true]
  obtain ⟨s, hfold, hs, hsmax, hall⟩ :=
    @foldl_scanEntry entries ⟨⟨number, fileSize, e.key, e.key⟩, ikey.sequence⟩
      (fun f hf => h f (List.mem_cons_of_mem _ hf)) hle
  refine ⟨s, ?_, hsmax, fun f hf fkey hfkey => ?_⟩
  · rw [scanEntries, List.foldl_cons, hstep, hfold]
    cases entries with
    | nil => rfl
    | cons f entries => simp [List.getLast?_eq_some_getLast]
  · rcases List.mem_cons.mp hf with rfl | hf
    · obtain rfl := Option.some.inj (hparse.symm.trans hfkey)
      exact hs
    · exact hall f hf fkey hfkey

end Scan

/-- The largest sequence number of the tables is one of theirs, or zero. -/
theorem maxSequence_spec (r : Repairer) :
    (∀ t ∈ r.tables, t.maxSequence ≤ r.maxSequence) ∧
      ∀ bound, (∀ t ∈ r.tables, t.maxSequence ≤ bound) → r.maxSequence ≤ bound := by
  have hfold : ∀ (tables : List TableInfo) (s : Nat),
      s ≤ tables.foldl (fun s t => if s < t.maxSequence then t.maxSequence else s) s ∧
      (∀ t ∈ tables, t.maxSequence ≤
        tables.foldl (fun s t => if s < t.maxSequence then t.maxSequence else s) s) ∧
      ∀ bound, s ≤ bound → (∀ t ∈ tables, t.maxSequence ≤ bound) →
        tables.foldl (fun s t => if s < t.maxSequence then t.maxSequence else s) s ≤ bound := by
    intro tables
    induction tables with
    | nil => exact fun s => ⟨le_rfl, by simp, fun bound hs _ => hs⟩
    | cons t tables ih =>
      intro s
      obtain ⟨hs, hall, hbound⟩ := ih (if s < t.maxSequence then t.maxSequence else s)
      have hle : s ≤ (if s < t.maxSequence then t.maxSequence else s) ∧
          t.maxSequence ≤ (if s < t.maxSequence then t.maxSequence else s) := by
        split <;> omega
      refine ⟨hle.1.trans hs, ?_, fun bound hsBound htables => hbound bound ?_ ?_⟩
      · exact List.forall_mem_cons.mpr ⟨hle.2.trans hs, hall⟩
      · have ht := htables t List.mem_cons_self
        split <;> omega
      · exact fun t ht => htables t (List.mem_cons_of_mem _ ht)
  obtain ⟨-, hall, hbound⟩ := hfold r.tables 0
  exact ⟨hall, fun bound => hbound bound (Nat.zero_le _)⟩

/-- The edit adds all tables to level 0. -/
theorem edit_eq (r : Repairer) (ucmp : Comparator) :
    r.edit ucmp = { (VersionEdit.empty : VersionEdit Bytes) with
      comparator := some ucmp.name
      logNumber := some 0
      nextFileNumber := some r.nextFileNumber
      lastSequence := some r.maxSequence
      newFiles := r.tables.map fun t => (0, t.file) } := by
  have hfold : ∀ (tables : List TableInfo) (e : VersionEdit Bytes),
      tables.foldl (fun e t => e.addFile 0 t.file) e =
        { e with newFiles := e.newFiles ++ tables.map fun t => (0, t.file) } := by
    intro tables
    induction tables with
    | nil => simp
    | cons t tables ih =>
      intro e
      rw [List.foldl_cons, ih]
      simp [VersionEdit.addFile]
  rw [edit, hfold]
  rfl

/-- Archived descriptors leave the files whose names have a digit in front. -/
theorem read_archiveManifests {manifests : List Bytes} {name : Bytes}
    (h : ∀ name ∈ manifests, ∃ number, parseFileName name = some (number, .descriptorFile))
    (hname : ∃ c rest, name = c :: rest ∧ c.toNat ≤ 57) :
    (manifests.foldl (archiveFile dbname) r).disk.read (dbname ++ (ascii ['/'] ++ name)) =
      r.disk.read (dbname ++ (ascii ['/'] ++ name)) := by
  induction manifests generalizing r with
  | nil => rfl
  | cons manifest manifests ih =>
    obtain ⟨number, hparse⟩ := h manifest List.mem_cons_self
    rw [List.foldl_cons, ih fun name hmem => h name (List.mem_cons_of_mem _ hmem)]
    exact Disk.read_renameFile_of_ne _ (digit_ne_letter dbname hname (head_of_descriptor hparse))
      (digit_ne_letter dbname hname (head_lost manifest))

/-- The disk behind `WriteDescriptor`: `CURRENT` names the new descriptor, and the logs are as they
were. -/
theorem read_writeDescriptor
    (h : ∀ name ∈ r.manifests, ∃ number, parseFileName name = some (number, .descriptorFile)) :
    (r.writeDescriptor dbname ucmp).disk.read (currentFileName dbname) =
        some (manifestText ++ (paddedDecimal 1 ++ [10])) ∧
      (r.writeDescriptor dbname ucmp).disk.read (descriptorFileName dbname 1) =
        some ((Log.Writer.ofFile []).addRecord (r.edit ucmp).encodeTo).dest ∧
      ∀ log, (r.writeDescriptor dbname ucmp).disk.read (logFileName dbname log) =
        r.disk.read (logFileName dbname log) := by
  have hdigit : ∀ suffix, ∃ c rest, paddedDecimal 1 ++ (ascii ['.'] ++ suffix) = c :: rest ∧
      c.toNat ≤ 57 := fun suffix => head_numbered 1 _
  obtain ⟨dest, hdest⟩ : ∃ dest,
      ((Log.Writer.ofFile []).addRecord (r.edit ucmp).encodeTo).dest = dest := ⟨_, rfl⟩
  have htmp : ((r.manifests.foldl (archiveFile dbname) { r with
      disk := r.disk.write (tempFileName dbname 1) dest }).disk.read (tempFileName dbname 1)) =
        some dest := by
    rw [tempFileName, makeFileName, read_archiveManifests h (hdigit _)]
    exact Disk.read_write_self ..
  refine ⟨read_current_setCurrentFile .., ?_, fun log => ?_⟩
  · simp only [writeDescriptor, hdest]
    rw [read_descriptor_setCurrentFile]
    exact Disk.read_renameFile_target _ _ htmp
  · simp only [writeDescriptor, hdest]
    have hlog : logFileName dbname log ≠ tempFileName dbname 1 := by
      intro heq
      have hsuffix : ∀ name number suffix c, (makeFileName name number (suffix ++ [c])).getLast? =
          some c := by
        intro name number suffix c
        simp only [makeFileName, ← List.append_assoc]
        exact List.getLast?_concat
      have hlast := congrArg List.getLast? heq
      have hg := hsuffix dbname log (ascii ['l', 'o']) 103
      have hp := hsuffix dbname 1 (ascii ['d', 'b', 't', 'm']) 112
      exact absurd (hg.symm.trans (hlast.trans hp)) (by decide)
    have hletter : logFileName dbname log ≠ currentFileName dbname ∧
        logFileName dbname log ≠ descriptorFileName dbname 1 :=
      ⟨digit_ne_letter dbname (head_numbered log _) ⟨67, _, rfl, by decide⟩,
        digit_ne_letter dbname (head_numbered log _) ⟨77, _, rfl, by decide⟩⟩
    unfold setCurrentFile
    simp only
    rw [Disk.read_renameFile_of_ne _ hlog hletter.1, Disk.read_write_of_ne _ _ hlog,
      Disk.read_renameFile_of_ne _ hlog hletter.2, logFileName, makeFileName,
      read_archiveManifests h (head_numbered log _)]
    exact Disk.read_write_of_ne _ _ hlog

end Repairer

end WiscKey
