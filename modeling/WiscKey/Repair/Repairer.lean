import WiscKey.Version.Get
import WiscKey.Version.Manifest
import WiscKey.Write.WriteBatch

/-!
# Repair

`RepairDB` turns every log of a directory into a table, scans all tables, and writes a descriptor
that has all of them at level 0. Operations on files succeed, and the messages to the info log
are left out.
-/

namespace WiscKey

/-- What a memtable stores for an entry: an internal key and a value. -/
def MemEntry.tableEntry (e : MemEntry) : TableEntry :=
  ⟨appendInternalKey ⟨e.key, e.sequence, e.type⟩, e.value⟩

/-- `MemTable::Add`: the list of a memtable is sorted. -/
def memTableAdd (ucmp : Comparator) (mem : List TableEntry) (e : TableEntry) : List TableEntry :=
  mem.orderedInsert (fun a b => ucmp.internalCompare a.key b.key ≠ .gt) e

/-- The files of a directory: the names in the order of `GetChildren`, the contents of the logs and
descriptors, and the tables with their sizes. -/
structure RepairFiles where
  filenames : List Bytes
  disk : Disk
  tables : Tables
  fileSize : Nat → Nat

/-- `Repairer::TableInfo`. -/
structure TableInfo where
  file : TableFile
  maxSequence : Nat
  deriving DecidableEq

/-- `Repairer`, with the files it works on. -/
structure Repairer where
  disk : Disk
  contents : Tables
  fileSize : Nat → Nat
  manifests : List Bytes
  tableNumbers : List Nat
  logs : List Nat
  tables : List TableInfo
  nextFileNumber : Nat

namespace Repairer

/-- The constructor. -/
def new (files : RepairFiles) : Repairer :=
  ⟨files.disk, files.tables, files.fileSize, [], [], [], [], 1⟩

/-- The body of the loop of `FindFiles`. -/
def findFile (r : Repairer) (filename : Bytes) : Repairer :=
  match parseFileName filename with
  | none => r
  | some (_, .descriptorFile) => { r with manifests := r.manifests ++ [filename] }
  | some (number, type) =>
    let r := if r.nextFileNumber < (number + 1) % 2 ^ 64 then
      { r with nextFileNumber := (number + 1) % 2 ^ 64 } else r
    match type with
    | .logFile => { r with logs := r.logs ++ [number] }
    | .tableFile => { r with tableNumbers := r.tableNumbers ++ [number] }
    | _ => r

/-- `FindFiles`. -/
def findFiles (r : Repairer) (filenames : List Bytes) : Repairer := filenames.foldl findFile r

variable (dbname : Bytes) (ucmp : Comparator)

/-- `ArchiveFile`, for the file with a name in the directory. -/
def archiveFile (r : Repairer) (name : Bytes) : Repairer :=
  let newFile := dbname ++ (ascii ['/', 'l', 'o', 's', 't', '/'] ++ name)
  { r with disk := r.disk.renameFile (dbname ++ (ascii ['/'] ++ name)) newFile }

/-- The body of the loop over the records of a log. What a batch has inserted before an error
stays. -/
def addRecord (mem : List TableEntry) (record : Bytes) : List TableEntry :=
  if record.length < 12 then mem
  else
    ((WriteBatch.mk record).insertInto []).2.foldl (fun mem e => memTableAdd ucmp mem e.tableEntry)
      mem

/-- The memtable that a log is read into, without checksums. -/
def logMemTable (contents : Bytes) : List TableEntry :=
  (Log.Reader.ofFile contents false 0).readAll.1.foldl (addRecord ucmp) []

/-- `ConvertLogToTable`. A table without entries has no file. -/
def convertLogToTable (r : Repairer) (log : Nat) : Repairer :=
  match r.disk.read (logFileName dbname log) with
  | none => r
  | some contents =>
    let mem := logMemTable ucmp contents
    let number := r.nextFileNumber
    let r := { r with nextFileNumber := (number + 1) % 2 ^ 64 }
    if mem.isEmpty then r
    else
      { r with
        contents := Function.update r.contents number (.ok, mem)
        tableNumbers := r.tableNumbers ++ [number] }

/-- The name of a log in its directory. -/
def logBaseName (log : Nat) : Bytes := paddedDecimal log ++ ascii ['.', 'l', 'o', 'g']

/-- `ConvertLogFilesToTables`. -/
def convertLogFilesToTables (r : Repairer) : Repairer :=
  r.logs.foldl (fun r log =>
    (r.convertLogToTable dbname ucmp log).archiveFile dbname (logBaseName log)) r

/-- The body of the loop of `ScanTable`; `empty` tells that no key was parsed yet. -/
def scanEntry (t : Bool × TableInfo) (e : TableEntry) : Bool × TableInfo :=
  match parseInternalKey e.key with
  | none => t
  | some parsed =>
    (false, ⟨{ t.2.file with
        smallest := if t.1 then e.key else t.2.file.smallest
        largest := e.key },
      if t.2.maxSequence < parsed.sequence then parsed.sequence else t.2.maxSequence⟩)

/-- What `ScanTable` finds in the entries of a table. -/
def scanEntries (number fileSize : Nat) (entries : List TableEntry) : TableInfo :=
  (entries.foldl scanEntry (true, ⟨⟨number, fileSize, [], []⟩, 0⟩)).2

/-- `RepairTable`: a table that cannot be read to its end is replaced by what was read. -/
def repairTable (r : Repairer) (t : TableInfo) (entries : List TableEntry) : Repairer :=
  let r := { r with nextFileNumber := (r.nextFileNumber + 1) % 2 ^ 64 }
  if entries.isEmpty then r
  else
    { r with
      contents := Function.update r.contents t.file.number (.ok, entries)
      tables := r.tables ++ [t] }

/-- `ScanTable`. -/
def scanTable (r : Repairer) (number : Nat) : Repairer :=
  let (status, entries) := r.contents number
  let t := scanEntries number (r.fileSize number) entries
  if status = .ok then { r with tables := r.tables ++ [t] } else r.repairTable t entries

/-- `ExtractMetaData`. -/
def extractMetaData (r : Repairer) : Repairer := r.tableNumbers.foldl scanTable r

/-- The largest sequence number of the tables. -/
def maxSequence (r : Repairer) : Nat :=
  r.tables.foldl (fun s t => if s < t.maxSequence then t.maxSequence else s) 0

/-- The edit of `WriteDescriptor`. -/
def edit (r : Repairer) : VersionEdit Bytes :=
  r.tables.foldl (fun e t => e.addFile 0 t.file)
    { (VersionEdit.empty : VersionEdit Bytes) with
      comparator := some ucmp.name
      logNumber := some 0
      nextFileNumber := some r.nextFileNumber
      lastSequence := some r.maxSequence }

/-- `WriteDescriptor`. -/
def writeDescriptor (r : Repairer) : Repairer :=
  let tmp := tempFileName dbname 1
  let log := (Log.Writer.ofFile []).addRecord (r.edit ucmp).encodeTo
  let r := { r with disk := r.disk.write tmp log.dest }
  let r := r.manifests.foldl (archiveFile dbname) r
  { r with disk :=
      setCurrentFile dbname (r.disk.renameFile tmp (descriptorFileName dbname 1)) 1 }

/-- `Run`, or none for a directory without files. -/
def run (files : RepairFiles) : Option Repairer :=
  if files.filenames.isEmpty then none
  else some (((((new files).findFiles files.filenames).convertLogFilesToTables dbname ucmp)
    |>.extractMetaData).writeDescriptor dbname ucmp)

/-- The logs that the directory still has. -/
def remainingLogs (r : Repairer) : List Nat :=
  r.logs.filter fun log => (r.disk.read (logFileName dbname log)).isSome

/-- `DB::Open`, where the database has no log that has to be read again: what reads see before any
compaction. -/
def reopen (options : Options) (appendable : Bool) (r : Repairer) : Option ReadState :=
  let recovered := VersionSet.recover dbname ucmp options appendable .init r.disk
  if recovered.status ≠ .ok ∨ r.remainingLogs dbname ≠ [] then none
  else
    let (newLogNumber, versions) := recovered.versions.newFileNumber
    let edit := { (VersionEdit.empty : VersionEdit Bytes) with
      prevLogNumber := some 0
      logNumber := some newLogNumber }
    let versions :=
      if recovered.saveManifest then (versions.logAndApply dbname ucmp r.disk edit).1 else versions
    some ⟨versions.lastSequence, [], none, versions.current, r.contents⟩

end Repairer

end WiscKey
