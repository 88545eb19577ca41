import WiscKey.Compaction.Selection
import WiscKey.Compaction.Work
import WiscKey.Library.History
import WiscKey.Library.Runs
import WiscKey.MemTable.MemTable

/-!
# The database

The memtables, the versions and the background thread of `DBImpl` together. A write inserts its
updates one by one and publishes them with the last sequence number. The background thread flushes
memtables, moves files and compacts, and it flushes also while it compacts. The logs, the
descriptor and the deletion of obsolete files are left out.
-/

namespace WiscKey

/-- A compaction that the background thread works at, with the numbers of its outputs. -/
structure Job where
  compaction : Compaction
  smallestSnapshot : Nat
  numbers : List Nat

/-- What `DBImpl` and its `VersionSet` keep under the mutex. -/
structure Database where
  lastSequence : Nat
  /-- The sequence number of the update that was inserted last. -/
  inserted : Nat
  mem : List TableEntry
  imm : Option (List TableEntry)
  current : Version Bytes
  tables : Tables
  nextFileNumber : Nat
  /-- The numbers of `snapshots_`, the oldest first. -/
  snapshots : List Nat
  job : Option Job

/-- The order of the entries of a table. -/
def compareKeys (ucmp : Comparator) (a b : TableEntry) : Ordering :=
  ucmp.internalCompare a.key b.key

instance (ucmp : Comparator) : Std.TransCmp (compareKeys ucmp) :=
  letI : Ord Bytes := ⟨ucmp.internalCompare⟩
  haveI : Std.TransOrd Bytes := inferInstanceAs (Std.TransCmp ucmp.internalCompare)
  inferInstanceAs (Std.TransCmp (compareOn TableEntry.key))

/-- `LogAndApply`, for the files of a version. -/
def Version.logAndApply (ucmp : Comparator) (v : Version Bytes) (edit : VersionEdit Bytes) :
    Version Bytes :=
  ((Builder.init ucmp.internalCompare).apply edit).saveTo v

/-- `MakeInputIterator`: the entries of the inputs in order. -/
def Compaction.mergedInput (ucmp : Comparator) (tables : Tables) (c : Compaction) :
    List TableEntry :=
  (c.inputs0 ++ c.inputs1).foldl
    (fun entries f => mergeOrdered (compareKeys ucmp) entries (tables f.number).2) []

/-- The tables, with those of the outputs of a compaction. -/
def storeOutputs (tables : Tables) (outputs : List (Output × List TableEntry)) : Tables :=
  outputs.foldl (fun tables o => Function.update tables o.1.number (.ok, o.2)) tables

namespace Database

/-- A database that was just made: the numbers in front are those of its log and descriptor. -/
def new : Database where
  lastSequence := 0
  inserted := 0
  mem := []
  imm := none
  current := .empty
  tables _ := (.ok, [])
  nextFileNumber := 4
  snapshots := []
  job := none

variable (ucmp : Comparator) (maxFileSize : Nat) (db : Database)

/-- `MemTableInserter`, for one update of a batch. -/
def insert (op : Op) : Database :=
  { db with
    inserted := db.inserted + 1
    mem := insertOrdered (compareKeys ucmp) (op.entry (db.inserted + 1)).entry db.mem }

/-- `SetLastSequence`, at the end of `Write`. -/
def publish : Database := { db with lastSequence := db.inserted }

/-- The switch to a new memtable in `MakeRoomForWrite`, which has a new log. -/
def switchMemTable : Database :=
  { db with imm := some db.mem, mem := [], nextFileNumber := db.nextFileNumber + 1 }

/-- `GetSnapshot`. -/
def getSnapshot : Database := { db with snapshots := db.snapshots ++ [db.lastSequence] }

/-- `ReleaseSnapshot`. -/
def releaseSnapshot (number : Nat) : Database :=
  { db with snapshots := db.snapshots.erase number }

/-- `NewFileNumber`, for a file that is no table of a version: a descriptor, or a table that could
not be built. -/
def newFileNumber : Database := { db with nextFileNumber := db.nextFileNumber + 1 }

/-- `CompactMemTable`, where the table has some size. An empty memtable has no table. -/
def compactMemTable (fileSize : Nat) (imm : List TableEntry) : Database :=
  let flushed := { db with imm := none, nextFileNumber := db.nextFileNumber + 1 }
  match imm.head?, imm.getLast? with
  | some first, some last =>
    let level := db.current.pickLevelForMemTableOutput ucmp maxFileSize (extractUserKey first.key)
      (extractUserKey last.key)
    let file : TableFile := ⟨db.nextFileNumber, fileSize, first.key, last.key⟩
    { flushed with
      current := db.current.logAndApply ucmp (VersionEdit.empty.addFile level file)
      tables := Function.update db.tables db.nextFileNumber (.ok, imm) }
  | _, _ => flushed

/-- The trivial move of `BackgroundCompaction`. -/
def moveFile (c : Compaction) (f : TableFile) : Database :=
  { db with
    current := db.current.logAndApply ucmp
      ((c.edit.deleteFile c.level f.number).addFile (nextLevel c.level) f) }

/-- The beginning of `DoCompactionWork`. -/
def beginCompaction (c : Compaction) : Database :=
  { db with job := some ⟨c, smallestSnapshotOf db.lastSequence db.snapshots, []⟩ }

/-- A new number for an output, in `OpenCompactionOutputFile`. -/
def openOutput (job : Job) : Database :=
  { db with
    nextFileNumber := db.nextFileNumber + 1
    job := some { job with numbers := job.numbers ++ [db.nextFileNumber] } }

/-- `InstallCompactionResults`, with the tables of the outputs. -/
def install (st : CompactionState) : Database :=
  { db with
    current := db.current.logAndApply ucmp st.installEdit
    tables := storeOutputs db.tables st.outputs
    job := none }

/-- `CleanupCompaction`, after an error. -/
def abandon : Database := { db with job := none }

/-- What `Get` reads from. -/
def readState : ReadState := ⟨db.lastSequence, db.mem, db.imm, db.current, db.tables⟩

end Database

/-- The steps of a database: those of the thread that writes, those of readers, and those of the
background thread. -/
inductive DbAction
  | insert (op : Op)
  | publish
  | switchMemTable
  | getSnapshot
  | releaseSnapshot (number : Nat)
  | newFileNumber
  | compactMemTable (fileSize : Nat)
  | moveFile (compactPointer : Level → Bytes) (t : Version.Trigger)
  | pickCompaction (compactPointer : Level → Bytes) (t : Version.Trigger)
  | compactRange (level : Level) (first last : Option Bytes)
  | openOutput
  | install (env : WorkEnv)
  | abandon

/-- One step. The background thread has one job at a time, and begins none while there is an
immutable memtable; the outputs of a job have the numbers that it was given. Sequence numbers and
file numbers do not run out. -/
inductive Database.Step (ucmp : Comparator) (maxFileSize : Nat) :
    Database → DbAction → Database → Prop
  | insert {db : Database} (op : Op) (hfits : (op.entry (db.inserted + 1)).Fits)
    (hmax : db.inserted + 1 < kMaxSequenceNumber) :
    Step ucmp maxFileSize db (.insert op) (db.insert ucmp op)
  | publish {db : Database} : Step ucmp maxFileSize db .publish db.publish
  | switchMemTable {db : Database} (himm : db.imm = none) (hall : db.lastSequence = db.inserted)
    (hnumber : db.nextFileNumber + 1 < 2 ^ 64) :
    Step ucmp maxFileSize db .switchMemTable db.switchMemTable
  | getSnapshot {db : Database} : Step ucmp maxFileSize db .getSnapshot db.getSnapshot
  | releaseSnapshot {db : Database} (number : Nat) (hmem : number ∈ db.snapshots) :
    Step ucmp maxFileSize db (.releaseSnapshot number) (db.releaseSnapshot number)
  | newFileNumber {db : Database} (hnumber : db.nextFileNumber + 1 < 2 ^ 64) :
    Step ucmp maxFileSize db .newFileNumber db.newFileNumber
  | compactMemTable {db : Database} {imm : List TableEntry} (himm : db.imm = some imm)
    (fileSize : Nat) (hsize : 0 < fileSize) (hnumber : db.nextFileNumber + 1 < 2 ^ 64) :
    Step ucmp maxFileSize db (.compactMemTable fileSize)
      (db.compactMemTable ucmp maxFileSize fileSize imm)
  | moveFile {db : Database} {c : Compaction} {f : TableFile} (hidle : db.job = none)
    (himm : db.imm = none) (compactPointer : Level → Bytes) (t : Version.Trigger)
    (htrigger : db.current.Triggers t)
    (hpick : db.current.pickCompaction ucmp maxFileSize compactPointer t = some c)
    (hmove : c.isTrivialMove maxFileSize = true) (hfile : c.inputs0 = [f]) :
    Step ucmp maxFileSize db (.moveFile compactPointer t) (db.moveFile ucmp c f)
  | pickCompaction {db : Database} {c : Compaction} (hidle : db.job = none)
    (himm : db.imm = none) (compactPointer : Level → Bytes) (t : Version.Trigger)
    (htrigger : db.current.Triggers t)
    (hpick : db.current.pickCompaction ucmp maxFileSize compactPointer t = some c)
    (hmove : c.isTrivialMove maxFileSize = false) :
    Step ucmp maxFileSize db (.pickCompaction compactPointer t) (db.beginCompaction c)
  | compactRange {db : Database} {c : Compaction} (hidle : db.job = none)
    (himm : db.imm = none) (level : Level) (first last : Option Bytes)
    (hlevel : level.val + 1 < kNumLevels)
    (hrange : db.current.compactRange ucmp maxFileSize level first last = some c) :
    Step ucmp maxFileSize db (.compactRange level first last) (db.beginCompaction c)
  | openOutput {db : Database} {job : Job} (hjob : db.job = some job)
    (hnumber : db.nextFileNumber + 1 < 2 ^ 64) :
    Step ucmp maxFileSize db .openOutput (db.openOutput job)
  | install {db : Database} {job : Job} (hjob : db.job = some job) (env : WorkEnv)
    (hinput : env.rounds.map Prod.fst = job.compaction.mergedInput ucmp db.tables)
    (hinstall : (doCompactionWork ucmp maxFileSize env job.compaction
      job.smallestSnapshot).install = some .ok)
    (hnumbers : (doCompactionWork ucmp maxFileSize env job.compaction
      job.smallestSnapshot).state.outputs.map (fun o => o.1.number) = job.numbers) :
    Step ucmp maxFileSize db (.install env)
      (db.install ucmp (doCompactionWork ucmp maxFileSize env job.compaction
        job.smallestSnapshot).state)
  | abandon {db : Database} {job : Job} (hjob : db.job = some job) :
    Step ucmp maxFileSize db .abandon db.abandon

section Specification

variable (ucmp : Comparator)

/-- The user key of an update. -/
def Op.userKey : Op → Bytes
  | .put key _ => key
  | .delete key => key

/-- The update is of the user key. -/
def Op.isFor (userKey : Bytes) (op : Op) : Bool := ucmp.compare op.userKey userKey = .eq

/-- A read that ends at an update: a value, or nothing behind a deletion. -/
def Op.answer : Option Op → Status × Option Bytes
  | some (.put _ value) => (.ok, some value)
  | _ => (.notFound "", none)

/-- The purpose of a database: a reader at a snapshot sees the last update of a key among the
updates in front of the snapshot. -/
def readAt (history : List Op) (snapshot : Nat) (userKey : Bytes) : Status × Option Bytes :=
  Op.answer (lastOf (Op.isFor ucmp userKey) history snapshot)

/-- The updates of a run. -/
def updatesOf (actions : List DbAction) : List Op :=
  actions.filterMap fun action =>
    match action with
    | .insert op => some op
    | _ => none

end Specification

end WiscKey
