import WiscKey.Core.FileName
import WiscKey.Library.Runs
import WiscKey.Version.Manifest

/-!
# Obsolete files

`DeleteObsoleteFiles` deletes the files of a listing that nothing needs any more: the tables of no
version that is alive and of no output in progress, and the logs and descriptors with old numbers.
Outputs get their numbers, files and versions step by step, while readers hold older versions.
-/

namespace WiscKey

/-- The fields of `DBImpl` and its version set that decide which files are kept. -/
structure DBFiles where
  pendingOutputs : Finset Nat
  bgError : Status
  nextFileNumber : Nat
  logNumber : Nat
  prevLogNumber : Nat
  manifestFileNumber : Nat
  current : Version Bytes
  /-- The other versions of the list, which readers hold. -/
  older : List (Version Bytes)

/-- The numbers of the files of a version. -/
def Version.numbers (v : Version Bytes) : List Nat :=
  (List.finRange kNumLevels).flatMap fun level => (v.files level).map FileMetaData.number

namespace DBFiles

variable (s : DBFiles)

/-- The versions of the list. -/
def versions : List (Version Bytes) := s.current :: s.older

/-- `AddLiveFiles`, on the pending outputs. -/
def live : Finset Nat := s.pendingOutputs ∪ (s.versions.flatMap Version.numbers).toFinset

/-- Whether `DeleteObsoleteFiles` keeps a file. -/
def keep (number : Nat) : FileType → Bool
  | .logFile => s.logNumber ≤ number || number = s.prevLogNumber
  | .descriptorFile => s.manifestFileNumber ≤ number
  | .tableFile => number ∈ s.live
  | .tempFile => number ∈ s.live
  | .currentFile => true
  | .dbLockFile => true
  | .infoLogFile => true

/-- The names that `DeleteObsoleteFiles` deletes, of those that `GetChildren` has listed. -/
def deleteObsoleteFiles (filenames : List Bytes) : List Bytes :=
  if s.bgError = .ok then
    filenames.filter fun fname =>
      match parseFileName fname with
      | some (number, type) => !s.keep number type
      | none => false
  else []

end DBFiles

/-- The database and its directory. -/
structure FilesState where
  db : DBFiles
  directory : List Bytes
  /-- The table that `BuildTable` works on. -/
  building : Option Nat
  /-- The tables that it has built, and whose edit is not installed yet. -/
  built : List Nat
  /-- The outputs of the compaction. -/
  outputs : List Nat

/-- What the threads do to the files. Steps of the background thread go from one point at which it
releases the mutex to the next. -/
inductive FilesAction
  /-- A new log, for a memtable switch. -/
  | newLog
  /-- `WriteLevel0Table` takes a number. -/
  | writeLevel0Table
  /-- The file of an output is created. -/
  | createTable (number : Nat)
  /-- `BuildTable` has returned, with a table or without one. -/
  | tableBuilt (kept : Bool)
  /-- `OpenCompactionOutputFile` takes a number. -/
  | openCompactionOutputFile
  /-- `LogAndApply` has logged an edit; a reader may hold the version before. -/
  | install (edit : VersionEdit Bytes) (held : Bool)
  /-- `RecordBackgroundError`. -/
  | recordBackgroundError (status : Status)
  | cleanupCompaction
  /-- A reader gives the last reference to an older version up. -/
  | release (i : Nat)
  | deleteObsoleteFiles (filenames : List Bytes)

namespace FilesState

variable (ucmp : Comparator) (s : FilesState)

/-- A table has a file. -/
def Exists (number : Nat) : Prop :=
  ∃ fname ∈ s.directory, parseFileName fname = some (number, .tableFile)

/-- A table of a version that is alive. -/
def Referenced (number : Nat) : Prop := ∃ v ∈ s.db.versions, number ∈ v.numbers

/-- There is a number to hand out. -/
def HasNumber : Prop := s.db.nextFileNumber + 1 < 2 ^ 64

instance : Decidable s.HasNumber := inferInstanceAs (Decidable (_ < _))

/-- When a step can be taken. There is one background thread: it flushes one memtable at a time,
also inside of a compaction, and deletes files after it has installed what it has built. -/
def Enabled : FilesAction → Prop
  | .newLog => s.HasNumber
  | .writeLevel0Table => s.HasNumber ∧ s.building = none
  | .createTable number => s.building = some number ∨ number ∈ s.outputs
  | .tableBuilt kept => ∃ number, s.building = some number ∧ (kept = true → s.Exists number)
  | .openCompactionOutputFile => s.HasNumber ∧ s.building = none ∧ s.built = []
  | .install edit _ => s.building = none ∧ ∀ p ∈ edit.newFiles,
      p.2.number ∈ s.built ∨ (p.2.number ∈ s.outputs ∧ s.Exists p.2.number) ∨
        p.2.number ∈ s.db.current.numbers
  | .recordBackgroundError status => status ≠ .ok ∧ s.building = none
  | .cleanupCompaction => s.building = none ∧ s.built = []
  | .release _ => True
  | .deleteObsoleteFiles _ => s.building = none ∧ s.built = []

/-- `NewFileNumber`, and the number into `pending_outputs_`. -/
def pendingOutput : DBFiles :=
  { s.db with
    nextFileNumber := s.db.nextFileNumber + 1
    pendingOutputs := insert s.db.nextFileNumber s.db.pendingOutputs }

/-- The state behind a step. -/
def next : FilesAction → FilesState
  | .newLog => { s with db := { s.db with nextFileNumber := s.db.nextFileNumber + 1 } }
  | .writeLevel0Table =>
    { s with db := s.pendingOutput, building := some s.db.nextFileNumber }
  | .createTable number => { s with directory := s.directory ++ [tableBaseName number] }
  | .tableBuilt kept =>
    match s.building with
    | none => s
    | some number =>
      let db := { s.db with pendingOutputs := s.db.pendingOutputs.erase number }
      if kept then { s with db, building := none, built := s.built ++ [number] }
      else
        { s with
          db
          building := none
          directory := s.directory.filter fun fname => fname ≠ tableBaseName number }
  | .openCompactionOutputFile =>
    { s with db := s.pendingOutput, outputs := s.outputs ++ [s.db.nextFileNumber] }
  | .install edit held =>
    { s with
      db := { s.db with
        current := ((Builder.init ucmp.internalCompare).apply edit).saveTo s.db.current
        older := if held then s.db.current :: s.db.older else s.db.older
        logNumber := edit.logNumber.getD s.db.logNumber
        prevLogNumber := edit.prevLogNumber.getD s.db.prevLogNumber }
      built := [] }
  | .recordBackgroundError status =>
    { s with
      db := { s.db with bgError := if s.db.bgError = .ok then status else s.db.bgError }
      built := [] }
  | .cleanupCompaction =>
    { s with
      db := { s.db with pendingOutputs := s.db.pendingOutputs \ s.outputs.toFinset }
      outputs := [] }
  | .release i => { s with db := { s.db with older := s.db.older.eraseIdx i } }
  | .deleteObsoleteFiles filenames =>
    { s with directory := s.directory.filter fun fname =>
        fname ∉ s.db.deleteObsoleteFiles filenames }

/-- A step that can be taken. -/
def Step (s : FilesState) (a : FilesAction) (s' : FilesState) : Prop :=
  s.Enabled a ∧ s' = s.next ucmp a

/-- A database that was just recovered: no output is in progress, and the tables of its version
have files and numbers that were handed out. -/
structure Recovered (s : FilesState) : Prop where
  bound : s.db.nextFileNumber < 2 ^ 64
  pendingOutputs : s.db.pendingOutputs = ∅
  older : s.db.older = []
  building : s.building = none
  built : s.built = []
  outputs : s.outputs = []
  numbers : ∀ number ∈ s.db.current.numbers, number < s.db.nextFileNumber ∧ s.Exists number

/-- A table was handed out for an output, and neither installed nor abandoned yet. -/
def InProgress (number : Nat) : Prop :=
  s.building = some number ∨ number ∈ s.built ∨ number ∈ s.outputs

end FilesState

end WiscKey
