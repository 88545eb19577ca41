import WiscKey.Core.DbFormat
import WiscKey.Core.Status
import WiscKey.Core.FileName
import WiscKey.Log.RoundTrip
import WiscKey.Version.Builder

/-!
# The manifest

A version set logs every edit to a descriptor before it installs the version that the edit
leads to. A descriptor starts with a snapshot, and `CURRENT` names the one in use. After a
restart a version set is rebuilt from these files.
-/

namespace WiscKey

/-- The options of a database that the version set reads when it recovers. -/
structure Options where
  reuseLogs : Bool
  maxFileSize : Nat
  deriving DecidableEq, Repr

/-- `VersionSet`. The numbers are of type `uint64_t`. -/
structure VersionSet where
  nextFileNumber : Nat
  manifestFileNumber : Nat
  lastSequence : Nat
  logNumber : Nat
  prevLogNumber : Nat
  /-- The file of the descriptor and its writer, if it is open. -/
  descriptorLog : Option (Bytes × Log.Writer)
  current : Version Bytes
  /-- Per level, the key at which the next compaction starts, or an empty string. -/
  compactPointer : Level → Bytes

/-- The characters of a text in a message. -/
def bytesText (s : Bytes) : String := String.ofList (s.map fun c => Char.ofNat c.toNat)

/-- The error of an environment that does not find a file. -/
def noSuchFile (fname : Bytes) : Status :=
  .ioError (bytesText fname ++ ": No such file or directory")

/-- `SetCurrentFile`. -/
def setCurrentFile (dbname : Bytes) (disk : Disk) (descriptorNumber : Nat) : Disk :=
  let manifest := descriptorFileName dbname descriptorNumber
  let contents := manifest.drop (dbname.length + 1)
  let tmp := tempFileName dbname descriptorNumber
  (disk.write tmp (contents ++ ascii ['\n'])).renameFile tmp (currentFileName dbname)

/-- One compaction pointer. -/
def setPointer (ptrs : Level → Bytes) (p : Level × Bytes) : Level → Bytes :=
  Function.update ptrs p.1 p.2

/-- The compaction pointers that an edit sets; `Builder::Apply` does this first. -/
def setCompactPointers (ptrs : Level → Bytes) (edit : VersionEdit Bytes) : Level → Bytes :=
  edit.compactPointers.foldl setPointer ptrs

namespace VersionSet

/-- The constructor. -/
def init : VersionSet where
  nextFileNumber := 2
  manifestFileNumber := 0
  lastSequence := 0
  logNumber := 0
  prevLogNumber := 0
  descriptorLog := none
  current := .empty
  compactPointer _ := []

variable (dbname : Bytes) (ucmp : Comparator)

/-- `NewFileNumber`: the number, and the version set behind it. -/
def newFileNumber (v : VersionSet) : Nat × VersionSet :=
  (v.nextFileNumber, { v with nextFileNumber := (v.nextFileNumber + 1) % 2 ^ 64 })

/-- `MarkFileNumberUsed`. -/
def markFileNumberUsed (v : VersionSet) (number : Nat) : VersionSet :=
  if v.nextFileNumber ≤ number then { v with nextFileNumber := (number + 1) % 2 ^ 64 } else v

/-- `SetLastSequence`. -/
def setLastSequence (v : VersionSet) (s : Nat) : VersionSet := { v with lastSequence := s }

/-- The edit that `WriteSnapshot` writes. -/
def snapshotEdit (v : VersionSet) : VersionEdit Bytes :=
  { (VersionEdit.empty : VersionEdit Bytes) with
    comparator := some ucmp.name
    compactPointers := (List.finRange kNumLevels).filterMap fun level =>
      if (v.compactPointer level).isEmpty then none else some (level, v.compactPointer level)
    newFiles := (List.finRange kNumLevels).flatMap fun level =>
      (v.current.files level).map fun f => (level, f) }

/-- The numbers that `LogAndApply` fills into an edit. -/
def fillEdit (v : VersionSet) (edit : VersionEdit Bytes) : VersionEdit Bytes :=
  { edit with
    logNumber := some (edit.logNumber.getD v.logNumber)
    prevLogNumber := some (edit.prevLogNumber.getD v.prevLogNumber)
    nextFileNumber := some v.nextFileNumber
    lastSequence := some v.lastSequence }

/-- The descriptor that `LogAndApply` adds its record to: the open one, or a new one with a
snapshot in it. -/
def openDescriptor (v : VersionSet) : Bytes × Log.Writer :=
  match v.descriptorLog with
  | some descriptor => descriptor
  | none => (descriptorFileName dbname v.manifestFileNumber,
      (Log.Writer.ofFile []).addRecord (v.snapshotEdit ucmp).encodeTo)

/-- `LogAndApply`, where every operation on a file succeeds: the version set, and the disk. -/
def logAndApply (v : VersionSet) (disk : Disk) (edit : VersionEdit Bytes) : VersionSet × Disk :=
  let edit := v.fillEdit edit
  let built := ((Builder.init ucmp.internalCompare).apply edit).saveTo v.current
  -- the pointers are those behind the edit when the snapshot is taken
  let v := { v with compactPointer := setCompactPointers v.compactPointer edit }
  let descriptor := v.openDescriptor dbname ucmp
  let log := descriptor.2.addRecord edit.encodeTo
  let disk := disk.write descriptor.1 log.dest
  let disk :=
    if v.descriptorLog.isNone then setCurrentFile dbname disk v.manifestFileNumber else disk
  ({ v with
      descriptorLog := some (descriptor.1, log)
      current := built
      logNumber := edit.logNumber.getD 0
      prevLogNumber := edit.prevLogNumber.getD 0 }, disk)

/-- The local variables of `Recover`. A number that was not read yet is none. -/
structure Recovering where
  builder : Builder ucmp.internalCompare
  compactPointer : Level → Bytes
  nextFile : Option Nat
  lastSequence : Option Nat
  logNumber : Option Nat
  prevLogNumber : Option Nat
  status : Status

namespace Recovering

variable {ucmp}

/-- The variables before the first record. -/
def start (v : VersionSet) : Recovering ucmp :=
  ⟨Builder.init _, v.compactPointer, none, none, none, none, .ok⟩

/-- `LogReporter::Corruption`. -/
def report (r : Recovering ucmp) (drop : Log.Drop) : Recovering ucmp :=
  if r.status = .ok then { r with status := .corruption drop.reason } else r

/-- The numbers that a record sets. -/
def setNumbers (r : Recovering ucmp) (edit : VersionEdit Bytes) : Recovering ucmp :=
  { r with
    nextFile := edit.nextFileNumber <|> r.nextFile
    lastSequence := edit.lastSequence <|> r.lastSequence
    logNumber := edit.logNumber <|> r.logNumber
    prevLogNumber := edit.prevLogNumber <|> r.prevLogNumber }

/-- `Builder::Apply`, of the edit of a record. -/
def applyEdit (r : Recovering ucmp) (edit : VersionEdit Bytes) : Recovering ucmp :=
  { r with
    builder := r.builder.apply edit
    compactPointer := setCompactPointers r.compactPointer edit }

/-- The comparison of the name of a comparator with the one that is in use. -/
def checkComparator (ucmp : Comparator) (name : Option Bytes) : Status :=
  match name with
  | some name =>
    if name = ucmp.name then .ok
    else .invalidArgument (bytesText name ++ " does not match existing comparator : " ++
      bytesText ucmp.name)
  | none => .ok

/-- The body of the loop over the records. -/
def record (r : Recovering ucmp) (record : Bytes) : Recovering ucmp :=
  match VersionEdit.decodeFrom .empty record with
  | (edit, .ok) =>
    match checkComparator ucmp edit.comparator with
    | .ok => (r.applyEdit edit).setNumbers edit
    | s => { r with status := s }.setNumbers edit
  | (edit, s) => { r with status := s }.setNumbers edit

end Recovering

/-- What `Recover` finds missing behind the last record. -/
def missingEntry {ucmp : Comparator} (r : Recovering ucmp) : Status :=
  if r.nextFile.isNone then .corruption "no meta-nextfile entry in descriptor"
  else if r.logNumber.isNone then .corruption "no meta-lognumber entry in descriptor"
  else if r.lastSequence.isNone then .corruption "no last-sequence-number entry in descriptor"
  else .ok

/-- `ReuseManifest`, for a descriptor of these contents; `appendable` says whether the environment
opens it for appending. -/
def reuseManifest (v : VersionSet) (options : Options) (appendable : Bool)
    (dscname dscbase contents : Bytes) : Option VersionSet :=
  if ¬ options.reuseLogs then none
  else
    match parseFileName dscbase with
    | some (manifestNumber, .descriptorFile) =>
      if options.maxFileSize ≤ contents.length ∨ ¬ appendable then none
      else some { v with
        descriptorLog := some (dscname, Log.Writer.ofFile contents)
        manifestFileNumber := manifestNumber }
    | _ => none

/-- The version set that `Recover` leaves, with its status and what it says about the manifest. -/
structure Recovered where
  versions : VersionSet
  status : Status
  saveManifest : Bool

/-- `Recover`, on a version set that was constructed just before. -/
def recover (options : Options) (appendable : Bool) (v : VersionSet) (disk : Disk) : Recovered :=
  match disk.read (currentFileName dbname) with
  | none => ⟨v, noSuchFile (currentFileName dbname), false⟩
  | some text =>
    if text.getLast? ≠ some 10 then
      ⟨v, .corruption "CURRENT file does not end with newline", false⟩
    else
      let current := text.dropLast
      let dscname := dbname ++ (ascii ['/'] ++ current)
      match disk.read dscname with
      | none => ⟨v, noSuchFile dscname, false⟩
      | some contents =>
        let r : Recovering ucmp := (Log.Reader.ofFile contents true 0).forRecords
          Recovering.report (fun r => r.status == .ok) Recovering.record (.start v)
        let v := { v with compactPointer := r.compactPointer }
        if r.status ≠ .ok then ⟨v, r.status, false⟩
        else
          let prevLogNumber := r.prevLogNumber.getD 0
          let logNumber := r.logNumber.getD 0
          let v := (v.markFileNumberUsed prevLogNumber).markFileNumberUsed logNumber
          if missingEntry r ≠ .ok then ⟨v, missingEntry r, false⟩
          else
            let nextFile := r.nextFile.getD 0
            let v := { v with
              current := r.builder.saveTo v.current
              manifestFileNumber := nextFile
              nextFileNumber := (nextFile + 1) % 2 ^ 64
              lastSequence := r.lastSequence.getD 0
              logNumber
              prevLogNumber }
            match v.reuseManifest options appendable dscname current contents with
            | some v => ⟨v, .ok, false⟩
            | none => ⟨v, .ok, true⟩

end VersionSet

/-- The edit of `NewDB`. -/
def newDBEdit (ucmp : Comparator) : VersionEdit Bytes :=
  { (VersionEdit.empty : VersionEdit Bytes) with
    comparator := some ucmp.name
    logNumber := some 0
    nextFileNumber := some 2
    lastSequence := some 0 }

/-- `NewDB`, on an empty disk. -/
def newDB (dbname : Bytes) (ucmp : Comparator) : Disk :=
  let log := (Log.Writer.ofFile []).addRecord (newDBEdit ucmp).encodeTo
  setCurrentFile dbname (Disk.write [] (descriptorFileName dbname 1) log.dest) 1

end WiscKey
