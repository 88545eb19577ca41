import WiscKey.Version.Compaction

/-!
# The selection of a compaction's inputs

A compaction starts from a file that a level or a seek picks, or from the files of a level in a
range of keys. It takes in the files of the next level that overlap them, and more files of its
own level where this adds none of the next.
-/

namespace WiscKey

/-- `config::kL0_CompactionTrigger`. -/
def kL0CompactionTrigger : Nat := 4

/-- `MaxBytesForLevel`, of a level that is not 0. -/
def maxBytesForLevel (level : Level) : Nat := 10 * 1048576 * 10 ^ (level.val - 1)

/-- `ExpandedCompactionByteSizeLimit`, where the product is an `int`. -/
def expandedCompactionByteSizeLimit (maxFileSize : Nat) : Int :=
  (25 * targetFileSize maxFileSize).bmod (2 ^ 32)

/-- The level behind one. -/
def nextLevel (level : Level) : Level := Fin.ofNat kNumLevels (level.val + 1)

variable (ucmp : Comparator) (maxFileSize : Nat)

/-- The range of one more file in `GetRange`. -/
def extendRange (r : Bytes × Bytes) (f : TableFile) : Bytes × Bytes :=
  (if ucmp.internalCompare f.smallest r.1 = .lt then f.smallest else r.1,
    if ucmp.internalCompare f.largest r.2 = .gt then f.largest else r.2)

/-- `GetRange`: the smallest and the largest key of files. -/
def getRange : List TableFile → Bytes × Bytes
  | [] => ([], [])
  | f :: files => files.foldl (extendRange ucmp) (f.smallest, f.largest)

/-- `GetRange2`. -/
def getRange2 (inputs1 inputs2 : List TableFile) : Bytes × Bytes := getRange ucmp (inputs1 ++ inputs2)

/-- The constructor of `Compaction`, with the version that it is made from. -/
def Compaction.new (level : Level) (v : Version Bytes) (inputs0 : List TableFile) : Compaction where
  level := level
  maxOutputFileSize := maxFileSize
  inputVersion := v
  edit := .empty
  inputs0 := inputs0
  inputs1 := []
  grandparents := []
  grandparentIndex := 0
  seenKey := false
  overlappedBytes := 0
  levelPtrs _ := 0

namespace Version

variable (v : Version Bytes)

/-- The files of a level that overlap those between two internal keys. -/
def inputsBetween (level : Level) (r : Bytes × Bytes) : List TableFile :=
  v.getOverlappingInputs ucmp level (some r.1) (some r.2)

/-- The inputs of both levels in `SetupOtherInputs`: those of the level grow where this leaves the
number of those of the next level. -/
def expandInputs (level : Level) (inputs0 : List TableFile) : List TableFile × List TableFile :=
  let inputs1 := v.inputsBetween ucmp (nextLevel level) (getRange ucmp inputs0)
  if inputs1.isEmpty then (inputs0, inputs1)
  else
    let expanded0 := v.inputsBetween ucmp level (getRange2 ucmp inputs0 inputs1)
    if inputs0.length < expanded0.length ∧
        (totalFileSize inputs1 + totalFileSize expanded0 : Int) <
          expandedCompactionByteSizeLimit maxFileSize then
      let expanded1 := v.inputsBetween ucmp (nextLevel level) (getRange ucmp expanded0)
      if expanded1.length = inputs1.length then (expanded0, expanded1) else (inputs0, inputs1)
    else (inputs0, inputs1)

/-- `SetupOtherInputs`. The compaction pointer of the level is set to the last key of the edit's
pointer. -/
def setupOtherInputs (c : Compaction) : Compaction :=
  let inputs := v.expandInputs ucmp maxFileSize c.level c.inputs0
  let grandparents :=
    if c.level.val + 2 < kNumLevels then
      v.inputsBetween ucmp (nextLevel (nextLevel c.level)) (getRange2 ucmp inputs.1 inputs.2)
    else []
  { c with
    inputs0 := inputs.1
    inputs1 := inputs.2
    grandparents := grandparents
    edit := c.edit.setCompactPointer c.level (getRange ucmp inputs.1).2 }

/-- What `PickCompaction` is called for: too much data in a level, or a file with too many
seeks. -/
inductive Trigger
  | size (level : Level)
  | seek (level : Level) (file : TableFile)

/-- The level that a compaction is picked for. -/
def Trigger.level : Trigger → Level
  | size level => level
  | seek level _ => level

/-- The triggers that a version can have. A score of 1 is one of the level or more. Of the levels
with such a score `Finalize` keeps the first one with the best, which compares numbers of type
`double`; here it can be any of them. -/
def Triggers : Trigger → Prop
  | .size level => level.val + 1 < kNumLevels ∧
      if level = 0 then kL0CompactionTrigger ≤ (v.files level).length
      else maxBytesForLevel level ≤ totalFileSize (v.files level)
  | .seek level file => level.val + 1 < kNumLevels ∧ file ∈ v.files level

instance (t : Trigger) : Decidable (v.Triggers t) := by
  cases t <;> exact inferInstanceAs (Decidable (_ ∧ _))

/-- The file that `PickCompaction` starts from. -/
def pickedFile (compactPointer : Level → Bytes) : Trigger → Option TableFile
  | .size level =>
    ((v.files level).find? fun f => (compactPointer level).isEmpty ∨
      ucmp.internalCompare f.largest (compactPointer level) = .gt).or (v.files level).head?
  | .seek _ file => some file

/-- `PickCompaction`. -/
def pickCompaction (compactPointer : Level → Bytes) (t : Trigger) : Option Compaction :=
  (v.pickedFile ucmp compactPointer t).map fun f =>
    let inputs0 :=
      if t.level = 0 then v.inputsBetween ucmp 0 (getRange ucmp [f]) else [f]
    v.setupOtherInputs ucmp maxFileSize (.new maxFileSize t.level v inputs0)

/-- The files of a manual compaction up to where they have a whole file's bytes. -/
def truncateInputs (limit : Nat) : Nat → List TableFile → List TableFile
  | _, [] => []
  | total, f :: files =>
    if limit ≤ total + f.fileSize then [f] else f :: truncateInputs limit (total + f.fileSize) files

/-- `CompactRange`, of `VersionSet`. -/
def compactRange (level : Level) (first last : Option Bytes) : Option Compaction :=
  let inputs := v.getOverlappingInputs ucmp level first last
  if inputs.isEmpty then none
  else
    let inputs := if 0 < level.val then truncateInputs maxFileSize 0 inputs else inputs
    some (v.setupOtherInputs ucmp maxFileSize (.new maxFileSize level v inputs))

end Version

end WiscKey
