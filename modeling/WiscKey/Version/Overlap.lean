import WiscKey.Version.Builder
import WiscKey.Core.DbFormat

/-!
# Files that overlap a range of keys

The files of a level that can hold keys of a range, and the level that a flushed memtable is
placed at. Bounds of a range are user keys, and a bound that is absent does not limit it.
-/

namespace WiscKey

/-- The metadata of a table; its bounds are internal keys. -/
abbrev TableFile := FileMetaData Bytes

/-- `config::kMaxMemCompactLevel`. -/
def kMaxMemCompactLevel : Nat := 2

/-- `TargetFileSize`, an `int`. -/
def targetFileSize (maxFileSize : Nat) : Int := toInt32 maxFileSize

/-- `MaxGrandParentOverlapBytes`, where the product is an `int`. -/
def maxGrandParentOverlapBytes (maxFileSize : Nat) : Int :=
  (10 * targetFileSize maxFileSize).bmod (2 ^ 32)

/-- `TotalFileSize`. -/
def totalFileSize (files : List TableFile) : Nat := (files.map FileMetaData.fileSize).sum

variable (ucmp : Comparator)

/-- The binary search of `FindFile` between two bounds. They are of type `uint32_t`, whose sum does
not overflow in a level of fewer than 2^31 files. -/
def findFileLoop (files : List TableFile) (key : Bytes) : Nat → Nat → Nat → Nat
  | 0, _, right => right
  | fuel + 1, left, right =>
    if left < right then
      let mid := (left + right) / 2
      match files[mid]? with
      | none => right
      | some f =>
        if ucmp.internalCompare f.largest key = .lt then
          findFileLoop files key fuel (mid + 1) right
        else findFileLoop files key fuel left mid
    else right

/-- `FindFile`: the first file of a sorted level whose largest key is not before the key. -/
def findFile (files : List TableFile) (key : Bytes) : Nat :=
  findFileLoop ucmp files key files.length 0 files.length

/-- `AfterFile`. -/
def afterFile (userKey : Option Bytes) (f : TableFile) : Bool :=
  match userKey with
  | none => false
  | some k => ucmp.compare k (extractUserKey f.largest) = .gt

/-- `BeforeFile`. -/
def beforeFile (userKey : Option Bytes) (f : TableFile) : Bool :=
  match userKey with
  | none => false
  | some k => ucmp.compare k (extractUserKey f.smallest) = .lt

/-- `SomeFileOverlapsRange`. -/
def someFileOverlapsRange (disjointSortedFiles : Bool) (files : List TableFile)
    (smallest largest : Option Bytes) : Bool :=
  if disjointSortedFiles then
    let index :=
      match smallest with
      | none => 0
      | some k => findFile ucmp files (appendInternalKey ⟨k, kMaxSequenceNumber, .value⟩)
    match files[index]? with
    | none => false
    | some f => !beforeFile ucmp largest f
  else files.any fun f => !(afterFile ucmp smallest f || beforeFile ucmp largest f)

/-- What one pass of `GetOverlappingInputs` over a level ends with. -/
inductive OverlapPass
  | done (inputs : List TableFile)
  /-- A file of level 0 has expanded the range. -/
  | restart (userBegin userEnd : Option Bytes)

/-- One pass of `GetOverlappingInputs` over the files that are left. -/
def overlapPass (isLevelZero : Bool) (userBegin userEnd : Option Bytes) (inputs : List TableFile) :
    List TableFile → OverlapPass
  | [] => .done inputs
  | f :: files =>
    let fileStart := extractUserKey f.smallest
    let fileLimit := extractUserKey f.largest
    if userBegin.any fun b => ucmp.compare fileLimit b = .lt then
      overlapPass isLevelZero userBegin userEnd inputs files
    else if userEnd.any fun e => ucmp.compare fileStart e = .gt then
      overlapPass isLevelZero userBegin userEnd inputs files
    else if isLevelZero && userBegin.any fun b => ucmp.compare fileStart b = .lt then
      .restart (some fileStart) userEnd
    else if isLevelZero && userEnd.any fun e => ucmp.compare fileLimit e = .gt then
      .restart userBegin (some fileLimit)
    else overlapPass isLevelZero userBegin userEnd (inputs ++ [f]) files

/-- The passes of `GetOverlappingInputs`. -/
def overlapPasses (isLevelZero : Bool) (files : List TableFile) :
    Nat → Option Bytes → Option Bytes → List TableFile
  | 0, _, _ => []
  | fuel + 1, userBegin, userEnd =>
    match overlapPass ucmp isLevelZero userBegin userEnd [] files with
    | .done inputs => inputs
    | .restart userBegin userEnd => overlapPasses isLevelZero files fuel userBegin userEnd

namespace Version

variable (v : Version Bytes)

/-- `OverlapInLevel`. -/
def overlapInLevel (level : Level) (smallest largest : Option Bytes) : Bool :=
  someFileOverlapsRange ucmp (decide (0 < level.val)) (v.files level) smallest largest

/-- `GetOverlappingInputs`, of bounds that are internal keys: every bound of a file expands the
range at most once. -/
def getOverlappingInputs (level : Level) (first last : Option Bytes) : List TableFile :=
  overlapPasses ucmp (level.val = 0) (v.files level) (2 * (v.files level).length + 1)
    (first.map extractUserKey) (last.map extractUserKey)

/-- The loop of `PickLevelForMemTableOutput`. -/
def pickLevelLoop (maxFileSize : Nat) (smallest largest : Bytes) : Nat → Nat → Nat
  | 0, level => level
  | fuel + 1, level =>
    if level < kMaxMemCompactLevel then
      if v.overlapInLevel ucmp (Fin.ofNat kNumLevels (level + 1)) (some smallest)
          (some largest) then level
      else
        let start := appendInternalKey ⟨smallest, kMaxSequenceNumber, .value⟩
        let limit := appendInternalKey ⟨largest, 0, .deletion⟩
        let overlaps := v.getOverlappingInputs ucmp (Fin.ofNat kNumLevels (level + 2)) (some start)
          (some limit)
        if level + 2 < kNumLevels ∧
            maxGrandParentOverlapBytes maxFileSize < totalFileSize overlaps then level
        else pickLevelLoop maxFileSize smallest largest fuel (level + 1)
    else level

/-- `PickLevelForMemTableOutput`. -/
def pickLevelForMemTableOutput (maxFileSize : Nat) (smallest largest : Bytes) : Level :=
  if v.overlapInLevel ucmp 0 (some smallest) (some largest) then 0
  else Fin.ofNat kNumLevels
    (v.pickLevelLoop ucmp maxFileSize smallest largest kMaxMemCompactLevel 0)

end Version

end WiscKey
