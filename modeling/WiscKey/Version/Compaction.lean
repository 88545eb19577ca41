import WiscKey.Version.Overlap
import Mathlib.Data.List.FinRange

/-!
# Compactions

A compaction merges files of a level with those of the next level that they overlap. While its
input is read in order it keeps a place in each deeper level, to tell whether a key can still be
there, and a place among the files two levels down, to end outputs that overlap too many of them.
-/

namespace WiscKey

/-- `Compaction`. -/
structure Compaction where
  level : Level
  maxOutputFileSize : Nat
  inputVersion : Version Bytes
  edit : VersionEdit Bytes
  /-- `inputs_[0]` and `inputs_[1]`. -/
  inputs0 : List TableFile
  inputs1 : List TableFile
  grandparents : List TableFile
  grandparentIndex : Nat
  seenKey : Bool
  overlappedBytes : Nat
  levelPtrs : Level → Nat

/-- The search of `IsBaseLevelForKey` in the files of a level from the place reached: the files
that it leaves behind, and whether the next one's range has the key. -/
def scanForKey (ucmp : Comparator) (userKey : Bytes) : List TableFile → Nat × Bool
  | [] => (0, false)
  | f :: files =>
    if ucmp.compare userKey (extractUserKey f.largest) ≠ .gt then
      (0, ucmp.compare userKey (extractUserKey f.smallest) ≠ .lt)
    else
      let (n, inRange) := scanForKey ucmp userKey files
      (n + 1, inRange)

/-- The loop of `IsBaseLevelForKey` over the levels that are left. -/
def baseLevelLoop (ucmp : Comparator) (v : Version Bytes) (userKey : Bytes) :
    List Level → (Level → Nat) → Bool × (Level → Nat)
  | [], ptrs => (true, ptrs)
  | lvl :: levels, ptrs =>
    let (n, inRange) := scanForKey ucmp userKey ((v.files lvl).drop (ptrs lvl))
    let ptrs := Function.update ptrs lvl (ptrs lvl + n)
    if inRange then (false, ptrs) else baseLevelLoop ucmp v userKey levels ptrs

/-- The levels from a number on. -/
def levelsFrom (n : Nat) : List Level := (List.finRange kNumLevels).filter fun l => n ≤ l.val

/-- The loop of `ShouldStopBefore` over the grandparents that are left: how many end before the
key, and the sum of their sizes. -/
def scanGrandparents (ucmp : Comparator) (key : Bytes) : List TableFile → Nat × Nat
  | [] => (0, 0)
  | f :: files =>
    if ucmp.internalCompare key f.largest = .gt then
      let (n, bytes) := scanGrandparents ucmp key files
      (n + 1, bytes + f.fileSize)
    else (0, 0)

namespace Compaction

variable (c : Compaction)

/-- `IsBaseLevelForKey`. -/
def isBaseLevelForKey (ucmp : Comparator) (userKey : Bytes) : Bool × Compaction :=
  let (base, levelPtrs) :=
    baseLevelLoop ucmp c.inputVersion userKey (levelsFrom (c.level.val + 2)) c.levelPtrs
  (base, { c with levelPtrs })

/-- `ShouldStopBefore`. -/
def shouldStopBefore (ucmp : Comparator) (maxFileSize : Nat) (key : Bytes) : Bool × Compaction :=
  let (n, bytes) := scanGrandparents ucmp key (c.grandparents.drop c.grandparentIndex)
  let overlappedBytes := if c.seenKey then c.overlappedBytes + bytes else c.overlappedBytes
  let c := { c with grandparentIndex := c.grandparentIndex + n, seenKey := true, overlappedBytes }
  if maxGrandParentOverlapBytes maxFileSize < overlappedBytes then
    (true, { c with overlappedBytes := 0 })
  else (false, c)

/-- `IsTrivialMove`. -/
def isTrivialMove (maxFileSize : Nat) : Bool :=
  c.inputs0.length = 1 ∧ c.inputs1.length = 0 ∧
    totalFileSize c.grandparents ≤ maxGrandParentOverlapBytes maxFileSize

/-- `AddInputDeletions`. -/
def addInputDeletions (edit : VersionEdit Bytes) : VersionEdit Bytes :=
  let edit := c.inputs0.foldl (fun e f => e.deleteFile c.level f.number) edit
  c.inputs1.foldl (fun e f => e.deleteFile (Fin.ofNat kNumLevels (c.level.val + 1)) f.number) edit

end Compaction

end WiscKey
