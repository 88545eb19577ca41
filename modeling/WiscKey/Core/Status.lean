import WiscKey.Core.Coding

/-!
# Status and value types

The result of an operation, and the two kinds of entry that a key can have.
-/

namespace WiscKey

/-- `Status`, with the texts of its messages. -/
inductive Status
  | ok
  | notFound (msg : String)
  | corruption (msg : String)
  | notSupported (msg : String)
  | invalidArgument (msg : String)
  | ioError (msg : String)
  deriving DecidableEq, Repr

/-- `ValueType`: `kTypeDeletion` and `kTypeValue`. -/
inductive ValueType
  | deletion
  | value
  deriving DecidableEq, Repr

/-- The byte that encodes a value type. -/
def ValueType.code : ValueType → Nat
  | .deletion => 0
  | .value => 1

/-- `kMaxSequenceNumber`: eight bits are left for the type. -/
def kMaxSequenceNumber : Nat := (1 <<< 56) - 1

/-- The value of an `int` with these 32 bits. -/
def toInt32 (n : Nat) : Int := if n % 2 ^ 32 < 2 ^ 31 then n % 2 ^ 32 else n % 2 ^ 32 - 2 ^ 32

/-- The 64 bits of an integer. -/
def toUint64 (i : Int) : Nat := (i % 2 ^ 64).toNat

/-!
## The environment

The files of a directory and their contents. A file is in one place of the list at most;
every operation succeeds, as on a disk with room.
-/

/-- Names of files, with their contents. -/
abbrev Disk := List (Bytes × Bytes)

namespace Disk

variable (d : Disk) (fname other contents : Bytes)

/-- `ReadFileToString`, or none where there is no such file. -/
def read : Option Bytes := d.lookup fname

/-- `DeleteFile`. -/
def deleteFile : Disk := d.filter fun entry => entry.1 != fname

/-- The file becomes these contents: `NewWritableFile` and appends. -/
def write : Disk := (fname, contents) :: d.deleteFile fname

/-- `RenameFile`. -/
def renameFile (src target : Bytes) : Disk :=
  match d.read src with
  | some contents => (d.deleteFile src).write target contents
  | none => d

@[simp] theorem read_nil : read [] fname = none := rfl

@[simp] theorem read_deleteFile_self : (d.deleteFile fname).read fname = none := by
  rw [read, List.lookup_eq_none_iff]
  intro entry hentry
  have hne : entry.1 ≠ fname := by simpa using (List.mem_filter.mp hentry).2
  simpa using hne.symm

theorem read_deleteFile_of_ne {fname other : Bytes} (h : other ≠ fname) :
    (d.deleteFile fname).read other = d.read other := by
  induction d with
  | nil => rfl
  | cons entry rest ih =>
    obtain ⟨name, contents⟩ := entry
    by_cases hname : name = fname
    · subst hname
      have hskip : deleteFile ((name, contents) :: rest) name = deleteFile rest name := by
        simp [deleteFile]
      have hne : (other == name) = false := by simpa using h
      rw [hskip, ih, read, read, List.lookup_cons, hne]
    · have hkeep : deleteFile ((name, contents) :: rest) fname =
          (name, contents) :: deleteFile rest fname := by
        simp [deleteFile, hname]
      rw [hkeep, read, List.lookup_cons, read, List.lookup_cons]
      cases other == name with
      | true => rfl
      | false => exact ih

@[simp] theorem read_write_self : (d.write fname contents).read fname = some contents := by
  rw [read, write, List.lookup_cons]
  simp

theorem read_write_of_ne {fname other : Bytes} (h : other ≠ fname) :
    (d.write fname contents).read other = d.read other := by
  rw [read, write, List.lookup_cons]
  have hne : (other == fname) = false := by simpa using h
  rw [hne]
  exact d.read_deleteFile_of_ne h

theorem read_renameFile_of_ne {src target other : Bytes} (hsrc : other ≠ src)
    (htarget : other ≠ target) : (d.renameFile src target).read other = d.read other := by
  unfold renameFile
  split
  · rw [read_write_of_ne _ _ htarget, read_deleteFile_of_ne _ hsrc]
  · rfl

/-- A file that was renamed is no longer there. -/
theorem read_renameFile_self {src target : Bytes} (h : src ≠ target) :
    (d.renameFile src target).read src = none := by
  unfold renameFile
  split
  · rw [read_write_of_ne _ _ h, read_deleteFile_self]
  · assumption

theorem read_renameFile_target {src target : Bytes} (h : d.read src = some contents) :
    (d.renameFile src target).read target = some contents := by
  unfold renameFile
  rw [h]
  exact read_write_self ..

end Disk

end WiscKey
