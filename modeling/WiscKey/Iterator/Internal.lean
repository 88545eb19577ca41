import WiscKey.Core.Separator
import WiscKey.Engine.Database
import WiscKey.Library.Cursor
import WiscKey.Table.Merger
import WiscKey.Table.TwoLevelIterator
import WiscKey.Version.OverlapScan

/-!
# The internal iterator

`NewInternalIterator` merges the iterators of the memtables, of the tables of level 0, and one for
each deeper level that goes through its tables. An iterator of a level is a two-level iterator over
the list of its files, which opens a table when it gets there.
-/

namespace WiscKey

/-- An entry as an iterator shows it. -/
def TableEntry.row (e : TableEntry) : Bytes × Bytes := (e.key, e.value)

/-- `Version::LevelFileNumIterator`. -/
structure LevelFileNumIterator where
  flist : List TableFile
  index : Nat

namespace LevelFileNumIterator

/-- The constructor, which marks the iterator as invalid. -/
def new (flist : List TableFile) : LevelFileNumIterator := ⟨flist, flist.length⟩

/-- The number and the size of a file, as `value` encodes them. -/
def fileValue (f : TableFile) : Bytes := encodeFixed64 f.number ++ encodeFixed64 f.fileSize

/-- The virtual functions. -/
def iterOps (ucmp : Comparator) : IterOps LevelFileNumIterator where
  valid it := decide (it.index < it.flist.length)
  key it := (it.flist[it.index]?.map FileMetaData.largest).getD []
  value it := (it.flist[it.index]?.map fileValue).getD []
  status _ := .ok
  seekToFirst it := { it with index := 0 }
  seekToLast it := { it with index := if it.flist = [] then 0 else it.flist.length - 1 }
  seek target it := { it with index := findFile ucmp it.flist target }
  next it := { it with index := it.index + 1 }
  prev it := { it with index := if it.index = 0 then it.flist.length else it.index - 1 }

end LevelFileNumIterator

/-- The iterator of a memtable or of a table; where a table cannot be opened, an error iterator. -/
structure TableIter where
  error : Status
  rows : List (Bytes × Bytes)
  cursor : Cursor (Bytes × Bytes)

namespace TableIter

/-- `MemTableIterator`. -/
def memTable (entries : List TableEntry) : TableIter := ⟨.ok, entries.map TableEntry.row, .invalid⟩

/-- `NewErrorIterator`. -/
def newErrorIterator (s : Status) : TableIter := ⟨s, [], .invalid⟩

/-- `TableCache::NewIterator`. -/
def newIterator (tables : Tables) (fileNumber : Nat) : TableIter :=
  if (tables fileNumber).1 ≠ .ok then newErrorIterator (tables fileNumber).1
  else ⟨.ok, (tables fileNumber).2.map TableEntry.row, .invalid⟩

/-- `GetFileIterator`. -/
def getFileIterator (tables : Tables) (fileValue : Bytes) : TableIter :=
  if fileValue.length ≠ 16 then
    newErrorIterator (.corruption "FileReader invoked with unexpected value")
  else newIterator tables (decodeFixed64 fileValue)

/-- A call that moves the iterator. -/
def move (cmp : Comparator) (it : TableIter) (call : IterCall) : TableIter :=
  { it with cursor := it.cursor.call cmp it.rows call }

/-- The virtual functions. -/
def iterOps (cmp : Comparator) : IterOps TableIter where
  valid it := it.cursor.current?.isSome
  key it := (it.cursor.current?.map Prod.fst).getD []
  value it := (it.cursor.current?.map Prod.snd).getD []
  status it := it.error
  seekToFirst it := it.move cmp .seekToFirst
  seekToLast it := it.move cmp .seekToLast
  seek target it := it.move cmp (.seek target)
  next it := it.move cmp .next
  prev it := it.move cmp .prev

end TableIter

/-- An iterator that `NewConcatenatingIterator` makes. -/
abbrev LevelIter := TwoLevelIterator LevelFileNumIterator TableIter

namespace LevelIter

variable (ucmp : Comparator) (tables : Tables) (fuel : Nat)

/-- A call, whose loops take at most so many rounds. -/
def move (t : LevelIter) (call : IterCall) : LevelIter :=
  (t.call (LevelFileNumIterator.iterOps ucmp) (TableIter.iterOps ucmp.internal)
    (TableIter.getFileIterator tables) fuel call).getD t

/-- The virtual functions. -/
def iterOps : IterOps LevelIter where
  valid := TwoLevelIterator.valid (TableIter.iterOps ucmp.internal)
  key := TwoLevelIterator.key (TableIter.iterOps ucmp.internal)
  value := TwoLevelIterator.value (TableIter.iterOps ucmp.internal)
  status := TwoLevelIterator.status (LevelFileNumIterator.iterOps ucmp)
    (TableIter.iterOps ucmp.internal)
  seekToFirst t := move ucmp tables fuel t .seekToFirst
  seekToLast t := move ucmp tables fuel t .seekToLast
  seek target t := move ucmp tables fuel t (.seek target)
  next t := move ucmp tables fuel t .next
  prev t := move ucmp tables fuel t .prev

end LevelIter

/-- A child of the internal iterator. -/
abbrev InternalChild := TableIter ⊕ LevelIter

namespace IterOps

/-- Iterators of two types together. -/
def sum {σ τ : Type} (ops : IterOps σ) (ops' : IterOps τ) : IterOps (σ ⊕ τ) where
  valid := Sum.elim ops.valid ops'.valid
  key := Sum.elim ops.key ops'.key
  value := Sum.elim ops.value ops'.value
  status := Sum.elim ops.status ops'.status
  seekToFirst := Sum.map ops.seekToFirst ops'.seekToFirst
  seekToLast := Sum.map ops.seekToLast ops'.seekToLast
  seek target := Sum.map (ops.seek target) (ops'.seek target)
  next := Sum.map ops.next ops'.next
  prev := Sum.map ops.prev ops'.prev

end IterOps

/-- The levels above level 0 with files. -/
def Version.deepLevels (v : Version Bytes) : List Level :=
  (List.finRange kNumLevels).filter fun level => 1 ≤ level.val ∧ v.files level ≠ []

namespace Version

variable (v : Version Bytes) (tables : Tables)

/-- `NewConcatenatingIterator`. -/
def newConcatenatingIterator (level : Level) : LevelIter :=
  .new (.new (v.files level))

/-- `AddIterators`. -/
def addIterators : List InternalChild :=
  (v.files 0).map (fun f => .inl (TableIter.newIterator tables f.number)) ++
    v.deepLevels.map fun level => .inr (v.newConcatenatingIterator level)

end Version

namespace ReadState

variable (db : ReadState)

/-- The children of the internal iterator. -/
def children : List InternalChild :=
  .inl (TableIter.memTable db.mem) :: db.imm.toList.map (fun imm => .inl (TableIter.memTable imm)) ++
    db.current.addIterators db.tables

/-- `NewInternalIterator`. -/
def newInternalIterator : MergedIter InternalChild := MergedIter.new db.children

/-- The virtual functions of the children. A loop that skips tables of a level looks at each of them
once at most. -/
def childOps (ucmp : Comparator) : IterOps InternalChild :=
  (TableIter.iterOps ucmp.internal).sum (LevelIter.iterOps ucmp db.tables
    (((List.finRange kNumLevels).map fun level => (db.current.files level).length).sum + 1))

/-- The virtual functions of the internal iterator. -/
def iterOps (ucmp : Comparator) : IterOps (MergedIter InternalChild) :=
  MergedIter.iterOps ucmp.internal (db.childOps ucmp)

/-- The entries of the children. -/
def sources : List (List TableEntry) :=
  db.mem :: db.imm.toList ++ ((db.current.files 0).map (fun f => (db.tables f.number).2) ++
    db.current.deepLevels.map fun level =>
      (db.current.files level).flatMap fun f => (db.tables f.number).2)

/-- All entries in order. -/
def entries (ucmp : Comparator) : List TableEntry := sortedUnion (compareKeys ucmp) db.sources

end ReadState

section Children

variable {ucmp : Comparator} {tables : Tables} {files : List TableFile} {σ τ : Type}
  {ops : IterOps σ} {ops' : IterOps τ} {cmp : Comparator} {rows : List (Bytes × Bytes)}
  {c : Cursor (Bytes × Bytes)}

theorem TableIter.follows (s : Status) (c : Cursor (Bytes × Bytes)) :
    (TableIter.iterOps cmp).Follows cmp rows ⟨s, rows, c⟩ c := by
  refine IterOps.follows_of_relation (R := fun it c => it = ⟨s, rows, c⟩) ?_ ?_ rfl
  · rintro _ c rfl
    cases h : c.current? <;> simp [IterOps.shown?, TableIter.iterOps, h]
  · rintro _ c call rfl -
    cases call <;> rfl

/-- A table that can be opened is read in order. -/
theorem TableIter.at_newIterator {number : Nat} (hok : (tables number).1 = .ok) :
    (TableIter.iterOps cmp).At cmp ((tables number).2.map TableEntry.row)
      (TableIter.newIterator tables number) none := by
  rw [TableIter.newIterator, if_neg (not_not_intro hok)]
  exact ⟨.invalid, TableIter.follows .ok .invalid, trivial, rfl⟩

theorem IterOps.Follows.inl {s : σ} (h : ops.Follows cmp rows s c) :
    (ops.sum ops').Follows cmp rows (.inl s) c := by
  refine IterOps.follows_of_relation
    (R := fun t c => ∃ s, t = .inl s ∧ ops.Follows cmp rows s c) ?_ ?_ ⟨s, rfl, h⟩
  · rintro _ c ⟨s, rfl, hs⟩
    exact hs.shown?
  · rintro _ c call ⟨s, rfl, hs⟩ hallowed
    refine ⟨ops.call s call, by cases call <;> rfl, hs.call call ?_⟩
    cases call <;> exact hallowed

theorem IterOps.Follows.inr {s : τ} (h : ops'.Follows cmp rows s c) :
    (ops.sum ops').Follows cmp rows (.inr s) c := by
  refine IterOps.follows_of_relation
    (R := fun t c => ∃ s, t = .inr s ∧ ops'.Follows cmp rows s c) ?_ ?_ ⟨s, rfl, h⟩
  · rintro _ c ⟨s, rfl, hs⟩
    exact hs.shown?
  · rintro _ c call ⟨s, rfl, hs⟩ hallowed
    refine ⟨ops'.call s call, by cases call <;> rfl, hs.call call ?_⟩
    cases call <;> exact hallowed

/-- The entries of the index of a level. -/
def levelIndex (files : List TableFile) : List (Bytes × Bytes) :=
  files.map fun f => (f.largest, LevelFileNumIterator.fileValue f)

theorem LevelFileNumIterator.shown? (it : LevelFileNumIterator) :
    (iterOps ucmp).shown? it = (levelIndex it.flist)[it.index]? := by
  rw [IterOps.shown?, levelIndex, List.getElem?_map]
  by_cases hlt : it.index < it.flist.length
  · simp [iterOps, hlt]
  · simp [iterOps, hlt]

/-- The iterator over the files of a sorted level is a cursor over its index. -/
theorem LevelFileNumIterator.follows (h : SortedLevel ucmp files) (i : Nat) :
    (iterOps ucmp).Follows ucmp.internal (levelIndex files) ⟨files, i⟩
      (.atIndex (levelIndex files) i) := by
  refine IterOps.follows_of_relation (R := fun it c => it.flist = files ∧
    c = .atIndex (levelIndex files) it.index) ?_ ?_ ⟨rfl, rfl⟩
  · rintro it c ⟨rfl, rfl⟩
    rw [LevelFileNumIterator.shown?, Cursor.current?_atIndex]
  · rintro it c call ⟨rfl, rfl⟩ hallowed
    refine ⟨by cases call <;> rfl, ?_⟩
    have hlength : (levelIndex it.flist).length = it.flist.length := List.length_map _
    cases call with
    | seekToFirst => exact Cursor.first_eq_atIndex _
    | seekToLast =>
      refine (Cursor.last_eq_atIndex _).trans (congrArg _ ?_)
      rw [hlength]
      simp only [IterOps.call, iterOps]
      split
      · rename_i hnil
        rw [hnil]
        rfl
      · rfl
    | seek target =>
      refine (Cursor.seek_eq_atIndex _ _).trans (congrArg _ ?_)
      rw [levelIndex, List.findIdx_map]
      exact (findFile_between h target).eq_findIdx.symm
    | next => exact Cursor.next_atIndex
    | prev =>
      have hlt : it.index < it.flist.length := of_decide_eq_true hallowed
      simp only [Cursor.call, IterOps.call, iterOps]
      split
      · rename_i hzero
        rw [hzero, Cursor.prev_atIndex_zero, Cursor.atIndex_of_le hlength.le]
      · rename_i hne
        obtain ⟨j, hj⟩ := Nat.exists_eq_succ_of_ne_zero hne
        rw [hj, Nat.succ_sub_one]
        exact Cursor.prev_atIndex_succ (by rw [hlength]; omega)

end Children

end WiscKey
