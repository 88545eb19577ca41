import Mathlib.Data.List.AList
import WiscKey.Core.Status

/-!
# The trace of the tables

Beside the tables the engine keeps a trace for the simulated device: the table that a key was
written to last, the clusters that a table was given, and the operations to replay. Flushes and
compactions add to it, and a read adds the operation that reads its table.
-/

namespace WiscKey

/-- `AccessType_t`. -/
inductive AccessType
  | readType
  | writeType
  deriving DecidableEq, Repr

/-- `Operation`. The numbers are of type `flash_size_t`, an `int`. -/
structure Operation where
  accessType : AccessType
  startCluster : Int
  length : Int
  deriving DecidableEq, Repr

/-- A sum of two `int`s, which has no defined value when it overflows. -/
def addInt (a b : Int) : Option Int :=
  if -2 ^ 31 ≤ a + b ∧ a + b < 2 ^ 31 then some (a + b) else none

theorem addInt_eq_some {a b c : Int} :
    addInt a b = some c ↔ (-2 ^ 31 ≤ a + b ∧ a + b < 2 ^ 31) ∧ c = a + b := by
  rw [addInt, Option.ite_none_right_eq_some, Option.some.injEq, eq_comm (a := c)]

/-- The string that a `char` pointer to these bytes becomes: those before the first zero byte. -/
def cString (memory : Bytes) : Bytes := memory.takeWhile fun c => c != 0

/-- The globals of the trace. -/
structure Trace where
  keySSTableMap : AList fun _ : Bytes => Nat
  /-- The start and the length of a table's clusters. -/
  ssTableClusterMap : AList fun _ : Nat => Int × Int
  currentCluster : Int
  operations : List Operation

namespace Trace

/-- The globals of a fresh process. -/
def init : Trace := ⟨∅, ∅, 0, []⟩

/-- `KeySSTableMap[t] = number`, for one key after the other. -/
def recordKeys (tr : Trace) (texts : List Bytes) (number : Nat) : Trace :=
  { tr with keySSTableMap := texts.foldl (fun m t => m.insert t number) tr.keySSTableMap }

/-- The clusters of a table in the units of the trace: `(flash_size_t)file_size/PageSize`. -/
def clusterLength (pageSize fileSize : Nat) : Int := (toInt32 fileSize).tdiv pageSize

/-- A table is given the clusters from `CurrentCluster` on, and its operation is recorded. -/
def recordTable (pageSize : Nat) (tr : Trace) (number fileSize : Nat) : Option Trace := do
  let startCluster := tr.currentCluster
  let length := clusterLength pageSize fileSize
  let currentCluster ← addInt tr.currentCluster length
  some { tr with
    ssTableClusterMap := tr.ssTableClusterMap.insert number (startCluster, length)
    currentCluster
    operations := tr.operations ++ [⟨.writeType, startCluster, length⟩] }

/-- The end of `DBImpl::Get`: the operation that reads the table of the key, a C string with the
bytes `behind` after it. `operator[]` adds what it does not find; to use the empty vector that it
adds for a table has no defined result. -/
def recordRead (tr : Trace) (key behind : Bytes) : Option Trace :=
  let t := cString (key ++ behind)
  let ssTableNum := (tr.keySSTableMap.lookup t).getD 0
  let tr := { tr with keySSTableMap := tr.keySSTableMap.insert t ssTableNum }
  if ssTableNum = 0 then some tr
  else
    match tr.ssTableClusterMap.lookup ssTableNum with
    | none => none
    | some (startCluster, length) =>
      some { tr with operations := tr.operations ++ [⟨.readType, startCluster, length⟩] }

variable {tr tr' : Trace} {pageSize number fileSize : Nat} {key behind : Bytes}

/-- A key without a table adds no operation. -/
theorem recordRead_zero (h : (tr.keySSTableMap.lookup (cString (key ++ behind))).getD 0 = 0) :
    tr.recordRead key behind = some { tr with
      keySSTableMap := tr.keySSTableMap.insert (cString (key ++ behind)) 0 } := by
  simp only [recordRead]
  rw [h, if_pos rfl]

/-- A key with a table adds the operation that reads the table. -/
theorem recordRead_found (h : (tr.keySSTableMap.lookup (cString (key ++ behind))).getD 0 = number)
    (hne : number ≠ 0) {p : Int × Int} (hp : tr.ssTableClusterMap.lookup number = some p) :
    tr.recordRead key behind = some { tr with
      keySSTableMap := tr.keySSTableMap.insert (cString (key ++ behind)) number
      operations := tr.operations ++ [⟨.readType, p.1, p.2⟩] } := by
  simp only [recordRead]
  rw [h, if_neg hne, hp]

@[simp] theorem recordKeys_operations (texts : List Bytes) :
    (tr.recordKeys texts number).operations = tr.operations := rfl

@[simp] theorem recordKeys_currentCluster (texts : List Bytes) :
    (tr.recordKeys texts number).currentCluster = tr.currentCluster := rfl

@[simp] theorem recordKeys_ssTableClusterMap (texts : List Bytes) :
    (tr.recordKeys texts number).ssTableClusterMap = tr.ssTableClusterMap := rfl

/-- The keys recorded for a table are its keys, and the others stay. -/
theorem lookup_recordKeys (texts : List Bytes) (t : Bytes) :
    (tr.recordKeys texts number).keySSTableMap.lookup t =
      if t ∈ texts then some number else tr.keySSTableMap.lookup t := by
  unfold recordKeys
  generalize tr.keySSTableMap = m
  induction texts generalizing m with
  | nil => rfl
  | cons text texts ih =>
    rw [List.foldl_cons]
    refine (ih (m.insert text number)).trans ?_
    rcases eq_or_ne t text with rfl | hne
    · rw [AList.lookup_insert, if_pos (List.mem_cons_self ..), ite_self]
    · rw [AList.lookup_insert_ne hne]
      simp only [List.mem_cons, hne, false_or]

/-- What recording a table does. -/
theorem recordTable_eq_some : tr.recordTable pageSize number fileSize = some tr' ↔
    addInt tr.currentCluster (clusterLength pageSize fileSize) = some tr'.currentCluster ∧
      tr' = ⟨tr.keySSTableMap, tr.ssTableClusterMap.insert number
        (tr.currentCluster, clusterLength pageSize fileSize), tr'.currentCluster,
        tr.operations ++ [⟨.writeType, tr.currentCluster, clusterLength pageSize fileSize⟩]⟩ := by
  simp only [recordTable, Option.bind_eq_bind, Option.bind_eq_some_iff, Option.some.injEq]
  constructor
  · rintro ⟨c, hc, rfl⟩
    exact ⟨hc, rfl⟩
  · rintro ⟨hc, htr⟩
    exact ⟨_, hc, htr.symm⟩

end Trace

end WiscKey
