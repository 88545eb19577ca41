import WiscKey.Write.WriteBatch
import WiscKey.Library.Runs
import Mathlib.Logic.Function.Basic

/-!
# Group commit

`DBImpl::Write` by any number of threads. A call puts its writer at the end of the queue and
waits until it is done or at the front. The front writer makes room, joins batches of writers
behind it, logs and inserts them without the lock, and then pops and wakes the group.

Each action is a part of a call that runs under the lock, or one of the leader's operations
outside of it. The statuses of `MakeRoomForWrite`, `AddRecord` and `Sync` are arbitrary.
-/

namespace WiscKey

/-- A call of `Write`: its batch, null for compactions, and its sync flag. -/
structure WriteCall where
  batch : Option { b : WriteBatch // b.Built }
  sync : Bool

/-- `DBImpl::Writer`, on the stack of its call. -/
structure Writer where
  batch : Option WriteBatch
  sync : Bool
  done : Bool
  status : Status

/-- The variables of a leader while it commits: its last writer, whether `updates` is
`tmp_batch_`, the last sequence behind the group, and the status. -/
structure Commit (ι : Type) where
  lastWriter : ι
  usesTmp : Bool
  lastSequence : Nat
  status : Status
  syncError : Bool

/-- Where a call is. A waiting writer has been signalled or not. -/
inductive WritePc (ι : Type)
  | notCalled
  | waiting (signalled : Bool)
  | makingRoom
  | logging (c : Commit ι)
  | syncing (c : Commit ι)
  | inserting (c : Commit ι)
  | relocking (c : Commit ι)
  | returned (status : Status)

/-- A signal wakes a waiting writer. -/
def WritePc.signalled {ι : Type} : WritePc ι → WritePc ι
  | .waiting _ => .waiting true
  | pc => pc

/-- The writers that a leader popped together, in queue order, and the status they got. -/
structure Group (ι : Type) where
  members : List ι
  status : Status

/-- The part of `DBImpl` that `Write` uses, the calls, and the groups so far. -/
structure WriteState (ι : Type) where
  writers : List ι
  writer : ι → Writer
  pc : ι → WritePc ι
  tmpBatch : WriteBatch
  lastSequence : Nat
  bgError : Status
  log : List Bytes
  mem : List MemEntry
  /-- The calls in the order of their arrival. -/
  arrivals : List ι
  groups : List (Group ι)

/-- What a thread does next. -/
inductive WriteAction (ι : Type)
  | call (i : ι)
  | wake (i : ι)
  | spuriousWake (i : ι)
  | roomMade (i : ι) (status : Status)
  | addRecord (i : ι) (status : Status)
  | syncLog (i : ι) (status : Status)
  | insert (i : ι)
  | relock (i : ι)

variable {ι : Type} [DecidableEq ι]

/-- Before the first call. -/
def WriteState.initial (calls : ι → WriteCall) (lastSequence : Nat) : WriteState ι where
  writers := []
  writer i := ⟨(calls i).batch.map Subtype.val, (calls i).sync, false, .ok⟩
  pc _ := .notCalled
  tmpBatch := .clear
  lastSequence
  bgError := .ok
  log := []
  mem := []
  arrivals := []
  groups := []

namespace WriteState

def setPc (s : WriteState ι) (i : ι) (pc : WritePc ι) : WriteState ι :=
  { s with pc := Function.update s.pc i pc }

def setBatch (s : WriteState ι) (i : ι) (b : WriteBatch) : WriteState ι :=
  { s with writer := Function.update s.writer i { s.writer i with batch := some b } }

/-- The head of the loop in `Write`: a writer that is done returns, the one at the front goes
on, and any other waits. -/
def poll (s : WriteState ι) (i : ι) : WriteState ι :=
  if (s.writer i).done then s.setPc i (.returned (s.writer i).status)
  else if s.writers.head? = some i then s.setPc i .makingRoom
  else s.setPc i (.waiting false)

/-- The loop of `BuildBatchGroup` over the writers behind the first: the last writer of the
group, and `tmp_batch_` once the group has it as its batch. -/
def buildLoop (s : WriteState ι) (first : ι) (firstBatch : WriteBatch) (maxSize : Nat) :
    List ι → Nat → ι → Option WriteBatch → ι × Option WriteBatch
  | [], _, lastWriter, result => (lastWriter, result)
  | w :: rest, size, lastWriter, result =>
    if (s.writer w).sync && !(s.writer first).sync then (lastWriter, result)
    else
      match (s.writer w).batch with
      | some batch =>
        let size := size + batch.byteSize
        if maxSize < size then (lastWriter, result)
        else
          -- the first batch joined moves the leader's own into `tmp_batch_`
          let tmp := result.getD (s.tmpBatch.append firstBatch)
          buildLoop s first firstBatch maxSize rest size w (some (tmp.append batch))
      | none => buildLoop s first firstBatch maxSize rest size w result

/-- `BuildBatchGroup`, for a first writer with a batch. -/
def buildBatchGroup (s : WriteState ι) (first : ι) (firstBatch : WriteBatch) :
    ι × Option WriteBatch :=
  let size := firstBatch.byteSize
  let maxSize := if size ≤ 128 <<< 10 then size + (128 <<< 10) else 1 <<< 20
  s.buildLoop first firstBatch maxSize s.writers.tail size first none

/-- Pop the queue up to and with a last writer: the popped writers, and the rest. -/
def popGroup (lastWriter : ι) : List ι → List ι × List ι
  | [] => ([], [])
  | ready :: writers =>
    if ready = lastWriter then ([ready], writers)
    else (ready :: (popGroup lastWriter writers).1, (popGroup lastWriter writers).2)

/-- `cv.Signal` on the writer of a call. -/
def signal (s : WriteState ι) (i : ι) : WriteState ι := s.setPc i (s.pc i).signalled

/-- Hand the group's status to a popped writer and wake it. -/
def release (leader : ι) (status : Status) (s : WriteState ι) (ready : ι) : WriteState ι :=
  if ready = leader then s
  else
    let done := { s.writer ready with status, done := true }
    { s with writer := Function.update s.writer ready done }.signal ready

/-- The end of `Write`: pop and wake the group, wake the new front, return. -/
def finish (s : WriteState ι) (leader lastWriter : ι) (status : Status) : WriteState ι :=
  let (ready, rest) := popGroup lastWriter s.writers
  let popped := { s with writers := rest, groups := s.groups ++ [⟨ready, status⟩] }
  let released := ready.foldl (release leader status) popped
  let notified := match rest.head? with
    | some front => released.signal front
    | none => released
  notified.setPc leader (.returned status)

/-- The batch that a leader logs and inserts. -/
def updates (s : WriteState ι) (i : ι) (c : Commit ι) : WriteBatch :=
  if c.usesTmp then s.tmpBatch else (s.writer i).batch.getD .clear

/-- `Write` behind `MakeRoomForWrite`, up to the unlocked section. -/
def startCommit (s : WriteState ι) (i : ι) (batch : WriteBatch) : WriteState ι :=
  let (lastWriter, tmp) := s.buildBatchGroup i batch
  let updates := (tmp.getD batch).setSequence ((s.lastSequence + 1) % 2 ^ 64)
  let c : Commit ι :=
    { lastWriter
      usesTmp := tmp.isSome
      lastSequence := toUint64 (s.lastSequence + updates.count)
      status := .ok
      syncError := false }
  let s := if tmp.isSome then { s with tmpBatch := updates } else s.setBatch i updates
  s.setPc i (.logging c)

/-- One action, when it is that thread's turn. -/
def step (s : WriteState ι) : WriteAction ι → Option (WriteState ι)
  | .call i =>
    match s.pc i with
    | .notCalled =>
      some ({ s with writers := s.writers ++ [i], arrivals := s.arrivals ++ [i] }.poll i)
    | _ => none
  | .wake i =>
    match s.pc i with
    | .waiting true => some (s.poll i)
    | _ => none
  | .spuriousWake i =>
    match s.pc i with
    | .waiting _ => some (s.poll i)
    | _ => none
  | .roomMade i status =>
    match s.pc i with
    | .makingRoom =>
      if s.bgError ≠ .ok ∧ status ≠ s.bgError then none
      else
        match status, (s.writer i).batch with
        | .ok, some batch => some (s.startCommit i batch)
        | status, _ => some (s.finish i i status)
    | _ => none
  | .addRecord i status =>
    match s.pc i with
    | .logging c =>
      let logged := if status = .ok then { s with log := s.log ++ [(s.updates i c).rep] } else s
      some (logged.setPc i (.syncing { c with status }))
    | _ => none
  | .syncLog i status =>
    match s.pc i with
    | .syncing c =>
      if c.status = .ok ∧ (s.writer i).sync = true then
        some (s.setPc i (.inserting { c with status, syncError := status ≠ .ok }))
      else some (s.setPc i (.inserting c))
    | _ => none
  | .insert i =>
    match s.pc i with
    | .inserting c =>
      if c.status = .ok then
        let (status, mem) := (s.updates i c).insertInto s.mem
        some ({ s with mem }.setPc i (.relocking { c with status }))
      else some (s.setPc i (.relocking c))
    | _ => none
  | .relock i =>
    match s.pc i with
    | .relocking c =>
      let s := if c.syncError ∧ s.bgError = .ok then { s with bgError := c.status } else s
      let s := if c.usesTmp then { s with tmpBatch := .clear } else s
      some ({ s with lastSequence := c.lastSequence }.finish i c.lastWriter c.status)
    | _ => none

/-- The step relation of the writers. -/
def Steps (s : WriteState ι) (a : WriteAction ι) (s' : WriteState ι) : Prop := s.step a = some s'

end WriteState

end WiscKey
