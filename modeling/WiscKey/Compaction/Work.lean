import WiscKey.Version.Compaction
import WiscKey.Version.Get
import WiscKey.Trace.History
import WiscKey.Trace.LevelZero

/-!
# The work of a compaction

`DoCompactionWork` reads the merged input of a compaction in order, drops the entries that no
reader can see, and writes the others to output tables. Each output is recorded in the trace when
it is finished, and all of them are installed at the end. What the environment does in each round
of the loop is part of the input.
-/

namespace WiscKey

/-- `CompactionState::Output`. -/
structure Output where
  number : Nat
  fileSize : Nat
  smallest : Bytes
  largest : Bytes
  deriving DecidableEq, Repr

/-- The current output, with the entries of its builder. -/
structure OpenOutput where
  output : Output
  entries : List TableEntry
  deriving DecidableEq, Repr

/-- `CompactionState`. -/
structure CompactionState where
  compaction : Compaction
  smallestSnapshot : Nat
  keyvalues : List (Bytes × Bytes)
  /-- The outputs, without the one that has a builder, and the entries of their tables. -/
  outputs : List (Output × List TableEntry)
  builder : Option OpenOutput
  totalBytes : Nat
  /-- What was recorded in the trace. -/
  events : List TraceEvent
  /-- Whether the verification of an output has found an error. -/
  unusable : Bool

/-- The variables of the loop that follow the current user key. -/
structure KeyState where
  currentUserKey : Bytes
  hasCurrentUserKey : Bool
  lastSequenceForKey : Nat
  deriving DecidableEq, Repr

/-- The variables before the first round. -/
def KeyState.init : KeyState := ⟨[], false, kMaxSequenceNumber⟩

/-- `compact->smallest_snapshot`: the number of the oldest snapshot, or the last sequence. -/
def smallestSnapshotOf (lastSequence : Nat) (snapshots : List Nat) : Nat :=
  snapshots.head?.getD lastSequence

/-- The part of a round that decides whether an entry is dropped. -/
def dropEntry (ucmp : Comparator) (smallestSnapshot : Nat) (keys : KeyState) (c : Compaction)
    (key : Bytes) : Bool × KeyState × Compaction :=
  match parseInternalKey key with
  | none => (false, KeyState.init, c)
  | some ikey =>
    let keys :=
      if !keys.hasCurrentUserKey || ucmp.compare ikey.userKey keys.currentUserKey ≠ .eq then
        ⟨ikey.userKey, true, kMaxSequenceNumber⟩
      else keys
    let next := { keys with lastSequenceForKey := ikey.sequence }
    if keys.lastSequenceForKey ≤ smallestSnapshot then (true, next, c)
    else if ikey.type = .deletion ∧ ikey.sequence ≤ smallestSnapshot then
      let (base, c) := c.isBaseLevelForKey ucmp ikey.userKey
      (base, next, c)
    else (false, next, c)

/-- What one call of `FinishCompactionOutputFile` finds. -/
structure FinishEnv where
  inputStatus : Status
  finish : Status
  /-- `builder->FileSize()`, in the end. -/
  fileSize : Nat
  sync : Status
  close : Status
  verify : Status

/-- What an output finds that is finished without an error. -/
def goodFinish : FinishEnv := ⟨.ok, .ok, 4096, .ok, .ok, .ok⟩

/-- A flush of the immutable memtable, by `CompactMemTable`. -/
structure ImmFlush where
  mem : List MemTableEntry
  build : BuildEnv
  number : Nat

/-- What a flush records in the trace. -/
def ImmFlush.event (f : ImmFlush) : TraceEvent :=
  .table (f.mem.map MemTableEntry.keyText) f.number (buildTable f.build f.number f.mem).2.fileSize

/-- What one round of the loop finds. -/
structure RoundEnv where
  shuttingDown : Bool
  immFlush : Option ImmFlush
  stopFinish : FinishEnv
  newFileNumber : Nat
  newWritableFile : Status
  /-- `builder->FileSize()`, with the entry of the round. -/
  builderSize : Nat
  fullFinish : FinishEnv

/-- What one call of `DoCompactionWork` finds: the merged input, and its surroundings. -/
structure WorkEnv where
  rounds : List (TableEntry × RoundEnv)
  shuttingDown : Bool
  lastFinish : FinishEnv
  inputStatus : Status
  /-- The status of `LogAndApply`. -/
  install : Status

namespace CompactionState

variable (st : CompactionState)

/-- `OpenCompactionOutputFile`. -/
def openCompactionOutputFile (env : RoundEnv) : Status × CompactionState :=
  let out : Output := ⟨env.newFileNumber, 0, [], []⟩
  if env.newWritableFile = .ok then (.ok, { st with builder := some ⟨out, []⟩ })
  else (env.newWritableFile, { st with outputs := st.outputs ++ [(out, [])] })

/-- `FinishCompactionOutputFile`, of the current output. -/
def finishCompactionOutputFile (env : FinishEnv) (o : OpenOutput) : Status × CompactionState :=
  let s := ((env.inputStatus.andThen env.finish).andThen env.sync).andThen env.close
  let output := { o.output with fileSize := env.fileSize }
  let st := { st with
    outputs := st.outputs ++ [(output, o.entries)]
    builder := none
    totalBytes := st.totalBytes + env.fileSize }
  if s = .ok ∧ 0 < o.entries.length then
    (env.verify, { st with
      keyvalues := []
      events := st.events ++ [.table (st.keyvalues.map Prod.fst) output.number output.fileSize]
      unusable := st.unusable || env.verify ≠ .ok })
  else (s, st)

/-- `FinishCompactionOutputFile`, where there is a current output. -/
def finishOpenOutput (env : FinishEnv) : Status × CompactionState :=
  match st.builder with
  | none => (.ok, st)
  | some o => st.finishCompactionOutputFile env o

/-- An entry is added to the current output. -/
def addEntry (keys : KeyState) (e : TableEntry) (o : OpenOutput) : CompactionState :=
  let smallest := if o.entries.length = 0 then e.key else o.output.smallest
  { st with
    builder := some ⟨{ o.output with smallest, largest := e.key }, o.entries ++ [e]⟩
    keyvalues := st.keyvalues ++ [(keys.currentUserKey, e.value)] }

/-- The end of a round, for an entry that is kept. -/
def keepEntry (env : RoundEnv) (keys : KeyState) (e : TableEntry) : Status × CompactionState :=
  let (status, st) :=
    match st.builder with
    | some _ => (Status.ok, st)
    | none => st.openCompactionOutputFile env
  match st.builder with
  | none => (status, st)
  | some o =>
    let st := st.addEntry keys e o
    if st.compaction.maxOutputFileSize ≤ env.builderSize then st.finishOpenOutput env.fullFinish
    else (.ok, st)

/-- The beginning of a round: the immutable memtable goes first, and the current output ends
before the key if it overlaps too many grandparents. -/
def startRound (ucmp : Comparator) (maxFileSize : Nat) (env : RoundEnv) (key : Bytes) :
    Status × CompactionState :=
  let events := st.events ++ (env.immFlush.map ImmFlush.event).toList
  let (stop, compaction) := st.compaction.shouldStopBefore ucmp maxFileSize key
  let st := { st with events, compaction }
  if stop then st.finishOpenOutput env.stopFinish else (.ok, st)

/-- One round of the loop. -/
def round (ucmp : Comparator) (maxFileSize : Nat) (env : RoundEnv) (keys : KeyState)
    (e : TableEntry) : Status × KeyState × CompactionState :=
  let (status, st) := st.startRound ucmp maxFileSize env e.key
  if status = .ok then
    let (drop, keys, compaction) := dropEntry ucmp st.smallestSnapshot keys st.compaction e.key
    let st := { st with compaction }
    if drop then (.ok, keys, st)
    else
      let (status, st) := st.keepEntry env keys e
      (status, keys, st)
  else (status, keys, st)

/-- The loop, and whether it was left because the database is shut down. -/
def loop (ucmp : Comparator) (maxFileSize : Nat) :
    List (TableEntry × RoundEnv) → KeyState → CompactionState → Status × Bool × CompactionState
  | [], _, st => (.ok, false, st)
  | (e, env) :: rounds, keys, st =>
    if env.shuttingDown then (.ok, true, st)
    else
      let (status, keys, st) := st.round ucmp maxFileSize env keys e
      if status = .ok then loop ucmp maxFileSize rounds keys st else (status, false, st)

/-- The edit of `InstallCompactionResults`. -/
def installEdit : VersionEdit Bytes :=
  st.outputs.foldl
    (fun edit o => edit.addFile (Fin.ofNat kNumLevels (st.compaction.level.val + 1))
      ⟨o.1.number, o.1.fileSize, o.1.smallest, o.1.largest⟩)
    (st.compaction.addInputDeletions st.compaction.edit)

end CompactionState

/-- The compaction state of a new compaction. -/
def CompactionState.init (c : Compaction) (smallestSnapshot : Nat) : CompactionState :=
  ⟨c, smallestSnapshot, [], [], none, 0, [], false⟩

/-- What `DoCompactionWork` ends with. -/
structure WorkResult where
  status : Status
  state : CompactionState
  /-- The status of `InstallCompactionResults`, if it was called. -/
  install : Option Status

/-- `DoCompactionWork`. -/
def doCompactionWork (ucmp : Comparator) (maxFileSize : Nat) (env : WorkEnv) (c : Compaction)
    (smallestSnapshot : Nat) : WorkResult :=
  let (status, left, st) := CompactionState.loop ucmp maxFileSize env.rounds .init
    (.init c smallestSnapshot)
  let status :=
    -- what was set while the loop ran stays set
    if status = .ok ∧ (left ∨ env.shuttingDown) then .ioError "Deleting DB during compaction"
    else status
  let (status, st) := if status = .ok then st.finishOpenOutput env.lastFinish else (status, st)
  let status := status.andThen env.inputStatus
  if status = .ok then ⟨env.install, st, some env.install⟩ else ⟨status, st, none⟩

end WiscKey
