import WiscKey.Table.TableFinish
import WiscKey.Table.TwoLevelIterator

/-!
# Reading a table file

A table is opened by its footer, which leads to the index block and the metaindex block. The index
leads to the data blocks; a filter, if there is one, tells which of them need not be read. A
function without a result stands for one that reads memory which is not there.
-/

namespace WiscKey

/-- `Table::Rep`, with what the table was opened with; there is no block cache. -/
structure Table where
  snappy : Snappy
  options : TableOptions
  file : Bytes
  metaindexHandle : BlockHandle
  filter : Option FilterBlockReader
  indexBlock : Block

namespace Table

section Opening

variable (snappy : Snappy) (options : TableOptions) (file : Bytes)

/-- `ReadFilter`: a filter that is not found is not missed. -/
def readFilter (filterHandleValue : Bytes) : Option (Option FilterBlockReader) :=
  match BlockHandle.decodeFrom filterHandleValue with
  | .error _ => some none
  | .ok (filterHandle, _) => do
    match ← readBlock snappy options.paranoidChecks file filterHandle with
    | .error _ => return none
    | .ok block =>
      let filter ← FilterBlockReader.new block
      return some filter

/-- `ReadMeta`, of a policy. -/
def readPolicy (policy : NamedFilterPolicy) (metaindexHandle : BlockHandle) :
    Option (Option FilterBlockReader) := do
  match ← readBlock snappy options.paranoidChecks file metaindexHandle with
  | .error _ => return none
  | .ok contents =>
    let iter := (BlockIterator.new (Block.new contents)).move bytewiseComparator
      (.seek (TableBuilder.filterKey policy))
    match iter.entry? with
    | some (key, value) =>
      if key = TableBuilder.filterKey policy then readFilter snappy options file value
      else return none
    | none => return none

/-- `ReadMeta`. -/
def readMeta (metaindexHandle : BlockHandle) : Option (Option FilterBlockReader) :=
  match options.filterPolicy with
  | some policy => readPolicy snappy options file policy metaindexHandle
  | none => some none

/-- `Open`, behind the footer. -/
def openFooter (footer : Footer) : Option (Except Status Table) := do
  match ← readBlock snappy options.paranoidChecks file footer.indexHandle with
  | .error s => return .error s
  | .ok contents =>
    let filter ← readMeta snappy options file footer.metaindexHandle
    return .ok ⟨snappy, options, file, footer.metaindexHandle, filter, Block.new contents⟩

/-- `Open`. -/
def openTable (size : Nat) : Option (Except Status Table) :=
  if size < Footer.kEncodedLength then
    some (.error (.corruption "file is too short to be an sstable"))
  else do
    let footerInput := (file.drop (size - Footer.kEncodedLength)).take Footer.kEncodedLength
    match ← Footer.decodeFrom footerInput with
    | .error s => return .error s
    | .ok footer => openFooter snappy options file footer

end Opening

variable (t : Table) (verifyChecksums : Bool)

/-- The order of the keys. -/
def cmp : Comparator := t.options.comparator.toComparator

/-- An iterator that stays in a round: the program behind it was stopped. -/
def stopped : BlockIterator := ⟨Block.new [], .back 0 ⟨0, 0, [], none, .ok⟩⟩

/-- `BlockReader`. -/
def blockReader (indexValue : Bytes) : BlockIterator :=
  match BlockHandle.decodeFrom indexValue with
  | .error s => BlockIterator.newErrorIterator s
  | .ok (handle, _) =>
    match readBlock t.snappy verifyChecksums t.file handle with
    | none => stopped
    | some (.error s) => BlockIterator.newErrorIterator s
    | some (.ok contents) => BlockIterator.new (Block.new contents)

/-- `NewIterator`. -/
def newIterator : TwoLevelIterator BlockIterator BlockIterator :=
  .new (BlockIterator.new t.indexBlock)

/-- A call of an iterator that `NewIterator` makes, whose loops take at most so many rounds. -/
def moveIterator (fuel : Nat) (it : TwoLevelIterator BlockIterator BlockIterator) (c : IterCall) :
    TwoLevelIterator BlockIterator BlockIterator :=
  (it.call (BlockIterator.iterOps t.cmp) (BlockIterator.iterOps t.cmp)
    (t.blockReader verifyChecksums) fuel c).getD it

/-- The virtual functions of these iterators. -/
def iterOps (fuel : Nat) : IterOps (TwoLevelIterator BlockIterator BlockIterator) where
  valid := TwoLevelIterator.valid (BlockIterator.iterOps t.cmp)
  key := TwoLevelIterator.key (BlockIterator.iterOps t.cmp)
  value := TwoLevelIterator.value (BlockIterator.iterOps t.cmp)
  status := TwoLevelIterator.status (BlockIterator.iterOps t.cmp) (BlockIterator.iterOps t.cmp)
  seekToFirst it := t.moveIterator verifyChecksums fuel it .seekToFirst
  seekToLast it := t.moveIterator verifyChecksums fuel it .seekToLast
  seek target it := t.moveIterator verifyChecksums fuel it (.seek target)
  next it := t.moveIterator verifyChecksums fuel it .next
  prev it := t.moveIterator verifyChecksums fuel it .prev

@[simp] theorem call_iterOps (fuel : Nat) (it : TwoLevelIterator BlockIterator BlockIterator)
    (c : IterCall) :
    (t.iterOps verifyChecksums fuel).call it c = t.moveIterator verifyChecksums fuel it c := by
  cases c <;> rfl

/-- Whether the filter says that a key is not in the block of a handle. -/
def filteredOut (wide : Nat) (handleValue k : Bytes) : Option Bool :=
  match t.filter, t.options.filterPolicy, BlockHandle.decodeFrom handleValue with
  | some filter, some policy, .ok (handle, _) => do
    let may ← filter.keyMayMatch policy.toFilterPolicy wide handle.offset k
    return !may
  | _, _, _ => some false

/-- `InternalGet`: the entry that is handed to `saver`, if there is one, and the status. -/
def internalGet (wide : Nat) (k : Bytes) : Option (Option (Bytes × Bytes) × Status) :=
  let iiter := (BlockIterator.new t.indexBlock).move t.cmp (.seek k)
  match iiter.entry? with
  | none => some (none, iiter.machine.status)
  | some (_, handleValue) => do
    if ← t.filteredOut wide handleValue k then return (none, iiter.machine.status)
    else
      let blockIter := (t.blockReader verifyChecksums handleValue).move t.cmp (.seek k)
      let s := blockIter.machine.status
      return ( blockIter.entry?, if s = .ok then iiter.machine.status else s)

/-- `ApproximateOffsetOf`. -/
def approximateOffsetOf (key : Bytes) : Nat :=
  let indexIter := (BlockIterator.new t.indexBlock).move t.cmp (.seek key)
  match indexIter.entry? with
  | some (_, value) =>
    match BlockHandle.decodeFrom value with
    | .ok (handle, _) => handle.offset
    | .error _ => t.metaindexHandle.offset
  | none => t.metaindexHandle.offset

end Table

end WiscKey
