import WiscKey.Table.BlockBuilder
import WiscKey.Table.FilterBlock
import WiscKey.Table.Format

/-!
# Building a table file

Keys are added to a data block, which is written when it is large enough. Its index entry waits for
the key behind it. Behind the data blocks there are the filter block, the metaindex block, the index
block and the footer. A function without a result stands for one whose assertion fails.
-/

namespace WiscKey

/-- `Comparator`, with the functions that shorten keys and what their comments promise; what they
make is not longer than what they get. -/
structure TableComparator extends Comparator where
  findShortestSeparator : Bytes → Bytes → Bytes
  findShortSuccessor : Bytes → Bytes
  separator_ge : ∀ start limit, compare start limit = .lt →
    compare start (findShortestSeparator start limit) ≠ .gt
  separator_lt : ∀ start limit, compare start limit = .lt →
    compare (findShortestSeparator start limit) limit = .lt
  successor_ge : ∀ key, compare key (findShortSuccessor key) ≠ .gt
  length_separator : ∀ start limit, (findShortestSeparator start limit).length ≤ start.length
  length_successor : ∀ key, (findShortSuccessor key).length ≤ key.length

/-- `FilterPolicy` with its name, whose length leaves room in a slice. -/
structure NamedFilterPolicy extends FilterPolicy where
  name : Bytes
  length_name : name.length < 2 ^ 31

/-- The options that a table depends on. -/
structure TableOptions where
  comparator : TableComparator
  paranoidChecks : Bool
  blockSize : Nat
  blockRestartInterval : Nat
  compression : CompressionType
  filterPolicy : Option NamedFilterPolicy

/-- A call of a file that fails, and how much of its data is in the file nevertheless. -/
structure WriteFault where
  status : Status
  written : Nat
  failed : status ≠ .ok

/-- `WritableFile`: what is in the file, and which of the next calls fail. -/
structure WritableFile where
  contents : Bytes
  faults : List (Option WriteFault)

namespace WritableFile

/-- `Append`. -/
def append (f : WritableFile) (data : Bytes) : WritableFile × Status :=
  match f.faults with
  | [] => (⟨f.contents ++ data, []⟩, .ok)
  | none :: faults => (⟨f.contents ++ data, faults⟩, .ok)
  | some fault :: faults => (⟨f.contents ++ data.take fault.written, faults⟩, fault.status)

/-- `Flush`, `Sync` and `Close`, which put nothing new into the file. -/
def flush (f : WritableFile) : WritableFile × Status := f.append []

end WritableFile

namespace BlockBuilder

/-- `CurrentSizeEstimate`. -/
def currentSizeEstimate (b : BlockBuilder) : Nat := b.buffer.length + b.restarts.length * 4 + 4

/-- `empty`. -/
def empty (b : BlockBuilder) : Bool := b.buffer.isEmpty

end BlockBuilder

/-- `TableBuilder::Rep`. -/
structure TableBuilder where
  options : TableOptions
  file : WritableFile
  offset : Nat
  status : Status
  dataBlock : BlockBuilder
  indexBlock : BlockBuilder
  lastKey : Bytes
  numEntries : Nat
  closed : Bool
  filterBlock : Option FilterBlockBuilder
  pendingIndexEntry : Bool
  pendingHandle : BlockHandle

namespace TableBuilder

/-- The block restart interval of the index block. -/
def indexRestartInterval : Nat := 1

/-- A call of the filter block with its policy, if there is one. -/
def onFilterBlock (f : FilterPolicy → FilterBlockBuilder → Option FilterBlockBuilder)
    (t : TableBuilder) : Option TableBuilder :=
  match t.filterBlock with
  | none => some t
  | some filterBlock => do
    let policy ← t.options.filterPolicy
    let filterBlock ← f policy.toFilterPolicy filterBlock
    return { t with filterBlock := some filterBlock }

/-- The constructor; a block builder asserts its restart interval. -/
def new (options : TableOptions) (file : WritableFile) : Option TableBuilder :=
  if options.blockRestartInterval < 1 then none
  else
    onFilterBlock (fun policy filterBlock => filterBlock.startBlock policy 0)
      { options := options
        file := file
        offset := 0
        status := .ok
        dataBlock := .init
        indexBlock := .init
        lastKey := []
        numEntries := 0
        closed := false
        filterBlock := options.filterPolicy.map fun _ => .init
        pendingIndexEntry := false
        pendingHandle := .unset }

/-- `ok`. -/
def ok (t : TableBuilder) : Bool := t.status = .ok

/-- `WriteRawBlock`, with the handle that it sets. -/
def writeRawBlock (t : TableBuilder) (contents : Bytes) (type : CompressionType) :
    TableBuilder × BlockHandle :=
  let handle : BlockHandle := ⟨t.offset, contents.length⟩
  let (file, status) := t.file.append contents
  if status = .ok then
    let (file, status) := file.append (blockTrailer contents type)
    let offset := if status = .ok then (t.offset + (contents.length + kBlockTrailerSize)) % 2 ^ 64
      else t.offset
    ({ t with file := file, status := status, offset := offset }, handle)
  else ({ t with file := file, status := status }, handle)

/-- What is stored for a block, and how: the compressed form has to save an eighth. -/
def storedBlock (snappy : Snappy) (compression : CompressionType) (raw : Bytes) :
    Bytes × CompressionType :=
  match compression with
  | .noCompression => (raw, .noCompression)
  | .snappyCompression =>
    match snappy.compress raw with
    | some compressed =>
      if compressed.length < raw.length - raw.length / 8 then (compressed, .snappyCompression)
      else (raw, .noCompression)
    | none => (raw, .noCompression)

variable (snappy : Snappy)

/-- `WriteBlock`; the caller resets the block. -/
def writeBlock (t : TableBuilder) (block : BlockBuilder) : TableBuilder × BlockHandle :=
  let (contents, type) := storedBlock snappy t.options.compression block.finish
  t.writeRawBlock contents type

/-- `Flush` behind its checks. -/
def flushBlock (t : TableBuilder) : Option TableBuilder :=
  let (t, handle) := t.writeBlock snappy t.dataBlock
  let t := { t with dataBlock := .init, pendingHandle := handle }
  let t :=
    if t.ok then
      let (file, status) := t.file.flush
      { t with pendingIndexEntry := true, file := file, status := status }
    else t
  t.onFilterBlock fun policy filterBlock => filterBlock.startBlock policy t.offset

/-- `Flush`. -/
def flush (t : TableBuilder) : Option TableBuilder :=
  if t.closed then none
  else if ¬ t.ok then some t
  else if t.dataBlock.empty then some t
  else if t.pendingIndexEntry then none
  else t.flushBlock snappy

/-- The index entry of the last block is added under a key, which becomes the last key. -/
def addIndexEntry (t : TableBuilder) (key : Bytes) : Option TableBuilder := do
  let handleEncoding ← t.pendingHandle.encodeTo
  let indexBlock ← t.indexBlock.add t.options.comparator.toComparator indexRestartInterval key
    handleEncoding
  return { t with lastKey := key, indexBlock := indexBlock, pendingIndexEntry := false }

/-- What `Add` does first, if an index entry waits for its key. -/
def indexBefore (t : TableBuilder) (key : Bytes) : Option TableBuilder :=
  if t.pendingIndexEntry then
    if t.dataBlock.empty then
      t.addIndexEntry (t.options.comparator.findShortestSeparator t.lastKey key)
    else none
  else some t

/-- `Add` behind its checks. -/
def addEntry (t : TableBuilder) (key value : Bytes) : Option TableBuilder := do
  let t ← t.indexBefore key
  let t ← t.onFilterBlock fun _ filterBlock => some (filterBlock.addKey key)
  let dataBlock ← t.dataBlock.add t.options.comparator.toComparator t.options.blockRestartInterval
    key value
  let t := { t with lastKey := key, numEntries := t.numEntries + 1, dataBlock := dataBlock }
  if t.options.blockSize ≤ t.dataBlock.currentSizeEstimate then t.flush snappy else some t

/-- `Add`. -/
def add (t : TableBuilder) (key value : Bytes) : Option TableBuilder :=
  if t.closed then none
  else if ¬ t.ok then some t
  else if 0 < t.numEntries ∧ t.options.comparator.compare key t.lastKey ≠ .gt then none
  else t.addEntry snappy key value

/-- The filter block that `Finish` writes, with its handle if there is one. -/
def finishFilter (t : TableBuilder) : Option (TableBuilder × BlockHandle) :=
  match t.filterBlock with
  | some filterBlock =>
    if t.ok then do
      let policy ← t.options.filterPolicy
      return t.writeRawBlock (filterBlock.finish policy.toFilterPolicy) .noCompression
    else some (t, .unset)
  | none => some (t, .unset)

/-- The key of the filter block in the metaindex block. -/
def filterKey (policy : NamedFilterPolicy) : Bytes :=
  ascii ['f', 'i', 'l', 't', 'e', 'r', '.'] ++ policy.name

/-- The metaindex block. -/
def metaindexBlock (t : TableBuilder) (filterHandle : BlockHandle) : Option BlockBuilder :=
  match t.filterBlock with
  | some _ => do
    let policy ← t.options.filterPolicy
    let handleEncoding ← filterHandle.encodeTo
    BlockBuilder.init.add t.options.comparator.toComparator t.options.blockRestartInterval
      (filterKey policy) handleEncoding
  | none => some .init

/-- The metaindex block that `Finish` writes. -/
def finishMetaindex (t : TableBuilder) (filterHandle : BlockHandle) :
    Option (TableBuilder × BlockHandle) :=
  if t.ok then do
    let block ← t.metaindexBlock filterHandle
    return t.writeBlock snappy block
  else some (t, .unset)

/-- What `Finish` does in front of the index block, if an index entry waits. -/
def indexAfter (t : TableBuilder) : Option TableBuilder :=
  if t.pendingIndexEntry then t.addIndexEntry (t.options.comparator.findShortSuccessor t.lastKey)
  else some t

/-- The index block that `Finish` writes. -/
def finishIndex (t : TableBuilder) : Option (TableBuilder × BlockHandle) :=
  if t.ok then do
    let t ← t.indexAfter
    return t.writeBlock snappy t.indexBlock
  else some (t, .unset)

/-- The footer that `Finish` writes. -/
def finishFooter (t : TableBuilder) (metaindexHandle indexHandle : BlockHandle) :
    Option TableBuilder :=
  if t.ok then do
    let footerEncoding ← Footer.encodeTo ⟨metaindexHandle, indexHandle⟩
    let (file, status) := t.file.append footerEncoding
    let offset := if status = .ok then (t.offset + footerEncoding.length) % 2 ^ 64 else t.offset
    return { t with file := file, status := status, offset := offset }
  else some t

/-- `Finish`. -/
def finish (t : TableBuilder) : Option TableBuilder := do
  let t ← t.flush snappy
  let (t, filterHandle) ← { t with closed := true }.finishFilter
  let (t, metaindexHandle) ← t.finishMetaindex snappy filterHandle
  let (t, indexHandle) ← t.finishIndex snappy
  t.finishFooter metaindexHandle indexHandle

/-- `Abandon`. -/
def abandon (t : TableBuilder) : Option TableBuilder :=
  if t.closed then none else some { t with closed := true }

/-- `NumEntries` and `FileSize` are the fields. All entries are added to a new table. -/
def addAll (t : TableBuilder) (entries : List (Bytes × Bytes)) : Option TableBuilder :=
  entries.foldlM (fun t e => t.add snappy e.1 e.2) t

/-- The table of some entries. -/
def build (options : TableOptions) (file : WritableFile) (entries : List (Bytes × Bytes)) :
    Option TableBuilder := do
  let t ← new options file
  let t ← t.addAll snappy entries
  t.finish snappy

end TableBuilder

end WiscKey
