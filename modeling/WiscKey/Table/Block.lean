import WiscKey.Core.DbFormat

/-!
# Blocks

A block has entries, each with the length of the key prefix that it shares with the one in front,
and behind them an array of restart points, where nothing is shared. An iterator is modelled as a
machine whose steps are the rounds of the loops of `Block::Iter`. A step has no value where it
would read outside the block or where an assertion fails.
-/

namespace WiscKey

/-- `Block`: the contents, `size_`, which is 0 for contents that are refused, and the place of the
restart array. -/
structure Block where
  data : Bytes
  size : Nat
  restartOffset : Nat
  deriving DecidableEq, Repr

/-- What `DecodeEntry` finds: the three numbers in front of an entry, and where its key starts. -/
structure BlockEntry where
  shared : Nat
  nonShared : Nat
  valueLength : Nat
  keyPtr : Nat
  deriving DecidableEq, Repr

/-- `Block::Iter`. The value is a slice of the block, or the empty one that is not. -/
structure BlockIter where
  current : Nat
  restartIndex : Nat
  key : Bytes
  value : Option (Nat × Nat)
  status : Status
  deriving DecidableEq, Repr

/-- When a loop over `ParseNextKey` stops: after one round, at an entry that ends at an offset or
behind it, or at a key that is not below a target. -/
inductive Stop
  | now
  | behind (offset : Nat)
  | key (target : Bytes)
  deriving DecidableEq, Repr

/-- An iterator of a block: between two calls, or in a round of a loop. `empty` is the iterator
of `NewErrorIterator` and `NewEmptyIterator`. -/
inductive BlockMachine
  | empty (status : Status)
  | idle (it : BlockIter)
  | bisect (target : Bytes) (left right : Nat) (it : BlockIter)
  | restart (index : Nat) (stop : Stop) (it : BlockIter)
  | scan (stop : Stop) (it : BlockIter)
  | back (original : Nat) (it : BlockIter)
  deriving DecidableEq, Repr

/-- The calls of an iterator. -/
inductive BlockCall
  | seekToFirst
  | seekToLast
  | seek (target : Bytes)
  | next
  | prev
  deriving DecidableEq, Repr

namespace Block

/-- `NumRestarts`, at the end of the contents. -/
def numRestarts (data : Bytes) : Nat := decodeFixed32 (data.drop (data.length - 4))

/-- The constructor. The place of the restart array is cut to 32 bits. -/
def new (contents : Bytes) : Block :=
  if contents.length < 4 then ⟨contents, 0, 0⟩
  else if (contents.length - 4) / 4 < numRestarts contents then ⟨contents, 0, 0⟩
  else
    ⟨contents, contents.length,
      (contents.length - (1 + numRestarts contents) % 2 ^ 32 * 4) % 2 ^ 32⟩

variable (b : Block)

/-- The number of restart points. -/
def num : Nat := numRestarts b.data

/-- A read of the block. -/
def read (pos n : Nat) : Option Bytes :=
  if pos + n ≤ b.data.length then some ((b.data.drop pos).take n) else none

/-- The three numbers in front of an entry, and the bytes behind them. -/
def decodeHeader (bytes : Bytes) : Option (Nat × Nat × Nat × Bytes) :=
  match bytes with
  | shared :: nonShared :: valueLength :: rest =>
    if (shared ||| nonShared ||| valueLength) < 128 then
      some (shared.toNat, nonShared.toNat, valueLength.toNat, rest)
    else do
      let (shared, rest) ← getVarint32 bytes
      let (nonShared, rest) ← getVarint32 rest
      let (valueLength, rest) ← getVarint32 rest
      some (shared, nonShared, valueLength, rest)
  | _ => none

/-- The entry at an offset, up to the restart array, if there are such numbers in front of it. -/
def entryAt (p : Nat) : Option (Option BlockEntry) :=
  if b.restartOffset < p + 3 then some none
  else (b.read p (b.restartOffset - p)).map fun bytes =>
    (decodeHeader bytes).map fun h => ⟨h.1, h.2.1, h.2.2.1, b.restartOffset - h.2.2.2.length⟩

/-- The last check of `DecodeEntry`, in 32 bits: there is room for the key and the value. -/
def hasRoom (e : BlockEntry) : Bool :=
  (e.nonShared + e.valueLength) % 2 ^ 32 ≤ (b.restartOffset - e.keyPtr) % 2 ^ 32

/-- `DecodeEntry`. -/
def decodeEntry (p : Nat) : Option (Option BlockEntry) :=
  (b.entryAt p).map fun e => e.filter b.hasRoom

/-- `GetRestartPoint`. -/
def getRestartPoint (index : Nat) : Option Nat :=
  if index < b.num then (b.read (b.restartOffset + index * 4) 4).map decodeFixed32 else none

/-- `CorruptionError`. -/
def corruptionError : BlockIter :=
  ⟨b.restartOffset, b.num, [], none, .corruption "bad entry in block"⟩

/-- The loop at the end of `ParseNextKey`; there are fewer rounds than restart points. -/
def advanceRestart (current : Nat) : Nat → Nat → Option Nat
  | 0, index => some index
  | rounds + 1, index =>
    if index + 1 < b.num then do
      let point ← b.getRestartPoint (index + 1)
      if point < current then advanceRestart current rounds (index + 1) else some index
    else some index

end Block

/-- `NextEntryOffset`, where the value is in the block. -/
def BlockIter.nextEntryOffset (it : BlockIter) : Option Nat :=
  it.value.map fun v => (v.1 + v.2) % 2 ^ 32

namespace Block

variable (b : Block)

/-- `Valid`. -/
def valid (it : BlockIter) : Bool := it.current < b.restartOffset

/-- `ParseNextKey` behind `DecodeEntry`: the iterator, and what it returns. -/
def takeEntry (it : BlockIter) (current : Nat) : Option BlockEntry → Option (BlockIter × Bool)
  | none => some (b.corruptionError, false)
  | some e =>
    if it.key.length < e.shared then some (b.corruptionError, false)
    else do
      let delta ← b.read e.keyPtr e.nonShared
      let restartIndex ← b.advanceRestart current (b.num - it.restartIndex) it.restartIndex
      some ({ it with
        current := current
        restartIndex := restartIndex
        key := it.key.take e.shared ++ delta
        value := some (e.keyPtr + e.nonShared, e.valueLength) }, true)

/-- `ParseNextKey`. -/
def parseNextKey (it : BlockIter) : Option (BlockIter × Bool) := do
  let current ← it.nextEntryOffset
  if b.restartOffset ≤ current then
    some ({ it with current := b.restartOffset, restartIndex := b.num }, false)
  else b.takeEntry it current (← b.decodeEntry current)

/-- `SeekToRestartPoint`. -/
def seekToRestartPoint (it : BlockIter) (index : Nat) : Option BlockIter :=
  (b.getRestartPoint index).map fun offset =>
    { it with restartIndex := index, key := [], value := some (offset, 0) }

variable (cmp : Comparator)

/-- The iterator is where a loop stops. -/
def stops (it : BlockIter) : Stop → Bool
  | .now => true
  | .behind offset => it.nextEntryOffset.all fun next => offset ≤ next
  | .key target => cmp.compare it.key target ≠ .lt

/-- The midpoint of the binary search, in 32 bits. -/
def mid (left right : Nat) : Nat := (left + right + 1) % 2 ^ 32 / 2

/-- A round of a loop. -/
def step : BlockMachine → Option BlockMachine
  | .empty _ => none
  | .idle _ => none
  | .bisect target left right it =>
    if left < right then do
      let offset ← b.getRestartPoint (mid left right)
      match ← b.decodeEntry offset with
      | none => some (.idle b.corruptionError)
      | some e =>
        if e.shared ≠ 0 then some (.idle b.corruptionError)
        else do
          let midKey ← b.read e.keyPtr e.nonShared
          if cmp.compare midKey target = .lt then some (.bisect target (mid left right) right it)
          else some (.bisect target left ((mid left right + 2 ^ 32 - 1) % 2 ^ 32) it)
    else some (.restart left (.key target) it)
  | .restart index stop it => (b.seekToRestartPoint it index).map (.scan stop)
  | .scan stop it =>
    (b.parseNextKey it).map fun r =>
      if r.2 = true ∧ stops cmp r.1 stop = false then .scan stop r.1 else .idle r.1
  | .back original it => do
    let point ← b.getRestartPoint it.restartIndex
    if original ≤ point then
      if it.restartIndex = 0 then
        some (.idle { it with current := b.restartOffset, restartIndex := b.num })
      else some (.back original { it with restartIndex := it.restartIndex - 1 })
    else some (.restart it.restartIndex (.behind original) it)

/-- `NewIterator`. -/
def newIterator : BlockMachine :=
  if b.size < 4 then .empty (.corruption "bad block contents")
  else if b.num = 0 then .empty .ok
  else .idle ⟨b.restartOffset, b.num, [], none, .ok⟩

/-- The start of a call of `Block::Iter`; `Next` and `Prev` assert that the iterator is valid. -/
def start (it : BlockIter) : BlockCall → Option BlockMachine
  | .seekToFirst => some (.restart 0 .now it)
  | .seekToLast => some (.restart (b.num - 1) (.behind b.restartOffset) it)
  | .seek target => some (.bisect target 0 (b.num - 1) it)
  | .next => if b.valid it then some (.scan .now it) else none
  | .prev => if b.valid it then some (.back it.current it) else none

/-- A call between two others. An empty iterator is never valid. -/
def call : BlockMachine → BlockCall → Option BlockMachine
  | .empty _, .next => none
  | .empty _, .prev => none
  | .empty status, _ => some (.empty status)
  | .idle it, c => b.start it c
  | _, _ => none

end Block

end WiscKey
