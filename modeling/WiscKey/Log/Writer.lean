import WiscKey.Core.Crc32c

/-!
# The log writer

A log is a sequence of blocks. A record goes into the room left in the current block and
the following ones as one or more physical records, each with a header of its own; a room
too small for a header is filled with zeros. The file takes every append.
-/

namespace WiscKey.Log

/-- `kZeroType`: reserved for preallocated files. -/
def kZeroType : Nat := 0

/-- `kFullType`. -/
def kFullType : Nat := 1

/-- `kFirstType`. -/
def kFirstType : Nat := 2

/-- `kMiddleType`. -/
def kMiddleType : Nat := 3

/-- `kLastType`. -/
def kLastType : Nat := 4

/-- `kBlockSize`. -/
def kBlockSize : Nat := 32768

/-- `kHeaderSize`: checksum, length and type. -/
def kHeaderSize : Nat := 4 + 2 + 1

/-- `log::Writer`, with the bytes of its file. -/
structure Writer where
  dest : Bytes
  blockOffset : Nat
  deriving DecidableEq

namespace Writer

/-- A writer at the end of a file of length `dest_length`. -/
def ofFile (dest : Bytes) : Writer := ⟨dest, dest.length % kBlockSize⟩

/-- Switch to a new block if the current one has no room for a header. -/
def switchBlock (w : Writer) : Writer :=
  let leftover := kBlockSize - w.blockOffset
  if leftover < kHeaderSize then ⟨w.dest ++ List.replicate leftover 0, 0⟩ else w

/-- The type of a fragment. -/
def fragmentType (begin_ end_ : Bool) : Nat :=
  if begin_ && end_ then kFullType
  else if begin_ then kFirstType
  else if end_ then kLastType
  else kMiddleType

/-- The header and the payload of a physical record. -/
def physicalRecord (t : Nat) (data : Bytes) : Bytes :=
  let n := data.length
  let crc := Crc32c.extend (Crc32c.value [UInt8.ofNat t]) data
  encodeFixed32 (Crc32c.mask crc).toNat ++
    [UInt8.ofNat (n &&& 0xff), UInt8.ofNat (n >>> 8), UInt8.ofNat t] ++ data

/-- `EmitPhysicalRecord`. -/
def emitPhysicalRecord (w : Writer) (t : Nat) (data : Bytes) : Writer :=
  ⟨w.dest ++ physicalRecord t data, w.blockOffset + kHeaderSize + data.length⟩

/-- The bytes of a record that the next fragment takes. -/
def fragmentLength (w : Writer) (left : Nat) : Nat :=
  min left (kBlockSize - w.switchBlock.blockOffset - kHeaderSize)

/-- One round of the loop of `AddRecord`. -/
def addFragment (w : Writer) (begin_ : Bool) (data : Bytes) : Writer :=
  let n := w.fragmentLength data.length
  w.switchBlock.emitPhysicalRecord (fragmentType begin_ (data.length == n)) (data.take n)

@[simp] theorem blockOffset_switchBlock (w : Writer) :
    w.switchBlock.blockOffset =
      if kBlockSize - w.blockOffset < kHeaderSize then 0 else w.blockOffset := by
  by_cases h : kBlockSize - w.blockOffset < kHeaderSize <;> simp [switchBlock, h]

theorem fragmentLength_le (w : Writer) (left : Nat) : w.fragmentLength left ≤ left :=
  Nat.min_le_left _ _

@[simp] theorem blockOffset_addFragment (w : Writer) (begin_ : Bool) (data : Bytes) :
    (w.addFragment begin_ data).blockOffset =
      w.switchBlock.blockOffset + kHeaderSize + w.fragmentLength data.length := by
  simp only [addFragment, emitPhysicalRecord, List.length_take]
  rw [Nat.min_eq_left (w.fragmentLength_le _)]

/-- A round that takes nothing, at a block's end, leaves the block full. -/
theorem fragmentLength_progress {w : Writer} {left : Nat} (begin_ : Bool) (data : Bytes)
    (h : w.fragmentLength left < left) (hlen : data.length = left) :
    0 < w.fragmentLength left ∨
      w.blockOffset = kBlockSize - kHeaderSize ∧
        (w.addFragment begin_ data).blockOffset = kBlockSize := by
  rw [blockOffset_addFragment, hlen]
  by_cases hroom : kBlockSize - w.blockOffset < kHeaderSize <;>
    simp only [fragmentLength, blockOffset_switchBlock, hroom, if_true, if_false] at h ⊢ <;>
    simp only [kBlockSize, kHeaderSize] at * <;> omega

/-- The loop of `AddRecord`, with the bytes that are left. -/
def addFragments (w : Writer) (begin_ : Bool) (data : Bytes) : Writer :=
  let w' := w.addFragment begin_ data
  let rest := data.drop (w.fragmentLength data.length)
  if 0 < rest.length then addFragments w' false rest else w'
termination_by 2 * data.length + if w.blockOffset = kBlockSize - kHeaderSize then 1 else 0
decreasing_by
  rename_i hrest
  simp only [rest, List.length_drop] at hrest ⊢
  have hprogress := fragmentLength_progress begin_ data (w := w) (by omega) rfl
  obtain hpos | ⟨hbefore, hafter⟩ := hprogress
  · split_ifs <;> omega
  · rw [if_pos hbefore, if_neg (by rw [hafter]; decide)]
    omega

/-- `AddRecord`. -/
def addRecord (w : Writer) (slice : Bytes) : Writer := w.addFragments true slice

end Writer

/-- Reopen a file and add records to it. -/
def writeLog (dest : Bytes) (records : List Bytes) : Bytes :=
  (records.foldl Writer.addRecord (Writer.ofFile dest)).dest

end WiscKey.Log
