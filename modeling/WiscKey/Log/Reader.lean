import WiscKey.Log.Writer

/-!
# The log reader

The reader loads a file block by block, takes physical records off its buffer and joins
them to records. What it cannot use it drops, with a report unless the drop lies before
the offset it was asked to start from. Reads of the file succeed and are short only at
its end.
-/

namespace WiscKey.Log

/-- `kEof`, a value next to the record types. -/
def kEof : Nat := kLastType + 1

/-- `kBadRecord`. -/
def kBadRecord : Nat := kLastType + 2

/-- A call of `Reporter::Corruption`. -/
structure Drop where
  bytes : Nat
  reason : String
  deriving DecidableEq, Repr

/-- `log::Reader`, with its file and the reports it made. -/
structure Reader where
  contents : Bytes
  filePos : Nat
  checksum : Bool
  buffer : Bytes
  eof : Bool
  lastRecordOffset : Nat
  /-- Offset of the first location past the end of the buffer. -/
  endOfBufferOffset : Nat
  initialOffset : Nat
  resyncing : Bool
  reports : List Drop
  deriving DecidableEq, Repr

/-- Subtraction of `uint64_t`. -/
def sub64 (a b : Nat) : Nat := (a + (2 ^ 64 - b % 2 ^ 64)) % 2 ^ 64

/-- `record_type` of a header byte: a `char` is signed. -/
def headerType (b : UInt8) : Nat := if b < 128 then b.toNat else b.toNat + (2 ^ 32 - 256)

namespace Reader

/-- The constructor. -/
def ofFile (contents : Bytes) (checksum : Bool) (initialOffset : Nat) : Reader where
  contents
  filePos := 0
  checksum
  buffer := []
  eof := false
  lastRecordOffset := 0
  endOfBufferOffset := 0
  initialOffset
  resyncing := 0 < initialOffset
  reports := []

/-- `ReportDrop`. -/
def reportDrop (r : Reader) (bytes : Nat) (reason : String) : Reader :=
  if r.initialOffset ≤ sub64 (sub64 r.endOfBufferOffset r.buffer.length) bytes then
    { r with reports := r.reports ++ [⟨bytes, reason⟩] }
  else r

/-- `SkipToInitialBlock`. -/
def skipToInitialBlock (r : Reader) : Reader :=
  let offsetInBlock := r.initialOffset % kBlockSize
  let blockStartLocation := r.initialOffset - offsetInBlock
  let blockStartLocation :=
    -- not in a trailer
    if kBlockSize - 6 < offsetInBlock then blockStartLocation + kBlockSize else blockStartLocation
  { r with
    endOfBufferOffset := blockStartLocation
    filePos := r.filePos + blockStartLocation }

/-- `file_->Read(kBlockSize, &buffer_)`; a short read is the last one. -/
def readBlock (r : Reader) : Reader :=
  let buffer := (r.contents.drop r.filePos).take kBlockSize
  { r with
    buffer
    filePos := r.filePos + buffer.length
    endOfBufferOffset := r.endOfBufferOffset + buffer.length
    eof := r.eof || buffer.length < kBlockSize }

/-- The part of `ReadPhysicalRecord` behind its reads: the type of the record in front of the
buffer, its fragment, and the reader behind it. `result` is what the caller's slice holds. -/
def parsePhysicalRecord (r : Reader) (result : Bytes) : Nat × Bytes × Reader :=
  let header := r.buffer
  let a := (header.getD 4 0).toNat
  let b := (header.getD 5 0).toNat
  let type := headerType (header.getD 6 0)
  let length := a ||| (b <<< 8)
  if r.buffer.length < kHeaderSize + length then
    let cleared := { r with buffer := [] }
    if r.eof then (kEof, result, cleared)
    else (kBadRecord, result, cleared.reportDrop r.buffer.length "bad record length")
  else if type = kZeroType ∧ length = 0 then (kBadRecord, result, { r with buffer := [] })
  else if r.checksum ∧ Crc32c.value ((header.drop 6).take (1 + length)) ≠
      Crc32c.unmask (BitVec.ofNat 32 (decodeFixed32 header)) then
    let cleared := { r with buffer := [] }
    (kBadRecord, result, cleared.reportDrop r.buffer.length "checksum mismatch")
  else
    let rest := { r with buffer := r.buffer.drop (kHeaderSize + length) }
    if sub64 (sub64 (sub64 rest.endOfBufferOffset rest.buffer.length) kHeaderSize) length <
        r.initialOffset then (kBadRecord, [], rest)
    else (type, (header.drop kHeaderSize).take length, rest)

/-- `ReadPhysicalRecord`. A read that leaves less than a header is short, so that the loop
around the read goes round once more only to report the end. -/
def readPhysicalRecord (r : Reader) (result : Bytes) : Nat × Bytes × Reader :=
  if r.buffer.length < kHeaderSize then
    if r.eof then (kEof, result, { r with buffer := [] })
    else
      let r := r.readBlock
      if r.buffer.length < kHeaderSize then (kEof, result, { r with buffer := [] })
      else r.parsePhysicalRecord result
  else r.parsePhysicalRecord result

/-- The local variables of `ReadRecord`'s loop. -/
structure Partial where
  fragment : Bytes
  scratch : Bytes
  inFragmentedRecord : Bool
  prospectiveRecordOffset : Nat

/-- How a round of the loop ends. -/
inductive Round
  | returns (record : Bytes) (r : Reader)
  | continues (r : Reader) (p : Partial)

/-- The reader behind a round. -/
def Round.reader : Round → Reader
  | .returns _ r => r
  | .continues r _ => r

/-- A full or first fragment in the middle of a record: an empty one is forgiven. -/
def beginFragment (r : Reader) (p : Partial) (reason : String) : Reader :=
  if p.inFragmentedRecord && !p.scratch.isEmpty then r.reportDrop p.scratch.length reason else r

/-- The switch of `ReadRecord`'s loop, for every type but `kEof`. -/
def switchType (r : Reader) (p : Partial) (type physicalRecordOffset : Nat) : Round :=
  if type = kFullType then
    let r := r.beginFragment p "partial record without end(1)"
    .returns p.fragment { r with lastRecordOffset := physicalRecordOffset }
  else if type = kFirstType then
    .continues (r.beginFragment p "partial record without end(2)")
      ⟨p.fragment, p.fragment, true, physicalRecordOffset⟩
  else if type = kMiddleType then
    if p.inFragmentedRecord then .continues r { p with scratch := p.scratch ++ p.fragment }
    else .continues (r.reportDrop p.fragment.length "missing start of fragmented record(1)") p
  else if type = kLastType then
    if p.inFragmentedRecord then
      .returns (p.scratch ++ p.fragment) { r with lastRecordOffset := p.prospectiveRecordOffset }
    else .continues (r.reportDrop p.fragment.length "missing start of fragmented record(2)") p
  else if type = kBadRecord then
    if p.inFragmentedRecord then
      .continues (r.reportDrop p.scratch.length "error in middle of record")
        { p with inFragmentedRecord := false, scratch := [] }
    else .continues r p
  else
    let bytes := p.fragment.length + if p.inFragmentedRecord then p.scratch.length else 0
    .continues (r.reportDrop bytes ("unknown record type " ++ toString type))
      { p with inFragmentedRecord := false, scratch := [] }

/-- One round of `ReadRecord`'s loop behind the read of a physical record other than `kEof`. -/
def dispatch (r : Reader) (p : Partial) (type : Nat) : Round :=
  let physicalRecordOffset := sub64
    (sub64 (sub64 r.endOfBufferOffset r.buffer.length) kHeaderSize) p.fragment.length
  if r.resyncing && type == kMiddleType then .continues r p
  else
    let resynced := { r with resyncing := false }
    if r.resyncing && type == kLastType then .continues resynced p
    else switchType resynced p type physicalRecordOffset

/-- The bytes that the reader has not used. -/
def remaining (r : Reader) : Nat := r.buffer.length + (r.contents.length - r.filePos)

@[simp] theorem remaining_reportDrop (r : Reader) (n : Nat) (s : String) :
    (r.reportDrop n s).remaining = r.remaining := by
  unfold reportDrop
  split <;> rfl

theorem remaining_readBlock_le (r : Reader) : r.readBlock.remaining ≤ r.remaining := by
  simp only [remaining, readBlock, List.length_take, List.length_drop]
  omega

/-- A physical record uses up at least its header. -/
theorem remaining_parsePhysicalRecord_lt {r : Reader} {result : Bytes}
    (h : kHeaderSize ≤ r.buffer.length) :
    (r.parsePhysicalRecord result).2.2.remaining < r.remaining := by
  have hheader : kHeaderSize = 7 := rfl
  unfold parsePhysicalRecord
  simp only
  split
  · split
    · simp only [remaining, List.length_nil]
      omega
    · simp only [remaining_reportDrop]
      simp only [remaining, List.length_nil]
      omega
  · split
    · simp only [remaining, List.length_nil]
      omega
    · split
      · simp only [remaining_reportDrop]
        simp only [remaining, List.length_nil]
        omega
      · split <;> simp only [remaining, List.length_drop] <;> omega

theorem remaining_readPhysicalRecord_lt {r : Reader} {result : Bytes}
    (h : (r.readPhysicalRecord result).1 ≠ kEof) :
    (r.readPhysicalRecord result).2.2.remaining < r.remaining := by
  unfold readPhysicalRecord at h ⊢
  split at h
  · split at h
    · exact absurd rfl h
    · simp only at h ⊢
      split at h
      · exact absurd rfl h
      · rename_i hshort heof hlong
        rw [if_pos hshort, if_neg heof, if_neg hlong]
        exact lt_of_lt_of_le (remaining_parsePhysicalRecord_lt (Nat.le_of_not_lt hlong))
          r.remaining_readBlock_le
  · rename_i hlong
    rw [if_neg hlong]
    exact remaining_parsePhysicalRecord_lt (Nat.le_of_not_lt hlong)

@[simp] theorem remaining_lastRecordOffset (r : Reader) (n : Nat) :
    ({ r with lastRecordOffset := n } : Reader).remaining = r.remaining := rfl

@[simp] theorem remaining_resyncing (r : Reader) (b : Bool) :
    ({ r with resyncing := b } : Reader).remaining = r.remaining := rfl

@[simp] theorem remaining_beginFragment (r : Reader) (p : Partial) (s : String) :
    (r.beginFragment p s).remaining = r.remaining := by
  unfold beginFragment
  split
  · rw [remaining_reportDrop]
  · rfl

theorem remaining_switchType (r : Reader) (p : Partial) (type offset : Nat) :
    (r.switchType p type offset).reader.remaining = r.remaining := by
  unfold switchType
  split_ifs <;> simp only [Round.reader, remaining_lastRecordOffset, remaining_beginFragment,
    remaining_reportDrop]

/-- A round has only made reports. -/
theorem remaining_dispatch {r : Reader} {p : Partial} {type : Nat} {round : Round}
    (h : r.dispatch p type = round) : round.reader.remaining = r.remaining := by
  subst h
  unfold dispatch
  simp only
  split_ifs
  · rfl
  · rfl
  · rw [remaining_switchType, remaining_resyncing]

/-- The loop of `ReadRecord`. `kEof` ends it, and a record cut off by it is no corruption. -/
def readRecordLoop (r : Reader) (p : Partial) : Option Bytes × Reader :=
  if _h : (r.readPhysicalRecord p.fragment).1 = kEof then
    (none, { (r.readPhysicalRecord p.fragment).2.2 with resyncing := false })
  else
    match _hd : (r.readPhysicalRecord p.fragment).2.2.dispatch
        { p with fragment := (r.readPhysicalRecord p.fragment).2.1 }
        (r.readPhysicalRecord p.fragment).1 with
    | .returns record r' => (some record, r')
    | .continues r' p' => readRecordLoop r' p'
termination_by r.remaining
decreasing_by exact (remaining_dispatch _hd).trans_lt (remaining_readPhysicalRecord_lt _h)

theorem readRecordLoop_eof {r r' : Reader} {p : Partial} {f : Bytes}
    (hread : r.readPhysicalRecord p.fragment = (kEof, f, r')) :
    r.readRecordLoop p = (none, { r' with resyncing := false }) := by
  rw [readRecordLoop, dif_pos (by rw [hread]), hread]

theorem readRecordLoop_returns {r r₁ r' : Reader} {p : Partial} {type : Nat} {f record : Bytes}
    (hread : r.readPhysicalRecord p.fragment = (type, f, r₁)) (htype : type ≠ kEof)
    (hdispatch : r₁.dispatch { p with fragment := f } type = .returns record r') :
    r.readRecordLoop p = (some record, r') := by
  rw [readRecordLoop, dif_neg (by rw [hread]; exact htype)]
  split
  · rename_i hd
    rw [hread, hdispatch] at hd
    cases hd
    rfl
  · rename_i hd
    rw [hread, hdispatch] at hd
    cases hd

theorem readRecordLoop_continues {r r₁ r' : Reader} {p p' : Partial} {type : Nat} {f : Bytes}
    (hread : r.readPhysicalRecord p.fragment = (type, f, r₁)) (htype : type ≠ kEof)
    (hdispatch : r₁.dispatch { p with fragment := f } type = .continues r' p') :
    r.readRecordLoop p = r'.readRecordLoop p' := by
  rw [readRecordLoop, dif_neg (by rw [hread]; exact htype)]
  split
  · rename_i hd
    rw [hread, hdispatch] at hd
    cases hd
  · rename_i hd
    rw [hread, hdispatch] at hd
    cases hd
    rfl

theorem remaining_readRecordLoop_lt {r r' : Reader} {p : Partial} {record : Bytes}
    (h : r.readRecordLoop p = (some record, r')) : r'.remaining < r.remaining := by
  induction r, p using readRecordLoop.induct with
  | case1 r p heof =>
    rw [readRecordLoop, dif_pos heof] at h
    cases h
  | case2 r p htype record₁ r₁ hdispatch =>
    rw [readRecordLoop_returns rfl htype hdispatch] at h
    cases h
    exact (remaining_dispatch hdispatch).trans_lt (remaining_readPhysicalRecord_lt htype)
  | case3 r p htype r₁ p₁ hdispatch ih =>
    rw [readRecordLoop_continues rfl htype hdispatch] at h
    have hround := (remaining_dispatch hdispatch).trans_lt (remaining_readPhysicalRecord_lt htype)
    exact (ih h).trans hround

/-- `ReadRecord`. -/
def readRecord (r : Reader) : Option Bytes × Reader :=
  let r := if r.lastRecordOffset < r.initialOffset then r.skipToInitialBlock else r
  r.readRecordLoop ⟨[], [], false, 0⟩

theorem remaining_readRecord_lt {r r' : Reader} {record : Bytes}
    (h : r.readRecord = (some record, r')) : r'.remaining < r.remaining := by
  unfold readRecord at h
  apply (remaining_readRecordLoop_lt h).trans_le
  split
  · simp only [remaining, skipToInitialBlock]
    omega
  · exact le_rfl

/-- Calls of `ReadRecord` up to the one that returns false, and the reader then. -/
def readAll (r : Reader) : List Bytes × Reader :=
  match _h : r.readRecord with
  | (none, r') => ([], r')
  | (some record, r') => (record :: r'.readAll.1, r'.readAll.2)
termination_by r.remaining
decreasing_by all_goals exact remaining_readRecord_lt _h

theorem readAll_none {r r' : Reader} (h : r.readRecord = (none, r')) : r.readAll = ([], r') := by
  rw [readAll]
  split
  · rename_i h'
    rw [h] at h'
    cases h'
    rfl
  · rename_i h'
    rw [h] at h'
    cases h'

theorem readAll_some {r r' : Reader} {record : Bytes} (h : r.readRecord = (some record, r')) :
    r.readAll = (record :: r'.readAll.1, r'.readAll.2) := by
  rw [readAll]
  split
  · rename_i h'
    rw [h] at h'
    cases h'
  · rename_i h'
    rw [h] at h'
    cases h'
    rfl

/-- `while (reader.ReadRecord(&record, &scratch) && status.ok())` around a body: the state holds
the status, and a reporter may set it. -/
def forRecords {σ : Type} (report : σ → Drop → σ) (ok : σ → Bool) (body : σ → Bytes → σ) (s : σ)
    (r : Reader) : σ :=
  match _h : r.readRecord with
  | (none, r') => (r'.reports.drop r.reports.length).foldl report s
  | (some record, r') =>
    let s := (r'.reports.drop r.reports.length).foldl report s
    if ok s then forRecords report ok body (body s record) r' else s
termination_by r.remaining
decreasing_by exact remaining_readRecord_lt _h

end Reader

end WiscKey.Log
