import WiscKey.Log.Reader
import Mathlib.Tactic.IntervalCases

/-!
# Framing round trip

A reader at the end of what a writer has written so far reads exactly what the writer
adds next. The reader is described by the position of its next unread byte; the writer's
switch to a new block is the reader's skip over the zeros in front of it.
-/

namespace WiscKey.Log

namespace Writer

/-- The offset that the writer keeps is the one in the last block of its file; a full block
may still count as the current one. -/
structure Aligned (w : Writer) : Prop where
  offset_le : w.blockOffset ≤ kBlockSize
  offset_mod : w.dest.length % kBlockSize = w.blockOffset % kBlockSize

theorem aligned_ofFile (dest : Bytes) : (ofFile dest).Aligned := by
  have hpos : 0 < kBlockSize := by decide
  exact ⟨(Nat.mod_lt _ hpos).le, (Nat.mod_mod _ _).symm⟩

/-- Where the next physical record goes. -/
theorem Aligned.switchBlock {w : Writer} (h : w.Aligned) :
    w.switchBlock.Aligned ∧ w.switchBlock.blockOffset + kHeaderSize ≤ kBlockSize ∧
      w.dest.length ≤ w.switchBlock.dest.length ∧
      (w.switchBlock.dest.length = w.dest.length ∨
        w.switchBlock.dest.length % kBlockSize = 0 ∧
          w.switchBlock.dest.length < w.dest.length + kHeaderSize) := by
  obtain ⟨hle, hmod⟩ := h
  by_cases hroom : kBlockSize - w.blockOffset < kHeaderSize
  · have hs : w.switchBlock =
        ⟨w.dest ++ List.replicate (kBlockSize - w.blockOffset) 0, 0⟩ := if_pos hroom
    have hlen : w.switchBlock.dest.length = w.dest.length + (kBlockSize - w.blockOffset) := by
      simp [hs]
    have hoff : w.switchBlock.blockOffset = 0 := by rw [hs]
    have hblock : w.switchBlock.dest.length % kBlockSize = 0 := by
      rw [hlen]
      simp only [kBlockSize] at *
      omega
    refine ⟨⟨by rw [hoff]; decide, ?_⟩, by rw [hoff]; decide, by omega, Or.inr ⟨hblock, by omega⟩⟩
    rw [hblock, hoff, Nat.zero_mod]
  · have hs : w.switchBlock = w := if_neg hroom
    rw [hs]
    exact ⟨⟨hle, hmod⟩, by omega, le_rfl, Or.inl rfl⟩

@[simp] theorem length_physicalRecord (t : Nat) (data : Bytes) :
    (physicalRecord t data).length = kHeaderSize + data.length := by
  simp [physicalRecord, encodeFixed32, kHeaderSize]
  omega

theorem fragmentLength_fits {w : Writer} (h : w.Aligned) (left : Nat) :
    w.switchBlock.blockOffset + kHeaderSize + w.fragmentLength left ≤ kBlockSize := by
  have hroom := h.switchBlock.2.1
  unfold fragmentLength
  omega

theorem dest_addFragment (w : Writer) (begin_ : Bool) (data : Bytes) :
    (w.addFragment begin_ data).dest = w.switchBlock.dest ++
      physicalRecord (fragmentType begin_ (data.length == w.fragmentLength data.length))
        (data.take (w.fragmentLength data.length)) := rfl

theorem Aligned.addFragment {w : Writer} (h : w.Aligned) (begin_ : Bool) (data : Bytes) :
    (w.addFragment begin_ data).Aligned := by
  have hfits := fragmentLength_fits h data.length
  have hmod := h.switchBlock.1.offset_mod
  have hn := w.fragmentLength_le data.length
  constructor
  · rw [blockOffset_addFragment]
    exact hfits
  · rw [blockOffset_addFragment, dest_addFragment, List.length_append, length_physicalRecord,
      List.length_take, Nat.min_eq_left hn]
    simp only [kBlockSize, kHeaderSize] at *
    omega

theorem Aligned.addFragments {w : Writer} (h : w.Aligned) (begin_ : Bool) (data : Bytes) :
    (w.addFragments begin_ data).Aligned := by
  induction w, begin_, data using Writer.addFragments.induct with
  | case1 w begin_ data w' rest hrest ih =>
    rw [Writer.addFragments, if_pos hrest]
    exact ih (h.addFragment begin_ data)
  | case2 w begin_ data rest hrest =>
    rw [Writer.addFragments, if_neg hrest]
    exact h.addFragment begin_ data

/-- The writer only appends. -/
theorem prefix_switchBlock (w : Writer) : w.dest <+: w.switchBlock.dest := by
  unfold switchBlock
  simp only
  split
  · exact List.prefix_append _ _
  · exact List.prefix_rfl

theorem prefix_addFragment (w : Writer) (begin_ : Bool) (data : Bytes) :
    w.dest <+: (w.addFragment begin_ data).dest :=
  w.prefix_switchBlock.trans (List.prefix_append _ _)

theorem prefix_addFragments (w : Writer) (begin_ : Bool) (data : Bytes) :
    w.dest <+: (w.addFragments begin_ data).dest := by
  induction w, begin_, data using Writer.addFragments.induct with
  | case1 w begin_ data w' rest hrest ih =>
    rw [Writer.addFragments, if_pos hrest]
    exact (w.prefix_addFragment begin_ data).trans ih
  | case2 w begin_ data rest hrest =>
    rw [Writer.addFragments, if_neg hrest]
    exact w.prefix_addFragment begin_ data

end Writer

namespace Reader

/-- The next byte that the reader has not used is the one at `cur`. The buffer holds the rest of a
block, or of the file behind a short read. -/
structure Loaded (r : Reader) (file : Bytes) (cur : Nat) : Prop where
  contents : r.contents = file
  buffer : r.buffer = (file.drop cur).take (r.filePos - cur)
  cur_le : cur ≤ r.filePos
  filePos_le : r.filePos ≤ file.length
  block : r.eof = false → r.filePos % kBlockSize = 0 ∧ r.filePos ≤ cur + kBlockSize
  short : r.eof = true → r.filePos = file.length ∧ file.length ≤ cur + file.length % kBlockSize

/-- The reader is at `cur` of a file that it reads from the beginning, and nothing was dropped. -/
structure At (r : Reader) (file : Bytes) (cur : Nat) : Prop extends Loaded r file cur where
  initialOffset : r.initialOffset = 0
  resyncing : r.resyncing = false
  reports : r.reports = []

theorem at_ofFile (file : Bytes) (checksum : Bool) : (ofFile file checksum 0).At file 0 where
  contents := rfl
  buffer := rfl
  cur_le := le_rfl
  filePos_le := Nat.zero_le _
  block := fun _ => ⟨rfl, Nat.zero_le _⟩
  short := fun h => nomatch h
  initialOffset := rfl
  resyncing := rfl
  reports := rfl

/-- The second reader has gone on in the file, and has neither made reports nor returned a
record. -/
structure Follows (r r' : Reader) : Prop where
  initialOffset : r'.initialOffset = r.initialOffset
  resyncing : r'.resyncing = r.resyncing
  reports : r'.reports = r.reports
  lastRecordOffset : r'.lastRecordOffset = r.lastRecordOffset
  position : r'.endOfBufferOffset + r.filePos = r.endOfBufferOffset + r'.filePos

theorem follows_refl (r : Reader) : r.Follows r := ⟨rfl, rfl, rfl, rfl, rfl⟩

variable {r : Reader} {file : Bytes} {cur : Nat}

theorem At.follow {r' : Reader} {cur' : Nat} (h : r.At file cur) (hfollows : r.Follows r')
    (hloaded : r'.Loaded file cur') : r'.At file cur' where
  toLoaded := hloaded
  initialOffset := hfollows.initialOffset.trans h.initialOffset
  resyncing := hfollows.resyncing.trans h.resyncing
  reports := hfollows.reports.trans h.reports

theorem Loaded.length_buffer (h : r.Loaded file cur) : r.buffer.length = r.filePos - cur := by
  have hle := h.filePos_le
  rw [h.buffer, List.length_take, List.length_drop]
  omega

/-- A reader that has used its buffer up to a trailer goes on with the next block. -/
theorem Loaded.readBlock (h : r.Loaded file cur) (heof : r.eof = false) :
    r.readBlock.Loaded file r.filePos where
  contents := h.contents
  buffer := by
    simp only [Reader.readBlock, h.contents, Nat.add_sub_cancel_left]
    rw [List.take_eq_take_iff]
    simp
  cur_le := Nat.le_add_right _ _
  filePos_le := by
    have hle := h.filePos_le
    simp only [Reader.readBlock, h.contents, List.length_take, List.length_drop]
    omega
  block := by
    intro hfull
    have hmod := (h.block heof).1
    simp only [Reader.readBlock, heof, Bool.false_or, decide_eq_false_iff_not, h.contents,
      List.length_take, List.length_drop] at hfull ⊢
    simp only [kBlockSize] at *
    omega
  short := by
    intro hshort
    have hmod := (h.block heof).1
    have hle := h.filePos_le
    simp only [Reader.readBlock, heof, Bool.false_or, decide_eq_true_eq, h.contents,
      List.length_take, List.length_drop] at hshort ⊢
    simp only [kBlockSize] at *
    omega

theorem follows_readBlock (r : Reader) : r.Follows r.readBlock :=
  ⟨rfl, rfl, rfl, rfl, by simp only [Reader.readBlock]; omega⟩

/-- Where the writer puts a header, the reader finds one, behind a trailer or not. -/
theorem Loaded.ready {start : Nat} (h : r.Loaded file cur) (hcur : cur ≤ start)
    (hstart : start = cur ∨ start % kBlockSize = 0 ∧ start < cur + kHeaderSize)
    (hroom : start % kBlockSize + kHeaderSize ≤ kBlockSize)
    (hfile : start + kHeaderSize ≤ file.length) :
    ∃ r' : Reader, r.Follows r' ∧ r'.Loaded file start ∧ kHeaderSize ≤ r'.buffer.length ∧
      ∀ result, r.readPhysicalRecord result = r'.parsePhysicalRecord result := by
  have hlen := h.length_buffer
  by_cases hshort : r.buffer.length < kHeaderSize
  · have heof : r.eof = false := by
      by_contra heof
      have hs := h.short (by simpa using heof)
      simp only [kBlockSize, kHeaderSize] at *
      omega
    have hpos : r.filePos = start := by
      have hb := h.block heof
      have hc := h.cur_le
      simp only [kBlockSize, kHeaderSize] at *
      omega
    have hat := hpos ▸ h.readBlock heof
    have hfull : kHeaderSize ≤ r.readBlock.buffer.length := by
      simp only [Reader.readBlock, h.contents, List.length_take, List.length_drop, hpos]
      simp only [kBlockSize, kHeaderSize] at *
      omega
    refine ⟨r.readBlock, r.follows_readBlock, hat, hfull, fun result => ?_⟩
    rw [readPhysicalRecord, if_pos hshort, if_neg (by simp [heof])]
    exact if_neg (Nat.not_lt.mpr hfull)
  · have hpos : start = cur := by
      obtain hs | ⟨hmod, hlt⟩ := hstart
      · exact hs
      · cases heof : r.eof with
        | false =>
          have hb := h.block heof
          have hc := h.cur_le
          simp only [kBlockSize, kHeaderSize] at *
          omega
        | true =>
          have hs := h.short heof
          simp only [kBlockSize, kHeaderSize] at *
          omega
    subst hpos
    refine ⟨r, r.follows_refl, h, Nat.le_of_not_lt hshort, fun result => ?_⟩
    rw [readPhysicalRecord, if_neg hshort]

/-- The types that the writer gives to fragments read back as they are. -/
theorem headerType_ofNat {t : Nat} (h : t ≤ kLastType) : headerType (UInt8.ofNat t) = t := by
  have hcases : ∀ t : Fin 5, headerType (UInt8.ofNat t) = t := by decide
  exact hcases ⟨t, Nat.lt_succ_of_le h⟩

/-- The two length bytes of a header. -/
theorem length_bytes {n : Nat} (h : n < 2 ^ 16) :
    (UInt8.ofNat (n &&& 0xff)).toNat ||| (UInt8.ofNat (n >>> 8)).toNat <<< 8 = n := by
  have hlow : (UInt8.ofNat (n &&& 0xff)).toNat = n % 2 ^ 8 := by
    change (n &&& (2 ^ 8 - 1)) % 2 ^ 8 = n % 2 ^ 8
    rw [Nat.and_two_pow_sub_one_eq_mod, Nat.mod_mod]
  have hhigh : (UInt8.ofNat (n >>> 8)).toNat = n / 2 ^ 8 := by
    change n >>> 8 % 2 ^ 8 = n / 2 ^ 8
    rw [Nat.shiftRight_eq_div_pow]
    exact Nat.mod_eq_of_lt (by omega)
  rw [hlow, hhigh, Nat.or_comm, ← Nat.shiftLeft_add_eq_or_of_lt (Nat.mod_lt _ (by decide)),
    Nat.shiftLeft_eq]
  omega

/-- A physical record in front of the buffer is read back, whatever follows it, unless it starts
before the offset that was asked for. -/
theorem parsePhysicalRecord_physicalRecord (t : Nat) (data rest result : Bytes)
    (hbuffer : r.buffer = Writer.physicalRecord t data ++ rest) (ht : t ≤ kLastType)
    (hzero : t ≠ kZeroType)
    (hlen : data.length < 2 ^ 16) :
    r.parsePhysicalRecord result =
      if sub64 (sub64 (sub64 r.endOfBufferOffset rest.length) kHeaderSize) data.length <
          r.initialOffset then (kBadRecord, [], { r with buffer := rest })
      else (t, data, { r with buffer := rest }) := by
  obtain ⟨b₀, b₁, b₂, b₃, hcrc⟩ : ∃ b₀ b₁ b₂ b₃, encodeFixed32 (Crc32c.mask (Crc32c.extend
      (Crc32c.value [UInt8.ofNat t]) data)).toNat = [b₀, b₁, b₂, b₃] := ⟨_, _, _, _, rfl⟩
  have hcons : r.buffer = [b₀, b₁, b₂, b₃] ++ UInt8.ofNat (data.length &&& 0xff) ::
      UInt8.ofNat (data.length >>> 8) :: UInt8.ofNat t :: (data ++ rest) := by
    rw [hbuffer, Writer.physicalRecord]
    simp [hcrc]
  have hexpected : Crc32c.unmask (BitVec.ofNat 32 (decodeFixed32 r.buffer)) =
      Crc32c.value (UInt8.ofNat t :: data) := by
    rw [hcons, ← hcrc, decodeFixed32_encodeFixed32 (BitVec.isLt _), BitVec.ofNat_toNat,
      BitVec.setWidth_eq, Crc32c.unmask_mask, Crc32c.value, Crc32c.value, ← Crc32c.extend_append]
    rfl
  have hactual : (r.buffer.drop 6).take (1 + data.length) = UInt8.ofNat t :: data := by
    rw [hcons, Nat.add_comm]
    simp
  have hlength : (r.buffer.getD 4 0).toNat ||| (r.buffer.getD 5 0).toNat <<< 8 = data.length := by
    rw [hcons]
    exact length_bytes hlen
  have htype : headerType (r.buffer.getD 6 0) = t := by
    rw [hcons]
    exact headerType_ofNat ht
  have hrest : r.buffer.drop (kHeaderSize + data.length) = rest := by
    rw [hbuffer, ← Writer.length_physicalRecord t data, List.drop_left]
  have hdata : (r.buffer.drop kHeaderSize).take data.length = data := by
    rw [hcons]
    simp [kHeaderSize]
  have hlong : ¬ r.buffer.length < kHeaderSize + data.length := by
    rw [hbuffer, List.length_append, Writer.length_physicalRecord]
    omega
  unfold parsePhysicalRecord
  simp only [hlength, htype, hexpected, hactual, hrest, hdata]
  rw [if_neg hlong, if_neg (fun h => hzero h.1), if_neg (by simp)]

/-- What a reader at the next header finds in its buffer. -/
theorem Loaded.buffer_prefix {record : Bytes} (h : r.Loaded file cur)
    (hfull : kHeaderSize ≤ r.buffer.length) (hrecord : record <+: file.drop cur)
    (hfits : cur % kBlockSize + record.length ≤ kBlockSize) : record <+: r.buffer := by
  have hlen := h.length_buffer
  have hle := hrecord.length_le
  rw [List.length_drop] at hle
  have hwhole : record.length ≤ r.filePos - cur := by
    cases heof : r.eof with
    | false =>
      have hb := h.block heof
      simp only [kBlockSize, kHeaderSize] at *
      omega
    | true =>
      have hs := h.short heof
      simp only [kHeaderSize] at *
      omega
  rw [h.buffer]
  exact List.prefix_take_iff.mpr ⟨hrecord, hwhole⟩

/-- Taking bytes off the buffer. -/
theorem Loaded.consume {record rest : Bytes} (h : r.Loaded file cur)
    (hbuffer : record ++ rest = r.buffer) :
    ({ r with buffer := rest } : Reader).Loaded file (cur + record.length) := by
  have hlen := h.length_buffer
  rw [← hbuffer, List.length_append] at hlen
  have hrest : rest = (file.drop (cur + record.length)).take
      (r.filePos - (cur + record.length)) := by
    have hdrop : rest = r.buffer.drop record.length := by rw [← hbuffer, List.drop_left]
    rw [hdrop, h.buffer, List.drop_take, List.drop_drop, Nat.sub_sub]
  have hcur := h.cur_le
  exact { h with
    buffer := hrest
    cur_le := by change cur + record.length ≤ r.filePos; omega
    block := fun heof => ⟨(h.block heof).1, by have hb := (h.block heof).2; simp only; omega⟩
    short := fun heof => ⟨(h.short heof).1, by have hs := (h.short heof).2; omega⟩ }

/-- One physical record of the writer, read by a reader at the writer's last position. -/
theorem Loaded.readPhysicalRecord {w : Writer} {data : Bytes} (begin_ : Bool) (result : Bytes)
    (hw : w.Aligned) (h : r.Loaded file w.dest.length)
    (hpre : (w.addFragment begin_ data).dest <+: file) :
    ∃ r' : Reader, r.Follows r' ∧ r'.Loaded file (w.addFragment begin_ data).dest.length ∧
      r.readPhysicalRecord result =
        if sub64 (sub64 (sub64 r'.endOfBufferOffset r'.buffer.length) kHeaderSize)
            (w.fragmentLength data.length) < r.initialOffset then (kBadRecord, [], r')
        else (Writer.fragmentType begin_ (data.length == w.fragmentLength data.length),
          data.take (w.fragmentLength data.length), r') := by
  obtain ⟨halign, hroom, hgrow, hstart⟩ := hw.switchBlock
  have hfits := Writer.fragmentLength_fits hw data.length
  have hmod := halign.offset_mod
  have htake : (data.take (w.fragmentLength data.length)).length =
      w.fragmentLength data.length := by
    rw [List.length_take, Nat.min_eq_left (w.fragmentLength_le _)]
  rw [Writer.dest_addFragment] at hpre ⊢
  generalize hrecord : Writer.physicalRecord
    (Writer.fragmentType begin_ (data.length == w.fragmentLength data.length))
    (data.take (w.fragmentLength data.length)) = record at hpre ⊢
  have hlen : record.length = kHeaderSize + w.fragmentLength data.length := by
    rw [← hrecord, Writer.length_physicalRecord, htake]
  have hbound : w.switchBlock.dest.length % kBlockSize + record.length ≤ kBlockSize := by
    simp only [kBlockSize, kHeaderSize] at *
    omega
  have hlong : w.switchBlock.dest.length + kHeaderSize ≤ file.length := by
    have hle := hpre.length_le
    rw [List.length_append] at hle
    omega
  obtain ⟨r₁, hfollows, hat, hfull, hread⟩ := h.ready hgrow hstart (by omega) hlong
  obtain ⟨tail, htail⟩ := hpre
  have hdrop : record <+: file.drop w.switchBlock.dest.length := by
    rw [← htail, List.append_assoc, List.drop_left]
    exact List.prefix_append _ _
  obtain ⟨rest, hrest⟩ := hat.buffer_prefix hfull hdrop hbound
  have hparse := parsePhysicalRecord_physicalRecord (r := r₁)
    (Writer.fragmentType begin_ (data.length == w.fragmentLength data.length))
    (data.take (w.fragmentLength data.length)) rest result (by rw [hrecord, hrest])
    (by unfold Writer.fragmentType; split_ifs <;> decide)
    (by unfold Writer.fragmentType; split_ifs <;> decide)
    (by rw [htake]; simp only [kBlockSize, kHeaderSize] at *; omega)
  rw [htake] at hparse
  refine ⟨{ r₁ with buffer := rest }, { hfollows with }, ?_, ?_⟩
  · rw [List.length_append]
    exact hat.consume hrest
  · rw [← hfollows.initialOffset]
    exact (hread result).trans hparse

/-- The same from the beginning of the file, where no record is too early. -/
theorem At.readPhysicalRecord {w : Writer} {begin_ : Bool} {data : Bytes} (result : Bytes)
    (hw : w.Aligned) (h : r.At file w.dest.length)
    (hpre : (w.addFragment begin_ data).dest <+: file) :
    ∃ r' : Reader, r'.At file (w.addFragment begin_ data).dest.length ∧
      r.readPhysicalRecord result =
        (Writer.fragmentType begin_ (data.length == w.fragmentLength data.length),
          data.take (w.fragmentLength data.length), r') := by
  obtain ⟨r', hfollows, hloaded, hread⟩ :=
    h.toLoaded.readPhysicalRecord begin_ result hw hpre
  rw [h.initialOffset, if_neg (Nat.not_lt_zero _)] at hread
  exact ⟨r', h.follow hfollows hloaded, hread⟩

/-- What the loop of `ReadRecord` has put together when `begin_` says whether it has begun. -/
def Partial.Holds (p : Partial) (begin_ : Bool) (done : Bytes) : Prop :=
  p.inFragmentedRecord = !begin_ ∧ if begin_ then done = [] else p.scratch = done

/-- The round of the loop that reads the last fragment of a record. -/
theorem dispatch_end {p : Partial} {begin_ : Bool} {done data : Bytes} (hr : r.resyncing = false)
    (hp : p.Holds begin_ done) (hdata : p.fragment = data) :
    ∃ offset, r.dispatch p (Writer.fragmentType begin_ true) =
      .returns (done ++ data) { r with lastRecordOffset := offset } := by
  obtain ⟨hin, hdone⟩ := hp
  obtain ⟨contents, filePos, checksum, buffer, eof, last, endOff, initialOffset, resync, reports⟩ := r
  cases hr
  cases begin_ with
  | true =>
    cases hdone
    simp [dispatch, switchType, beginFragment, Writer.fragmentType, hin, hdata]
  | false =>
    simp only [Bool.false_eq_true, if_false] at hdone
    simp [dispatch, switchType, Writer.fragmentType, hin, hdata, hdone, kLastType, kFullType,
      kFirstType, kMiddleType]

/-- The round of the loop that reads another fragment of a record. -/
theorem dispatch_more {p : Partial} {begin_ : Bool} {done data : Bytes} (hr : r.resyncing = false)
    (hp : p.Holds begin_ done) (hdata : p.fragment = data) :
    ∃ p' : Partial, r.dispatch p (Writer.fragmentType begin_ false) = .continues r p' ∧
      p'.Holds false (done ++ data) := by
  obtain ⟨hin, hdone⟩ := hp
  obtain ⟨contents, filePos, checksum, buffer, eof, last, endOff, initialOffset, resync, reports⟩ := r
  cases hr
  cases begin_ with
  | true =>
    cases hdone
    simp [dispatch, switchType, beginFragment, Writer.fragmentType, hin, hdata, Partial.Holds,
      kFullType, kFirstType]
  | false =>
    simp only [Bool.false_eq_true, if_false] at hdone
    simp [dispatch, switchType, Writer.fragmentType, hin, hdata, hdone, Partial.Holds,
      kFullType, kFirstType, kMiddleType]

theorem fragmentType_ne_kEof (begin_ end_ : Bool) : Writer.fragmentType begin_ end_ ≠ kEof := by
  cases begin_ <;> cases end_ <;> decide

/-- The loop of `ReadRecord` undoes the loop of `AddRecord`. -/
theorem At.readRecordLoop {w : Writer} {begin_ : Bool} {data done : Bytes} {p : Partial}
    (hw : w.Aligned) (h : r.At file w.dest.length) (hp : p.Holds begin_ done)
    (hpre : (w.addFragments begin_ data).dest <+: file) :
    ∃ r' : Reader, r'.At file (w.addFragments begin_ data).dest.length ∧
      r.readRecordLoop p = (some (done ++ data), r') := by
  induction w, begin_, data using Writer.addFragments.induct generalizing r p done with
  | case1 w begin_ data w' rest =>
    rename_i hrest ih
    rw [Writer.addFragments, if_pos hrest] at hpre ⊢
    obtain ⟨r₁, hat, hread⟩ := h.readPhysicalRecord p.fragment hw
      ((Writer.prefix_addFragments _ _ _).trans hpre)
    have hmore : (data.length == w.fragmentLength data.length) = false := by
      simp only [rest, List.length_drop] at hrest
      simp only [beq_eq_false_iff_ne]
      omega
    rw [hmore] at hread
    obtain ⟨p₁, hdispatch, hp₁⟩ := dispatch_more (r := r₁)
      (p := { p with fragment := data.take (w.fragmentLength data.length) })
      hat.resyncing hp rfl
    obtain ⟨r', hat', hloop⟩ := ih (hw.addFragment begin_ data) hat hp₁ hpre
    refine ⟨r', hat', ?_⟩
    rw [List.append_assoc, List.take_append_drop] at hloop
    rw [readRecordLoop_continues hread (fragmentType_ne_kEof _ _) hdispatch, hloop]
  | case2 w begin_ data rest =>
    rename_i hrest
    rw [Writer.addFragments, if_neg hrest] at hpre ⊢
    obtain ⟨r₁, hat, hread⟩ := h.readPhysicalRecord p.fragment hw hpre
    have hle := w.fragmentLength_le data.length
    simp only [rest, List.length_drop] at hrest
    have hend : (data.length == w.fragmentLength data.length) = true := by
      simp only [beq_iff_eq]
      omega
    rw [hend, List.take_of_length_le (by omega)] at hread
    obtain ⟨offset, hdispatch⟩ := dispatch_end (r := r₁) (p := { p with fragment := data })
      hat.resyncing hp rfl
    exact ⟨{ r₁ with lastRecordOffset := offset }, { hat with },
      readRecordLoop_returns hread (fragmentType_ne_kEof _ _) hdispatch⟩

/-- `ReadRecord` at the position where `AddRecord` put its record. -/
theorem At.readRecord {w : Writer} {record : Bytes} (hw : w.Aligned)
    (h : r.At file w.dest.length) (hpre : (w.addRecord record).dest <+: file) :
    ∃ r' : Reader, r'.At file (w.addRecord record).dest.length ∧
      r.readRecord = (some record, r') := by
  unfold Reader.readRecord
  rw [if_neg (by rw [h.initialOffset]; exact Nat.not_lt_zero _)]
  have hp : (⟨[], [], false, 0⟩ : Partial).Holds true [] := ⟨rfl, rfl⟩
  exact h.readRecordLoop hw hp hpre

/-- `ReadPhysicalRecord` behind the last byte of the file. -/
theorem readPhysicalRecord_end (hbuffer : r.buffer = []) (hend : r.contents.length ≤ r.filePos)
    (result : Bytes) : ∃ r' : Reader, r'.reports = r.reports ∧
      r.readPhysicalRecord result = (kEof, result, r') := by
  have hshort : r.buffer.length < kHeaderSize := by rw [hbuffer]; decide
  rw [Reader.readPhysicalRecord, if_pos hshort]
  cases heof : r.eof with
  | true => exact ⟨{ r with buffer := [] }, rfl, by rw [if_pos rfl, heof]⟩
  | false =>
    have hblock : r.readBlock.buffer = [] := by
      simp only [Reader.readBlock]
      rw [List.drop_of_length_le hend, List.take_nil]
    refine ⟨{ r.readBlock with buffer := [] }, rfl, ?_⟩
    rw [if_neg (by simp)]
    exact if_pos (by rw [hblock]; decide)

theorem Loaded.buffer_end (h : r.Loaded file file.length) :
    r.buffer = [] ∧ r.contents.length ≤ r.filePos := by
  rw [h.buffer, h.contents, List.drop_length, List.take_nil]
  exact ⟨rfl, h.cur_le⟩

/-- `ReadRecord` at the end of the file. -/
theorem At.readRecord_end (h : r.At file file.length) :
    ∃ r' : Reader, r'.reports = [] ∧ r.readRecord = (none, r') := by
  obtain ⟨hbuffer, hend⟩ := h.buffer_end
  obtain ⟨r', hreports, hread⟩ := readPhysicalRecord_end hbuffer hend []
  refine ⟨{ r' with resyncing := false }, hreports.trans h.reports, ?_⟩
  unfold Reader.readRecord
  rw [if_neg (by rw [h.initialOffset]; exact Nat.not_lt_zero _)]
  exact readRecordLoop_eof hread

end Reader

namespace Writer

theorem Aligned.addRecord {w : Writer} (h : w.Aligned) (record : Bytes) :
    (w.addRecord record).Aligned := h.addFragments true record

theorem prefix_addRecords (w : Writer) (records : List Bytes) :
    w.dest <+: (records.foldl addRecord w).dest := by
  induction records generalizing w with
  | nil => exact List.prefix_rfl
  | cons record records ih => exact (w.prefix_addFragments true record).trans (ih _)

end Writer

/-- Earlier files are prefixes of later ones. -/
theorem prefix_writeLogs (dest : Bytes) (sessions : List (List Bytes)) :
    dest <+: sessions.foldl writeLog dest := by
  induction sessions generalizing dest with
  | nil => exact List.prefix_rfl
  | cons records sessions ih =>
    exact ((Writer.ofFile dest).prefix_addRecords records).trans (ih _)

namespace Reader

variable {r : Reader} {file : Bytes}

/-- The reader returns these records one after the other, then the end of the file, and makes
no report. -/
inductive Reads : Reader → List Bytes → Prop
  | nil {r r' : Reader} (before : r.reports = []) (read : r.readRecord = (none, r'))
      (after : r'.reports = []) : Reads r []
  | cons {r r' : Reader} {record : Bytes} {records : List Bytes} (before : r.reports = [])
      (read : r.readRecord = (some record, r')) (tail : Reads r' records) :
      Reads r (record :: records)

theorem Reads.reports {records : List Bytes} (h : r.Reads records) : r.reports = [] := by
  cases h with
  | nil before read after => exact before
  | cons before read tail => exact before

theorem Reads.readAll {records : List Bytes} (h : r.Reads records) :
    r.readAll.1 = records ∧ r.readAll.2.reports = [] := by
  induction h with
  | nil before read after =>
    rw [readAll_none read]
    exact ⟨rfl, after⟩
  | cons before read tail ih =>
    rw [readAll_some read, ih.1]
    exact ⟨rfl, ih.2⟩

/-- The body of a loop over records, as long as the status is good. -/
def whileOk {σ : Type} (ok : σ → Bool) (body : σ → Bytes → σ) (s : σ) : List Bytes → σ
  | [] => s
  | record :: records => if ok s then whileOk ok body (body s record) records else s

theorem Reads.forRecords {σ : Type} {records : List Bytes} (report : σ → Drop → σ) (ok : σ → Bool)
    (body : σ → Bytes → σ) (s : σ) (h : r.Reads records) :
    r.forRecords report ok body s = whileOk ok body s records := by
  induction h generalizing s with
  | nil before read after =>
    rw [Reader.forRecords]
    split
    · rename_i hread
      rw [read] at hread
      cases hread
      rw [after, List.drop_nil]
      rfl
    · rename_i hread
      rw [read] at hread
      cases hread
  | cons before read tail ih =>
    rw [Reader.forRecords]
    split
    · rename_i hread
      rw [read] at hread
      cases hread
    · rename_i hread
      rw [read] at hread
      cases hread
      rw [tail.reports, List.drop_nil, whileOk]
      change (if ok s then Reader.forRecords report ok body (body s _) _ else s) = _
      rw [ih]

/-- A loop whose status stays good goes over every record. -/
theorem whileOk_eq_foldl {σ : Type} {ok : σ → Bool} {body : σ → Bytes → σ} {s : σ}
    {records : List Bytes} (inv : σ → List Bytes → Prop) (hs : inv s records)
    (hok : ∀ s record records, inv s (record :: records) →
      ok s = true ∧ inv (body s record) records) :
    whileOk ok body s records = records.foldl body s := by
  induction records generalizing s with
  | nil => rfl
  | cons record records ih =>
    obtain ⟨hgood, hnext⟩ := hok s record records hs
    rw [whileOk, if_pos hgood, List.foldl_cons]
    exact ih hnext

/-- A reader at a writer's start reads its records one by one and is at its end then. -/
theorem At.reads_append {w : Writer} (hw : w.Aligned) (records : List Bytes)
    (h : r.At file w.dest.length) (hpre : (records.foldl Writer.addRecord w).dest <+: file) :
    ∃ r' : Reader, r'.At file (records.foldl Writer.addRecord w).dest.length ∧
      ∀ more, r'.Reads more → r.Reads (records ++ more) := by
  induction records generalizing r w with
  | nil => exact ⟨r, h, fun _ hmore => hmore⟩
  | cons record records ih =>
    have hhead := (Writer.prefix_addRecords (w.addRecord record) records).trans hpre
    obtain ⟨r₁, hat, hread⟩ := h.readRecord hw hhead
    obtain ⟨r', hat', hall⟩ := ih (hw.addRecord record) hat hpre
    exact ⟨r', hat', fun more hmore => .cons h.reports hread (hall more hmore)⟩

/-- The same over several writers, each reopening the file of the one before. -/
theorem At.reads_sessions (dest : Bytes) (sessions : List (List Bytes))
    (h : r.At file dest.length) (hfile : sessions.foldl writeLog dest = file) :
    r.Reads sessions.flatten := by
  induction sessions generalizing r dest with
  | nil =>
    subst hfile
    obtain ⟨r', hreports, hread⟩ := h.readRecord_end
    exact .nil h.reports hread hreports
  | cons records sessions ih =>
    have hhead := prefix_writeLogs (writeLog dest records) sessions
    rw [List.foldl_cons] at hfile
    rw [hfile] at hhead
    obtain ⟨r₁, hat, hall⟩ := h.reads_append (Writer.aligned_ofFile dest) records hhead
    exact hall _ (ih _ hat hfile)

end Reader

namespace Writer

/-- The file holds these records, written by this writer and those that were at it before. -/
def Holds (w : Writer) (records : List Bytes) : Prop :=
  ∃ (earlier : List (List Bytes)) (current : List Bytes),
    w = current.foldl addRecord (ofFile (earlier.foldl writeLog [])) ∧
      earlier.flatten ++ current = records

theorem holds_new : (ofFile []).Holds [] := ⟨[], [], rfl, rfl⟩

variable {w : Writer} {records : List Bytes}

theorem Holds.addRecord (h : w.Holds records) (record : Bytes) :
    (w.addRecord record).Holds (records ++ [record]) := by
  obtain ⟨earlier, current, rfl, rfl⟩ := h
  refine ⟨earlier, current ++ [record], ?_, (List.append_assoc ..).symm⟩
  rw [List.foldl_append]
  rfl

/-- Another writer goes on at the end of the file. -/
theorem Holds.reopen (h : w.Holds records) : (ofFile w.dest).Holds records := by
  obtain ⟨earlier, current, rfl, rfl⟩ := h
  refine ⟨earlier ++ [current], [], ?_, by simp⟩
  rw [List.foldl_append]
  rfl

/-- What is in the file is read back. -/
theorem Holds.reads (h : w.Holds records) (checksum : Bool) :
    (Reader.ofFile w.dest checksum 0).Reads records := by
  obtain ⟨earlier, current, rfl, rfl⟩ := h
  have hread := (Reader.at_ofFile _ checksum).reads_sessions [] (earlier ++ [current]) rfl
  rw [List.foldl_append, List.flatten_append, List.flatten_singleton] at hread
  exact hread

end Writer

/-- Records come back from a file as they were written: those of the writers that were at the
file before, then those of a writer that goes on at its length, no corruption, end of file. -/
theorem readAll_writeLog (earlier : List (List Bytes)) (records : List Bytes) (checksum : Bool) :
    let r := Reader.ofFile (writeLog (earlier.foldl writeLog []) records) checksum 0
    r.readAll.1 = earlier.flatten ++ records ∧ r.readAll.2.reports = [] := by
  intro r
  have hholds : (records.foldl Writer.addRecord (.ofFile (earlier.foldl writeLog []))).Holds
      (earlier.flatten ++ records) := ⟨earlier, records, rfl, rfl⟩
  exact (hholds.reads checksum).readAll

end WiscKey.Log
