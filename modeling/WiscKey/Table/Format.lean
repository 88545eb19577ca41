import WiscKey.Core.Crc32c
import WiscKey.Core.Status
import WiscKey.Core.Varint

/-!
# The format of a table file

A block is in a table file with a byte for its type and a masked checksum behind it. A handle tells
where a block is; the footer at the end of the file has the handles of the metaindex block and of
the index block. A function without a result stands for one whose assertion fails or that reads
memory which is not there.
-/

namespace WiscKey

/-- `kBlockTrailerSize`: the type and the checksum. -/
def kBlockTrailerSize : Nat := 5

/-- `kTableMagicNumber`. -/
def kTableMagicNumber : Nat := 0xdb4775248b80fb57

/-- `BlockHandle`. -/
structure BlockHandle where
  offset : Nat
  size : Nat
  deriving DecidableEq, Repr

namespace BlockHandle

/-- `kMaxEncodedLength`. -/
def kMaxEncodedLength : Nat := 10 + 10

/-- The constructor, whose fields are not set. -/
def unset : BlockHandle := ⟨2 ^ 64 - 1, 2 ^ 64 - 1⟩

/-- `EncodeTo`, to an empty string. -/
def encodeTo (h : BlockHandle) : Option Bytes :=
  if h.offset = 2 ^ 64 - 1 ∨ h.size = 2 ^ 64 - 1 then none
  else some (encodeVarint64 h.offset ++ encodeVarint64 h.size)

/-- `DecodeFrom`, with the input behind the handle. -/
def decodeFrom (input : Bytes) : Except Status (BlockHandle × Bytes) :=
  let handle : Option (BlockHandle × Bytes) := do
    let (offset, input) ← getVarint64 input
    let (size, input) ← getVarint64 input
    return (⟨offset, size⟩, input)
  handle.elim (.error (.corruption "bad block handle")) .ok

/-- Both fields are set to numbers of 64 bits. -/
def Fits (h : BlockHandle) : Prop := h.offset < 2 ^ 64 - 1 ∧ h.size < 2 ^ 64 - 1

/-- The bytes of a handle that can be encoded. -/
def bytes (h : BlockHandle) : Bytes := encodeVarint64 h.offset ++ encodeVarint64 h.size

theorem Fits.encodeTo {h : BlockHandle} (hfits : h.Fits) : h.encodeTo = some h.bytes :=
  if_neg fun hor => hor.elim (Nat.ne_of_lt hfits.1) (Nat.ne_of_lt hfits.2)

/-- A handle is read back, whatever follows it. -/
theorem Fits.decodeFrom {h : BlockHandle} (hfits : h.Fits) (rest : Bytes) :
    decodeFrom (h.bytes ++ rest) = .ok (h, rest) := by
  obtain ⟨hoffset, hsize⟩ := hfits
  rw [BlockHandle.decodeFrom, bytes, List.append_assoc,
    getVarint64_encodeVarint64 (by omega), Option.bind_eq_bind, Option.bind_some]
  simp only
  rw [getVarint64_encodeVarint64 (by omega), Option.bind_some]
  rfl

theorem varintLength_le {k v : Nat} (h : v < 2 ^ (7 * k + 7)) : varintLength v ≤ k + 1 := by
  induction k generalizing v with
  | zero =>
    rw [varintLength, if_neg (by omega)]
  | succ k ih =>
    rw [varintLength]
    split_ifs
    · have hshift : v >>> 7 < 2 ^ (7 * k + 7) := by
        rw [Nat.shiftRight_eq_div_pow, Nat.div_lt_iff_lt_mul (by decide), ← pow_add]
        exact h
      exact Nat.succ_le_succ (ih hshift)
    · exact Nat.succ_le_succ (Nat.zero_le _)

/-- A handle has at most 20 bytes. -/
theorem Fits.length_bytes {h : BlockHandle} (hfits : h.Fits) :
    h.bytes.length ≤ kMaxEncodedLength := by
  obtain ⟨hoffset, hsize⟩ := hfits
  have hwide : (2 : Nat) ^ 64 - 1 ≤ 2 ^ (7 * 9 + 7) := by decide
  have ho := varintLength_le (k := 9) (Nat.lt_of_lt_of_le hoffset hwide)
  have hs := varintLength_le (k := 9) (Nat.lt_of_lt_of_le hsize hwide)
  rw [bytes, List.length_append, length_encodeVarint64, length_encodeVarint64, kMaxEncodedLength]
  omega

end BlockHandle

/-- `Footer`. -/
structure Footer where
  metaindexHandle : BlockHandle
  indexHandle : BlockHandle
  deriving DecidableEq, Repr

namespace Footer

/-- `kEncodedLength`. -/
def kEncodedLength : Nat := 2 * BlockHandle.kMaxEncodedLength + 8

/-- `std::string::resize`. -/
def resize (dst : Bytes) (n : Nat) : Bytes := dst.take n ++ List.replicate (n - dst.length) 0

/-- `EncodeTo`, to an empty string. -/
def encodeTo (f : Footer) : Option Bytes := do
  let metaindex ← f.metaindexHandle.encodeTo
  let index ← f.indexHandle.encodeTo
  return resize (metaindex ++ index) (2 * BlockHandle.kMaxEncodedLength) ++
    (encodeFixed32 (kTableMagicNumber &&& 0xffffffff) ++ encodeFixed32 (kTableMagicNumber >>> 32))

/-- `DecodeFrom`, of the bytes of a footer. -/
def decodeFrom (input : Bytes) : Option (Except Status Footer) :=
  if input.length < kEncodedLength then none
  else
    let magicLo := decodeFixed32 (input.drop (kEncodedLength - 8))
    let magicHi := decodeFixed32 (input.drop (kEncodedLength - 4))
    if (magicHi <<< 32 ||| magicLo) ≠ kTableMagicNumber then
      some (.error (.corruption "not an sstable (bad magic number)"))
    else some do
      let (metaindexHandle, input) ← BlockHandle.decodeFrom input
      let (indexHandle, _) ← BlockHandle.decodeFrom input
      return ⟨metaindexHandle, indexHandle⟩

/-- The bytes of a footer whose handles can be encoded. -/
def bytes (f : Footer) : Bytes :=
  f.metaindexHandle.bytes ++ (f.indexHandle.bytes ++
    (List.replicate (40 - (f.metaindexHandle.bytes ++ f.indexHandle.bytes).length) (0 : UInt8) ++
      (encodeFixed32 (kTableMagicNumber &&& 0xffffffff) ++
        encodeFixed32 (kTableMagicNumber >>> 32))))

variable {f : Footer}

theorem encodeTo_eq (hmeta : f.metaindexHandle.Fits) (hindex : f.indexHandle.Fits) :
    f.encodeTo = some f.bytes := by
  have hm := hmeta.length_bytes
  have hi := hindex.length_bytes
  have htake : (f.metaindexHandle.bytes ++ f.indexHandle.bytes).take
      (2 * BlockHandle.kMaxEncodedLength) = f.metaindexHandle.bytes ++ f.indexHandle.bytes := by
    refine List.take_of_length_le ?_
    rw [List.length_append]
    omega
  rw [encodeTo, hmeta.encodeTo, hindex.encodeTo]
  simp only [Option.bind_eq_bind, Option.bind_some, Option.pure_def, resize, htake]
  rw [bytes, List.append_assoc, List.append_assoc]
  rfl

theorem length_bytes (hmeta : f.metaindexHandle.Fits) (hindex : f.indexHandle.Fits) :
    f.bytes.length = kEncodedLength := by
  have hm := hmeta.length_bytes
  have hi := hindex.length_bytes
  rw [BlockHandle.kMaxEncodedLength] at hm hi
  simp only [bytes, List.length_append, List.length_replicate, encodeFixed32, length_encodeFixed,
    kEncodedLength, BlockHandle.kMaxEncodedLength]
  omega

/-- A footer is read back. -/
theorem decodeFrom_bytes (hmeta : f.metaindexHandle.Fits) (hindex : f.indexHandle.Fits) :
    decodeFrom f.bytes = some (.ok f) := by
  have hm := hmeta.length_bytes
  have hi := hindex.length_bytes
  rw [BlockHandle.kMaxEncodedLength] at hm hi
  have hlo : f.bytes.drop (kEncodedLength - 8) = encodeFixed32 (kTableMagicNumber &&& 0xffffffff) ++
      encodeFixed32 (kTableMagicNumber >>> 32) := by
    rw [bytes, ← List.append_assoc, ← List.append_assoc]
    refine List.drop_left' ?_
    simp only [List.length_append, List.length_replicate, kEncodedLength,
      BlockHandle.kMaxEncodedLength]
    omega
  have hhi : f.bytes.drop (kEncodedLength - 4) =
      encodeFixed32 (kTableMagicNumber >>> 32) ++ [] := by
    have hplace : kEncodedLength - 4 = kEncodedLength - 8 + 4 := by decide
    rw [hplace, ← List.drop_drop, hlo, List.append_nil]
    exact List.drop_left' (length_encodeFixed 4 _)
  rw [decodeFrom, if_neg (by rw [length_bytes hmeta hindex]; exact Nat.lt_irrefl _)]
  simp only
  rw [hlo, hhi, decodeFixed32_encodeFixed32 (by decide), decodeFixed32_encodeFixed32 (by decide),
    if_neg (by decide), bytes, hmeta.decodeFrom]
  simp only [bind, Except.bind]
  rw [hindex.decodeFrom]
  rfl

end Footer

/-- `CompressionType`. -/
inductive CompressionType
  | noCompression
  | snappyCompression
  deriving DecidableEq, Repr

/-- The byte of a compression type. -/
def CompressionType.code : CompressionType → UInt8
  | .noCompression => 0
  | .snappyCompression => 1

/-- The port to the snappy library, which may be missing: what is compressed can be uncompressed. -/
structure Snappy where
  compress : Bytes → Option Bytes
  uncompress : Bytes → Option Bytes
  uncompress_compress : ∀ {raw compressed}, compress raw = some compressed →
    uncompress compressed = some raw

/-- The bytes behind a block: its type, and the checksum of both. -/
def blockTrailer (contents : Bytes) (type : CompressionType) : Bytes :=
  type.code :: encodeFixed32 (Crc32c.mask (Crc32c.extend (Crc32c.value contents) [type.code])).toNat

/-- `ReadBlock`. -/
def readBlock (snappy : Snappy) (verifyChecksums : Bool) (file : Bytes) (handle : BlockHandle) :
    Option (Except Status Bytes) :=
  let n := handle.size
  if 2 ^ 64 ≤ n + kBlockTrailerSize then none
  else
    let contents := (file.drop handle.offset).take (n + kBlockTrailerSize)
    if contents.length ≠ n + kBlockTrailerSize then
      some (.error (.corruption "truncated block read"))
    else if verifyChecksums ∧ Crc32c.value (contents.take (n + 1)) ≠
        Crc32c.unmask (BitVec.ofNat 32 (decodeFixed32 (contents.drop (n + 1)))) then
      some (.error (.corruption "block checksum mismatch"))
    else
      match contents[n]? with
      | none => none
      | some type =>
        if type = CompressionType.code .noCompression then some (.ok (contents.take n))
        else if type = CompressionType.code .snappyCompression then
          match snappy.uncompress (contents.take n) with
          | some raw => some (.ok raw)
          | none => some (.error (.corruption "corrupted compressed block contents"))
        else some (.error (.corruption "bad block type"))

/-- The contents of a block are stored under a type. -/
def Stores (snappy : Snappy) (raw contents : Bytes) : CompressionType → Prop
  | .noCompression => contents = raw
  | .snappyCompression => snappy.uncompress contents = some raw

theorem length_blockTrailer (contents : Bytes) (type : CompressionType) :
    (blockTrailer contents type).length = kBlockTrailerSize := by
  rw [blockTrailer, List.length_cons, encodeFixed32, length_encodeFixed, kBlockTrailerSize]

/-- A block is read back from its place in a file. -/
theorem readBlock_stored {snappy : Snappy} {raw contents : Bytes} {type : CompressionType}
    (verifyChecksums : Bool) (front back : Bytes) (h : Stores snappy raw contents type)
    (hsize : contents.length + kBlockTrailerSize < 2 ^ 64) :
    readBlock snappy verifyChecksums (front ++ (contents ++ blockTrailer contents type ++ back))
      ⟨front.length, contents.length⟩ = some (.ok raw) := by
  have hlength : (contents ++ blockTrailer contents type).length =
      contents.length + kBlockTrailerSize := by
    rw [List.length_append, length_blockTrailer]
  have hread : ((front ++ (contents ++ blockTrailer contents type ++ back)).drop front.length).take
      (contents.length + kBlockTrailerSize) = contents ++ blockTrailer contents type := by
    rw [List.drop_left, ← hlength, List.take_left]
  have htype : (contents ++ blockTrailer contents type)[contents.length]? = some type.code := by
    rw [List.getElem?_append_right le_rfl, Nat.sub_self]
    rfl
  have hfront : (contents ++ blockTrailer contents type).take (contents.length + 1) =
      contents ++ [type.code] := by
    rw [List.take_length_add_append]
    rfl
  have hcrc : (contents ++ blockTrailer contents type).drop (contents.length + 1) =
      encodeFixed32 (Crc32c.mask (Crc32c.extend (Crc32c.value contents) [type.code])).toNat := by
    rw [List.drop_length_add_append]
    rfl
  have hsum : Crc32c.value (contents ++ [type.code]) =
      Crc32c.unmask (BitVec.ofNat 32 (decodeFixed32 (encodeFixed32
        (Crc32c.mask (Crc32c.extend (Crc32c.value contents) [type.code])).toNat))) := by
    have hdecode := decodeFixed32_encodeFixed32 (BitVec.isLt
      (Crc32c.mask (Crc32c.extend (Crc32c.value contents) [type.code]))) []
    rw [List.append_nil] at hdecode
    rw [hdecode, BitVec.ofNat_toNat, BitVec.setWidth_eq, Crc32c.unmask_mask, Crc32c.value,
      Crc32c.extend_append]
    rfl
  rw [readBlock]
  simp only
  rw [if_neg (Nat.not_le.mpr hsize), hread, if_neg (not_not.mpr hlength), hfront, hcrc,
    if_neg fun hbad => hbad.2 hsum, htype, List.take_left]
  cases type with
  | noCompression =>
    simp only [if_true]
    exact congrArg (fun c => some (Except.ok c)) h
  | snappyCompression =>
    have huncompress : snappy.uncompress contents = some raw := h
    simp only [if_true]
    rw [if_neg (by decide), huncompress]

end WiscKey
