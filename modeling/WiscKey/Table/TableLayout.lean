import WiscKey.Table.BlockIterator
import WiscKey.Table.TableBuilder
import Mathlib.Data.List.Perm.Subperm

/-!
# What a table builder has written

The blocks in the file and those that are not written yet hold the entries that were added, in
order, and the index keys are between the blocks. This is kept by every call of a builder whose file
reports no failure.
-/

namespace WiscKey

/-- What an entry takes in a table at most, with its part of a block's trailer and of the index. -/
def entrySize (e : Bytes × Bytes) : Nat := e.1.length + e.2.length + 40

/-- What entries take in a table at most. -/
def entriesSize (entries : List (Bytes × Bytes)) : Nat := (entries.map entrySize).sum

section Sizes

variable {rows : List BlockRow} {points : List Nat} {interval : Nat} {b : BlockBuilder}

theorem entriesSize_append (l m : List (Bytes × Bytes)) :
    entriesSize (l ++ m) = entriesSize l + entriesSize m := by
  rw [entriesSize, List.map_append, List.sum_append, entriesSize, entriesSize]

theorem entriesSize_cons (e : Bytes × Bytes) (l : List (Bytes × Bytes)) :
    entriesSize (e :: l) = entrySize e + entriesSize l := by
  rw [entriesSize, List.map_cons, List.sum_cons, entriesSize]

theorem entrySize_le {e : Bytes × Bytes} {l : List (Bytes × Bytes)} (h : e ∈ l) :
    entrySize e ≤ entriesSize l := by
  obtain ⟨front, back, rfl⟩ := List.append_of_mem h
  rw [entriesSize_append, entriesSize_cons]
  omega

theorem mul_length_le_entriesSize (l : List (Bytes × Bytes)) : 40 * l.length ≤ entriesSize l := by
  induction l with
  | nil => exact le_rfl
  | cons e l ih =>
    rw [entriesSize_cons, List.length_cons, entrySize]
    omega

theorem length_encodeVarint32_le (v : Nat) : (encodeVarint32 (v % 2 ^ 32)).length ≤ 5 := by
  have hlt : v % 2 ^ 32 < 2 ^ 32 := Nat.mod_lt _ (by decide)
  rw [encodeVarint32_eq hlt, length_encodeVarint64]
  exact BlockHandle.varintLength_le (k := 4) (hlt.trans (by decide))

theorem BlockRow.length_bytes_le (r : BlockRow) :
    r.bytes.length ≤ r.key.length + r.value.length + 15 := by
  have hshared := length_encodeVarint32_le r.shared
  have hkey := length_encodeVarint32_le (r.key.length - r.shared)
  have hvalue := length_encodeVarint32_le r.value.length
  simp only [BlockRow.bytes, List.length_append, List.length_drop]
  omega

/-- There are no more restart points than entries, apart from the one of an empty block. -/
theorem RowsOk.length_points (h : RowsOk rows points) : points.length ≤ rows.length + 1 := by
  have hsub : points ⊆ List.range (rows.length + 1) := by
    intro r hr
    rw [List.mem_range]
    rcases h.inside r hr with hlt | ⟨rfl, rfl⟩
    · exact Nat.lt_succ_of_lt hlt
    · exact Nat.succ_pos _
  have hnodup : points.Nodup := h.increasing.imp fun hlt => Nat.ne_of_lt hlt
  have hle := (hnodup.subperm hsub).length_le
  rwa [List.length_range] at hle

/-- A finished block is not much longer than its entries. -/
theorem length_finish_le (h : BlockBuilder.Builds interval b rows points) :
    b.finish.length + rows.length * 21 ≤ entriesSize (rowEntries rows) + 8 := by
  have hpoints := h.ok.length_points
  have hbuffer : b.buffer.length + rows.length * 25 ≤ entriesSize (rowEntries rows) := by
    rw [h.buffer]
    clear h hpoints
    induction rows with
    | nil => exact Nat.zero_le _
    | cons r rows ih =>
      have hr := r.length_bytes_le
      rw [rowEntries, entriesSize] at ih ⊢
      simp only [List.map_cons, List.flatten_cons, List.length_append, List.length_cons,
        List.sum_cons, entrySize]
      omega
  rw [BlockBuilder.finish, List.length_append, List.length_append, length_fixed32Array,
    h.restarts, List.length_map, encodeFixed32, length_encodeFixed]
  omega

end Sizes

section Writes

variable {f : WritableFile} {data : Bytes} {t : TableBuilder} {snappy : Snappy}

/-- A call of a file that reports no failure has put everything there. -/
theorem WritableFile.contents_append (h : (f.append data).2 = .ok) :
    (f.append data).1.contents = f.contents ++ data := by
  rw [append] at h ⊢
  split at h
  · rfl
  · rfl
  · rename_i fault faults _
    exact absurd h fault.failed

/-- Without a failure a block is in the file with its trailer. -/
theorem TableBuilder.writeRawBlock_spec (t : TableBuilder) (contents : Bytes)
    (type : CompressionType) : ∃ file status offset,
      t.writeRawBlock contents type = ({ t with file := file, status := status, offset := offset },
        ⟨t.offset, contents.length⟩) ∧
      (status ≠ .ok → offset = t.offset) ∧
      (status = .ok → offset = (t.offset + (contents.length + kBlockTrailerSize)) % 2 ^ 64 ∧
        file.contents = t.file.contents ++ (contents ++ blockTrailer contents type)) := by
  rw [writeRawBlock]
  simp only
  split_ifs with hcontents htrailer
  · refine ⟨_, _, _, rfl, fun hnot => absurd htrailer hnot, fun _ => ⟨rfl, ?_⟩⟩
    rw [WritableFile.contents_append htrailer, WritableFile.contents_append hcontents,
      List.append_assoc]
  · exact ⟨_, _, _, rfl, fun _ => rfl, fun hok => absurd hok htrailer⟩
  · exact ⟨_, _, _, rfl, fun _ => rfl, fun hok => absurd hok hcontents⟩

/-- What is stored for a block is not longer than the block. -/
theorem TableBuilder.stores_storedBlock (snappy : Snappy) (compression : CompressionType)
    (raw : Bytes) :
    Stores snappy raw (storedBlock snappy compression raw).1
        (storedBlock snappy compression raw).2 ∧
      (storedBlock snappy compression raw).1.length ≤ raw.length := by
  cases compression with
  | noCompression => exact ⟨rfl, le_rfl⟩
  | snappyCompression =>
    rw [storedBlock.eq_def]
    cases hcompress : snappy.compress raw with
    | none => exact ⟨rfl, le_rfl⟩
    | some compressed =>
      simp only
      split_ifs with hshort
      · exact ⟨snappy.uncompress_compress hcompress,
          Nat.le_of_lt (Nat.lt_of_lt_of_le hshort (Nat.sub_le _ _))⟩
      · exact ⟨rfl, le_rfl⟩

/-- A block is in a file, and is read back whatever is put behind it. -/
structure StoredIn (snappy : Snappy) (file : Bytes) (handle : BlockHandle) (raw : Bytes) :
    Prop where
  fits : handle.Fits
  read : ∀ verify back, readBlock snappy verify (file ++ back) handle = some (.ok raw)

theorem StoredIn.append {file raw : Bytes} {handle : BlockHandle}
    (h : StoredIn snappy file handle raw) (more : Bytes) :
    StoredIn snappy (file ++ more) handle raw := by
  refine ⟨h.fits, fun verify back => ?_⟩
  rw [List.append_assoc]
  exact h.read verify _

/-- A block that was written is in the file. -/
theorem storedIn_write {front raw contents : Bytes} {type : CompressionType}
    (h : Stores snappy raw contents type) (hfront : front.length + contents.length < 2 ^ 63) :
    StoredIn snappy (front ++ (contents ++ blockTrailer contents type))
      ⟨front.length, contents.length⟩ raw := by
  refine ⟨⟨by simp only; omega, by simp only; omega⟩, fun verify back => ?_⟩
  have hread := readBlock_stored verify front back h (by rw [kBlockTrailerSize]; omega)
  rwa [← List.append_assoc] at hread

end Writes

/-- A data block that was written, with the rows that it was built from. -/
structure WrittenBlock where
  handle : BlockHandle
  raw : Bytes
  rows : List BlockRow

namespace WrittenBlock

/-- The entries of the block. -/
def entries (wb : WrittenBlock) : List (Bytes × Bytes) := rowEntries wb.rows

/-- The block is in a file. -/
structure InFile (snappy : Snappy) (file : Bytes) (wb : WrittenBlock) : Prop where
  nonempty : wb.entries ≠ []
  stored : StoredIn snappy file wb.handle wb.raw
  laid : ∃ points, (Block.new wb.raw).Laid wb.rows points

theorem InFile.append {snappy : Snappy} {file : Bytes} {wb : WrittenBlock}
    (h : wb.InFile snappy file) (more : Bytes) : wb.InFile snappy (file ++ more) :=
  ⟨h.nonempty, h.stored.append more, h.laid⟩

end WrittenBlock

/-- The data blocks of a table: those with their index keys, the one whose index key waits for the
key behind it, and the rows of the one that is not written. -/
structure TableLayout where
  indexed : List (Bytes × WrittenBlock)
  pending : Option WrittenBlock
  rows : List BlockRow

/-- An index key is below an entry, and was made from a key of its block and one that is not behind
the entry. -/
structure Separates (cmp : TableComparator) (d : Bytes × WrittenBlock) (x : Bytes × Bytes) :
    Prop where
  lt : cmp.compare d.1 x.1 = .lt
  made : ∃ a ∈ d.2.entries, ∃ limit, d.1 = cmp.findShortestSeparator a.1 limit ∧
    cmp.compare limit x.1 ≠ .gt

theorem Separates.trans {cmp : TableComparator} {d : Bytes × WrittenBlock} {x y : Bytes × Bytes}
    (h : Separates cmp d x) (hlt : cmp.compare x.1 y.1 = .lt) : Separates cmp d y := by
  obtain ⟨a, ha, limit, hmade, hle⟩ := h.made
  refine ⟨Std.TransCmp.lt_trans h.lt hlt, a, ha, limit, hmade, ?_⟩
  rw [lt_of_not_gt_of_lt hle hlt]
  exact Ordering.noConfusion

/-- The index keys are at or above the keys of their blocks, and below all keys behind these. None is
longer than all keys of its block. -/
structure KeysOrdered (cmp : TableComparator) (indexed : List (Bytes × WrittenBlock))
    (rest : List (Bytes × Bytes)) : Prop where
  length : ∀ d ∈ indexed, ∃ x ∈ d.2.entries, d.1.length ≤ x.1.length
  atMost : ∀ d ∈ indexed, ∀ x ∈ d.2.entries, cmp.compare x.1 d.1 ≠ .gt
  below : indexed.Pairwise fun d d' => ∀ x ∈ d'.2.entries, Separates cmp d x
  behind : ∀ d ∈ indexed, ∀ x ∈ rest, Separates cmp d x

namespace KeysOrdered

variable {cmp : TableComparator} {indexed : List (Bytes × WrittenBlock)}
  {rest : List (Bytes × Bytes)} {wb : WrittenBlock} {key value : Bytes}

theorem nil (cmp : TableComparator) (rest : List (Bytes × Bytes)) : KeysOrdered cmp [] rest where
  length d hd := by cases hd
  atMost d hd := by cases hd
  below := List.Pairwise.nil
  behind d hd := by cases hd

/-- A key behind the others, where there are others. -/
theorem concat (h : KeysOrdered cmp indexed rest) (hrest : rest = [] → indexed = [])
    (hkey : ∀ x ∈ rest, cmp.compare x.1 key = .lt) :
    KeysOrdered cmp indexed (rest ++ [(key, value)]) where
  length := h.length
  atMost := h.atMost
  below := h.below
  behind d hd x hx := by
    rcases List.mem_append.mp hx with hx | hx
    · exact h.behind d hd x hx
    · rw [List.mem_singleton.mp hx]
      cases rest with
      | nil =>
        rw [hrest rfl] at hd
        cases hd
      | cons y rest =>
        exact (h.behind d hd y List.mem_cons_self).trans (hkey y List.mem_cons_self)

/-- An index key between the last block and all that is behind it. -/
theorem index {indexKey : Bytes} (h : KeysOrdered cmp indexed wb.entries)
    (hlength : ∃ x ∈ wb.entries, indexKey.length ≤ x.1.length)
    (hmost : ∀ x ∈ wb.entries, cmp.compare x.1 indexKey ≠ .gt)
    (hindex : ∀ x ∈ rest, Separates cmp (indexKey, wb) x)
    (hrest : ∀ d ∈ indexed, ∀ x ∈ rest, Separates cmp d x) :
    KeysOrdered cmp (indexed ++ [(indexKey, wb)]) rest where
  length d hd := by
    rcases List.mem_append.mp hd with hd | hd
    · exact h.length d hd
    · rw [List.mem_singleton.mp hd]
      exact hlength
  atMost d hd := by
    rcases List.mem_append.mp hd with hd | hd
    · exact h.atMost d hd
    · rw [List.mem_singleton.mp hd]
      exact hmost
  below := by
    refine List.pairwise_append.mpr ⟨h.below, List.pairwise_singleton .., fun d hd d' hd' => ?_⟩
    rw [List.mem_singleton.mp hd']
    exact h.behind d hd
  behind d hd := by
    rcases List.mem_append.mp hd with hd | hd
    · exact hrest d hd
    · rw [List.mem_singleton.mp hd]
      exact hindex

/-- An index entry takes less room than an entry of its block. -/
theorem size_index (h : KeysOrdered cmp indexed rest) (hfits : ∀ d ∈ indexed, d.2.handle.Fits) :
    entriesSize (indexed.map fun d => (d.1, d.2.handle.bytes)) ≤
      entriesSize (indexed.flatMap fun d => d.2.entries) + indexed.length * 20 := by
  have hsize : ∀ d ∈ indexed, entrySize (d.1, d.2.handle.bytes) ≤ entriesSize d.2.entries + 20 := by
    intro d hd
    obtain ⟨x, hx, hle⟩ := h.length d hd
    have hhandle : d.2.handle.bytes.length ≤ 20 := (hfits d hd).length_bytes
    have hentry := entrySize_le hx
    rw [entrySize] at hentry ⊢
    simp only
    omega
  clear h hfits
  induction indexed with
  | nil => exact Nat.zero_le _
  | cons d indexed ih =>
    have hd := hsize d List.mem_cons_self
    have hrest := ih fun d' hd' => hsize d' (List.mem_cons_of_mem _ hd')
    rw [List.flatMap_cons, entriesSize_append, List.map_cons, entriesSize_cons, List.length_cons]
    omega

/-- The index keys go up. -/
theorem index_lt (h : KeysOrdered cmp indexed rest) (hblocks : ∀ d ∈ indexed, d.2.entries ≠ []) :
    indexed.Pairwise fun d d' => cmp.compare d.1 d'.1 = .lt := by
  refine (List.Pairwise.and_mem.mp h.below).imp fun {d d'} hlt => ?_
  obtain ⟨-, hd', hbelow⟩ := hlt
  obtain ⟨x, hx⟩ := List.exists_mem_of_ne_nil _ (hblocks d' hd')
  exact lt_of_lt_of_not_gt (hbelow x hx).lt (h.atMost d' hd' x hx)

end KeysOrdered

namespace TableLayout

variable (l : TableLayout)

/-- The blocks that are written. -/
def blocks : List WrittenBlock := l.indexed.map Prod.snd ++ l.pending.toList

/-- The entries of the blocks that are written. -/
def written : List (Bytes × Bytes) := l.blocks.flatMap WrittenBlock.entries

/-- The entries behind the blocks with index keys. -/
def rest : List (Bytes × Bytes) :=
  l.pending.toList.flatMap WrittenBlock.entries ++ rowEntries l.rows

/-- All entries. -/
def entries : List (Bytes × Bytes) := l.written ++ rowEntries l.rows

/-- The entries of the index block. -/
def indexEntries : List (Bytes × Bytes) := l.indexed.map fun d => (d.1, d.2.handle.bytes)

/-- The keys with the offsets of their blocks; the open block is at the end of the file. -/
def seen (offset : Nat) : List (Nat × Bytes) :=
  l.blocks.flatMap (fun wb => wb.rows.map fun r => (wb.handle.offset, r.key)) ++
    l.rows.map fun r => (offset, r.key)

theorem length_seen (offset : Nat) : (l.seen offset).length = l.entries.length := by
  simp [seen, entries, written, WrittenBlock.entries, rowEntries, List.length_flatMap]

/-- Where no entry is in the open block, the blocks with index keys have all of them. -/
theorem entries_of_indexed (hrows : l.rows = []) {indexed : List (Bytes × WrittenBlock)}
    (hblocks : indexed.map Prod.snd = l.blocks) :
    indexed.flatMap (fun d => d.2.entries) = l.entries := by
  rw [entries, hrows, written, ← hblocks, List.flatMap_map]
  exact (List.append_nil _).symm

/-- A table whose offsets have 32 bits has few enough keys for an `int`. -/
theorem length_seen_lt (hsmall : entriesSize l.entries + 8 < 2 ^ 32) (offset : Nat) :
    (l.seen offset).length < 2 ^ 31 := by
  have hlength := mul_length_le_entriesSize l.entries
  rw [length_seen]
  omega

end TableLayout

/-- A filter of some keys has at most so many bytes for each of them. -/
def FilterPolicy.Bounded (p : FilterPolicy) (n : Nat) : Prop :=
  ∀ (keys : List Bytes) (m : Nat) (dst : Bytes), 0 < m → m ≤ keys.length → m < 2 ^ 31 →
    (p.createFilter keys m dst).length ≤ n * m

/-- The filter block has all keys with the offsets of their blocks, and a filter for each range of
the file up to its end. -/
structure FiltersBuilt (p : FilterPolicy) (n : Nat) (seen : List (Nat × Bytes)) (offset : Nat)
    (b : FilterBlockBuilder) : Prop where
  holds : ∃ pending filters, FilterBlockBuilder.Holds p seen pending filters b ∧
    filters.length = offset / kFilterBase
  size : b.result.length + n * b.start.length ≤ n * seen.length

/-- There is a filter block builder if there is a policy. -/
def FilterState (options : TableOptions) (n : Nat) (seen : List (Nat × Bytes)) (offset : Nat) :
    Option FilterBlockBuilder → Prop
  | none => options.filterPolicy = none
  | some b => ∃ policy, options.filterPolicy = some policy ∧
      FiltersBuilt policy.toFilterPolicy n seen offset b

/-- The builder has written the blocks of a layout, and its file has reported no failure. -/
structure Building (snappy : Snappy) (options : TableOptions) (n : Nat) (l : TableLayout)
    (t : TableBuilder) : Prop where
  options_eq : t.options = options
  opened : t.closed = false
  ok : t.status = .ok
  offset : t.offset = t.file.contents.length
  small : t.offset ≤ entriesSize l.written
  numEntries : t.numEntries = l.entries.length
  lastKey : t.lastKey = (l.entries.getLast?.map Prod.fst).getD []
  data : ∃ points, BlockBuilder.Builds options.blockRestartInterval t.dataBlock l.rows points
  index : ∃ rows points, BlockBuilder.Builds 1 t.indexBlock rows points ∧
    rowEntries rows = l.indexEntries
  waiting : t.pendingIndexEntry = l.pending.isSome
  handle : ∀ wb, l.pending = some wb → t.pendingHandle = wb.handle ∧ l.rows = []
  idle : l.rest = [] → l.indexed = []
  inFile : ∀ wb ∈ l.blocks, wb.InFile snappy t.file.contents
  offsets : l.blocks.Pairwise fun wb wb' => wb.handle.offset < wb'.handle.offset
  before : ∀ wb ∈ l.blocks, wb.handle.offset < t.offset
  sorted : Increasing options.comparator.compare (l.entries.map Prod.fst)
  ordered : KeysOrdered options.comparator l.indexed l.rest
  filters : FilterState options n (l.seen t.offset) t.offset t.filterBlock

end WiscKey
