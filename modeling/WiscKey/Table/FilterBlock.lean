import WiscKey.Table.FilterPolicy
import WiscKey.Core.Status
import WiscKey.Library.Segments

/-!
# Filter blocks

A filter block holds one filter for each range of 2 KB of block offsets, the places of the
filters, and the place of these. A read of the block is checked against its end: a read outside
has no value here.
-/

namespace WiscKey

/-- `kFilterBaseLg`. -/
def kFilterBaseLg : Nat := 11

/-- `kFilterBase`. -/
def kFilterBase : Nat := 1 <<< kFilterBaseLg

/-- `FilterBlockBuilder`, without its policy and its scratch space. -/
structure FilterBlockBuilder where
  keys : Bytes
  start : List Nat
  result : Bytes
  filterOffsets : List Nat
  deriving DecidableEq, Repr

namespace FilterBlockBuilder

variable (p : FilterPolicy)

/-- The constructor. -/
def init : FilterBlockBuilder := ⟨[], [], [], []⟩

/-- The keys cut out of the flattened key contents. -/
def tmpKeys (b : FilterBlockBuilder) : List Bytes :=
  let start := b.start ++ [b.keys.length]
  (List.range b.start.length).map fun i =>
    (b.keys.drop (start.getD i 0)).take (start.getD (i + 1) 0 - start.getD i 0)

/-- `GenerateFilter`; a filter offset has 32 bits, and the number of keys is cast to an `int`. -/
def generateFilter (b : FilterBlockBuilder) : FilterBlockBuilder :=
  let numKeys := b.start.length
  let filterOffsets := b.filterOffsets ++ [b.result.length % 2 ^ 32]
  if numKeys = 0 then { b with filterOffsets }
  else ⟨[], [], b.result ++ p.createFilter b.tmpKeys (toInt32 numKeys) b.result, filterOffsets⟩

theorem length_generateFilter (b : FilterBlockBuilder) :
    (b.generateFilter p).filterOffsets.length = b.filterOffsets.length + 1 := by
  unfold generateFilter
  simp only
  split_ifs <;> rw [List.length_append, List.length_singleton]

/-- The loop of `StartBlock`. -/
def generateUntil (filterIndex : Nat) (b : FilterBlockBuilder) : FilterBlockBuilder :=
  if b.filterOffsets.length < filterIndex then generateUntil filterIndex (b.generateFilter p)
  else b
termination_by filterIndex - b.filterOffsets.length
decreasing_by
  rw [length_generateFilter]
  omega

/-- `StartBlock`; none where its assertion fails. -/
def startBlock (b : FilterBlockBuilder) (blockOffset : Nat) : Option FilterBlockBuilder :=
  let filterIndex := blockOffset / kFilterBase
  if b.filterOffsets.length ≤ filterIndex then some (b.generateUntil p filterIndex) else none

/-- `AddKey`. -/
def addKey (b : FilterBlockBuilder) (key : Bytes) : FilterBlockBuilder :=
  { b with start := b.start ++ [b.keys.length], keys := b.keys ++ key }

/-- A `StartBlock` and the keys behind it. -/
def addBlock (b : FilterBlockBuilder) (block : Nat × List Bytes) : Option FilterBlockBuilder :=
  (b.startBlock p block.1).map fun b => block.2.foldl addKey b

/-- The last filter, which `Finish` generates. -/
def lastFilter (b : FilterBlockBuilder) : FilterBlockBuilder :=
  if b.start.isEmpty then b else b.generateFilter p

/-- What `Finish` puts behind the filters: their offsets, the offset of these, and the encoding
parameter. -/
def trailer (b : FilterBlockBuilder) : Bytes :=
  b.filterOffsets.flatMap encodeFixed32 ++ encodeFixed32 (b.result.length % 2 ^ 32) ++
    [UInt8.ofNat kFilterBaseLg]

/-- `Finish`. -/
def finish (b : FilterBlockBuilder) : Bytes :=
  let b := b.lastFilter p
  b.result ++ b.trailer

/-- The calls of a builder up to `Finish`. -/
def addBlocks (blocks : List (Nat × List Bytes)) : Option FilterBlockBuilder :=
  blocks.foldlM (addBlock p) init

end FilterBlockBuilder

/-- A read of four bytes, if they are inside the contents. -/
def readFixed32 (contents : Bytes) (pos : Nat) : Option Nat :=
  if pos + 4 ≤ contents.length then some (decodeFixed32 (contents.drop pos)) else none

/-- `FilterBlockReader`: the contents, the place of the offset array in them, its length, and the
encoding parameter. -/
structure FilterBlockReader where
  data : Bytes
  offset : Nat
  num : Nat
  baseLg : Nat
  deriving DecidableEq, Repr

namespace FilterBlockReader

/-- The constructor; none where it reads outside the contents. -/
def new (contents : Bytes) : Option FilterBlockReader :=
  let n := contents.length
  if n < 5 then some ⟨[], 0, 0, 0⟩
  else do
    let baseLg ← contents[n - 1]?
    let lastWord ← readFixed32 contents (n - 5)
    if n - 5 < lastWord then some ⟨[], 0, 0, baseLg.toNat⟩
    else some ⟨contents, lastWord, (n - 5 - lastWord) / 4, baseLg.toNat⟩

/-- `block_offset >> base_lg_`. A shift by 64 bits or more has no defined value: it is `wide`. -/
def filterIndex (r : FilterBlockReader) (wide blockOffset : Nat) : Nat :=
  if r.baseLg < 64 then blockOffset >>> r.baseLg else wide

/-- `KeyMayMatch`; none where it reads outside the contents. -/
def keyMayMatch (p : FilterPolicy) (r : FilterBlockReader) (wide blockOffset : Nat) (key : Bytes) :
    Option Bool :=
  let index := r.filterIndex wide blockOffset
  if index < r.num then do
    let start ← readFixed32 r.data (r.offset + index * 4)
    let limit ← readFixed32 r.data (r.offset + index * 4 + 4)
    if start ≤ limit ∧ limit ≤ r.offset then
      if limit ≤ r.data.length then
        some (p.keyMayMatch key ((r.data.drop start).take (limit - start)))
      else none
    else if start = limit then some false
    else some true
  else some true

/-- The offset array and its elements are inside the contents. -/
def WellPlaced (r : FilterBlockReader) : Prop :=
  r.num = 0 ∨ r.offset + r.num * 4 + 4 < r.data.length

theorem readFixed32_of_le {contents : Bytes} {pos : Nat} (h : pos + 4 ≤ contents.length) :
    readFixed32 contents pos = some (decodeFixed32 (contents.drop pos)) := if_pos h

/-- The constructor reads inside the contents, and finds room for what it is told is there. -/
theorem exists_new (contents : Bytes) : ∃ r, new contents = some r ∧ r.WellPlaced := by
  unfold new
  simp only
  split_ifs with hshort
  · exact ⟨_, rfl, .inl rfl⟩
  · rw [List.getElem?_eq_getElem (by omega), readFixed32_of_le (by omega)]
    simp only [Option.bind_eq_bind, Option.bind_some]
    split_ifs with hword
    · exact ⟨_, rfl, .inl rfl⟩
    · refine ⟨_, rfl, .inr ?_⟩
      simp only
      omega

theorem isSome_keyMayMatch {r : FilterBlockReader} (h : r.WellPlaced) (p : FilterPolicy)
    (wide blockOffset : Nat) (key : Bytes) :
    (r.keyMayMatch p wide blockOffset key).isSome = true := by
  unfold keyMayMatch
  simp only
  split_ifs with hindex
  · have hplace := h.resolve_left (by omega)
    rw [readFixed32_of_le (by omega), readFixed32_of_le (by omega)]
    simp only [Option.bind_eq_bind, Option.bind_some]
    split_ifs with hrange hinside
    · rfl
    · omega
    · rfl
    · rfl
  · rfl

end FilterBlockReader

namespace FilterBlockBuilder

variable {p : FilterPolicy}

/-- No range of the file has so many keys that their number is not an `int`. -/
def KeysCounted (seen : List (Nat × Bytes)) : Prop :=
  ∀ index, seen.countP (fun e => e.1 / kFilterBase = index) < 2 ^ 31

theorem KeysCounted.of_length {seen : List (Nat × Bytes)} (h : seen.length < 2 ^ 31) :
    KeysCounted seen := fun _ => List.countP_le_length.trans_lt h

theorem KeysCounted.of_append {seen more : List (Nat × Bytes)} (h : KeysCounted (seen ++ more)) :
    KeysCounted seen := fun index =>
  ((List.sublist_append_left seen more).countP_le).trans_lt (h index)

/-- What a builder has done: the keys that wait for their filter, the filters that are built, and
for each key that was added where its filter is. -/
structure Holds (p : FilterPolicy) (seen : List (Nat × Bytes)) (pending filters : List Bytes)
    (b : FilterBlockBuilder) : Prop where
  keys_eq : b.keys = pending.flatten
  start_eq : b.start = segmentStarts pending
  result_eq : b.result = filters.flatten
  offsets_eq : b.filterOffsets = (segmentStarts filters).map (· % 2 ^ 32)
  count : pending.length ≤ seen.countP fun e => e.1 / kFilterBase = filters.length
  found : ∀ e ∈ seen, (e.1 / kFilterBase = filters.length ∧ e.2 ∈ pending) ∨
    ∃ filter, filters[e.1 / kFilterBase]? = some filter ∧ p.keyMayMatch e.2 filter = true

namespace Holds

variable {seen : List (Nat × Bytes)} {pending filters : List Bytes} {b : FilterBlockBuilder}

theorem init (p : FilterPolicy) : Holds p [] [] [] init := ⟨rfl, rfl, rfl, rfl, le_rfl, nofun⟩

theorem length_filterOffsets (h : Holds p seen pending filters b) :
    b.filterOffsets.length = filters.length := by
  rw [h.offsets_eq, List.length_map, length_segmentStarts]

/-- The keys are cut out as they were added. -/
theorem tmpKeys_eq (h : Holds p seen pending filters b) : b.tmpKeys = pending := by
  have hget : ∀ i, i ≤ pending.length →
      (b.start ++ [b.keys.length]).getD i 0 = segmentStart pending i := by
    intro i hi
    have hlt : i < (segmentStarts pending ++ [pending.flatten.length]).length := by simp; omega
    rw [h.start_eq, h.keys_eq, List.getD_eq_getElem _ _ hlt, getElem_segmentStarts_concat]
  apply List.ext_getElem
  · rw [tmpKeys, List.length_map, List.length_range, h.start_eq, length_segmentStarts]
  · intro i hi hpending
    simp only [tmpKeys, List.getElem_map, List.getElem_range]
    rw [hget i hpending.le, hget (i + 1) hpending, segmentStart_succ hpending,
      Nat.add_sub_cancel_left, h.keys_eq, take_drop_segmentStart hpending]

theorem length_start (h : Holds p seen pending filters b) : b.start.length = pending.length := by
  rw [h.start_eq, length_segmentStarts]

theorem length_start_le (h : Holds p seen pending filters b) : b.start.length ≤ seen.length := by
  rw [h.length_start]
  exact h.count.trans List.countP_le_length

/-- A filter is built from all keys that wait for it. -/
theorem generateFilter (hp : p.Sound) (hkeys : KeysCounted seen)
    (h : Holds p seen pending filters b) :
    ∃ filter, Holds p seen [] (filters ++ [filter]) (b.generateFilter p) := by
  have hoffsets : ∀ filter : Bytes, b.filterOffsets ++ [b.result.length % 2 ^ 32] =
      (segmentStarts (filters ++ [filter])).map (· % 2 ^ 32) := by
    intro filter
    rw [segmentStarts_concat, List.map_append, List.map_singleton, h.offsets_eq, h.result_eq]
  have hfound : ∀ filter : Bytes, (∀ key ∈ pending, p.keyMayMatch key filter = true) →
      ∀ e ∈ seen, (e.1 / kFilterBase = (filters ++ [filter]).length ∧ e.2 ∈ []) ∨
        ∃ f, (filters ++ [filter])[e.1 / kFilterBase]? = some f ∧ p.keyMayMatch e.2 f = true := by
    rintro filter hfilter e he
    refine .inr ?_
    rcases h.found e he with ⟨hindex, hkey⟩ | ⟨f, hget, hmatch⟩
    · exact ⟨filter, by rw [hindex, List.getElem?_concat_length], hfilter _ hkey⟩
    · have hlt := (List.getElem?_eq_some_iff.mp hget).1
      exact ⟨f, by rw [List.getElem?_append_left hlt, hget], hmatch⟩
  have hstart := h.length_start
  unfold FilterBlockBuilder.generateFilter
  simp only
  split_ifs with hempty
  · have hnil : pending = [] := List.length_eq_zero_iff.mp (hstart.symm.trans hempty)
    subst hnil
    refine ⟨[], ?_, ?_, ?_, hoffsets [], Nat.zero_le _, hfound [] nofun⟩
    · exact h.keys_eq
    · exact h.start_eq
    · rw [List.flatten_append, List.flatten_singleton, List.append_nil]
      exact h.result_eq
  · have hlt : pending.length < 2 ^ 31 := h.count.trans_lt (hkeys _)
    have hint : toInt32 b.start.length = (pending.length : Int) := by
      rw [hstart]
      unfold toInt32
      omega
    refine ⟨p.createFilter b.tmpKeys (toInt32 b.start.length) b.result, rfl, rfl, ?_, hoffsets _,
      Nat.zero_le _, hfound _ ?_⟩
    · rw [List.flatten_append, List.flatten_singleton, ← h.result_eq]
    · rw [h.tmpKeys_eq, hint]
      intro key hkey
      exact hp pending pending.length b.result le_rfl hlt key (by rwa [List.take_length])

/-- The loop of `StartBlock` ends with a filter for every range in front of the index. -/
theorem generateUntil (hp : p.Sound) (hkeys : KeysCounted seen)
    (h : Holds p seen pending filters b) {index : Nat} (hle : filters.length ≤ index) :
    ∃ pending filters, Holds p seen pending filters (b.generateUntil p index) ∧
      filters.length = index := by
  induction hn : index - filters.length generalizing b pending filters with
  | zero =>
    rw [FilterBlockBuilder.generateUntil, h.length_filterOffsets, if_neg (by omega)]
    exact ⟨pending, filters, h, by omega⟩
  | succ n ih =>
    obtain ⟨filter, hnext⟩ := h.generateFilter hp hkeys
    have hlen : (filters ++ [filter]).length = filters.length + 1 := by simp
    rw [FilterBlockBuilder.generateUntil, h.length_filterOffsets, if_pos (by omega)]
    exact ih hnext (by omega) (by omega)

theorem addKey (h : Holds p seen pending filters b) {offset : Nat}
    (hoffset : offset / kFilterBase = filters.length) (key : Bytes) :
    Holds p (seen ++ [(offset, key)]) (pending ++ [key]) filters (b.addKey key) where
  keys_eq := by
    rw [FilterBlockBuilder.addKey, List.flatten_append, List.flatten_singleton, h.keys_eq]
  start_eq := by
    rw [FilterBlockBuilder.addKey, segmentStarts_concat, h.start_eq, h.keys_eq]
  result_eq := h.result_eq
  offsets_eq := h.offsets_eq
  count := by
    rw [List.countP_append, List.length_append, List.countP_singleton]
    simpa [hoffset] using h.count
  found e he := by
    rcases List.mem_append.mp he with he | he
    · exact (h.found e he).imp_left (And.imp_right (List.mem_append_left _))
    · obtain rfl := List.mem_singleton.mp he
      exact .inl ⟨hoffset, List.mem_append_right _ List.mem_cons_self⟩

theorem addKeys (h : Holds p seen pending filters b) {offset : Nat}
    (hoffset : offset / kFilterBase = filters.length) (keys : List Bytes) :
    ∃ pending, Holds p (seen ++ keys.map (offset, ·)) pending filters
      (keys.foldl FilterBlockBuilder.addKey b) := by
  induction keys generalizing b seen pending with
  | nil => exact ⟨pending, by simpa using h⟩
  | cons key keys ih =>
    obtain ⟨pending', hkeys⟩ := ih (h.addKey hoffset key)
    refine ⟨pending', ?_⟩
    rw [List.append_assoc, List.singleton_append] at hkeys
    exact hkeys

theorem lastFilter (hp : p.Sound) (hkeys : KeysCounted seen)
    (h : Holds p seen pending filters b) :
    ∃ filters, Holds p seen [] filters (b.lastFilter p) := by
  unfold FilterBlockBuilder.lastFilter
  split_ifs with hempty
  · rw [List.isEmpty_iff, h.start_eq, ← List.length_eq_zero_iff, length_segmentStarts,
      List.length_eq_zero_iff] at hempty
    subst hempty
    exact ⟨filters, h⟩
  · obtain ⟨filter, hlast⟩ := h.generateFilter hp hkeys
    exact ⟨_, hlast⟩

end Holds

/-- The entries of blocks: every key with the offset of its block. -/
def entries (blocks : List (Nat × List Bytes)) : List (Nat × Bytes) :=
  blocks.flatMap fun block => block.2.map (block.1, ·)

/-- Blocks at offsets that do not decrease are all added. -/
theorem Holds.addBlocks (hp : p.Sound) {seen : List (Nat × Bytes)} {pending filters : List Bytes}
    {b : FilterBlockBuilder} (h : Holds p seen pending filters b)
    {blocks : List (Nat × List Bytes)} (hcounted : KeysCounted (seen ++ entries blocks))
    (hoffsets : blocks.Pairwise fun x y => x.1 ≤ y.1)
    (hle : ∀ block ∈ blocks, filters.length ≤ block.1 / kFilterBase) :
    ∃ b' pending' filters', blocks.foldlM (addBlock p) b = some b' ∧
      Holds p (seen ++ entries blocks) pending' filters' b' := by
  induction blocks generalizing b seen pending filters with
  | nil => exact ⟨b, pending, filters, rfl, by simpa [entries] using h⟩
  | cons block blocks ih =>
    obtain ⟨hhead, hoffsets⟩ := List.pairwise_cons.mp hoffsets
    have hblock := hle block List.mem_cons_self
    obtain ⟨pending₁, filters₁, hstart, hindex⟩ := h.generateUntil hp hcounted.of_append hblock
    obtain ⟨pending₂, hkeys⟩ := hstart.addKeys hindex.symm block.2
    have hrest : ∀ next ∈ blocks, filters₁.length ≤ next.1 / kFilterBase := fun next hnext =>
      hindex.trans_le (Nat.div_le_div_right (hhead next hnext))
    obtain ⟨b', pending', filters', hfold, hdone⟩ := ih hkeys
      (by rwa [List.append_assoc]) hoffsets hrest
    refine ⟨b', pending', filters', ?_, ?_⟩
    · rw [List.foldlM_cons, addBlock, startBlock, h.length_filterOffsets, if_pos hblock]
      exact hfold
    · rwa [List.append_assoc] at hdone

/-- The filters of a builder are all written, and their offsets have not wrapped around. -/
structure Written (filters : List Bytes) (b : FilterBlockBuilder) : Prop where
  result_eq : b.result = filters.flatten
  offsets_eq : b.filterOffsets = (segmentStarts filters).map (· % 2 ^ 32)
  small : b.result.length < 2 ^ 32

namespace Written

variable {filters : List Bytes} {b : FilterBlockBuilder}

theorem segmentStart_lt (h : Written filters b) (i : Nat) : segmentStart filters i < 2 ^ 32 :=
  (segmentStart_le filters i).trans_lt (h.result_eq ▸ h.small)

/-- Behind the filters stand the offsets of all of them, the offset of these, and the encoding
parameter. -/
theorem block_eq (h : Written filters b) : b.result ++ b.trailer = b.result ++
    ((segmentStarts filters ++ [filters.flatten.length]).flatMap encodeFixed32 ++
      [UInt8.ofNat kFilterBaseLg]) := by
  have hoffsets : b.filterOffsets = segmentStarts filters := by
    rw [h.offsets_eq]
    refine (List.map_congr_left fun start hstart => ?_).trans (List.map_id _)
    obtain ⟨i, -, rfl⟩ := List.mem_map.mp hstart
    exact Nat.mod_eq_of_lt (h.segmentStart_lt i)
  rw [trailer, hoffsets, Nat.mod_eq_of_lt h.small, ← h.result_eq, List.flatMap_append,
    List.flatMap_singleton]

theorem length_offsets (filters : List Bytes) :
    ((segmentStarts filters ++ [filters.flatten.length]).flatMap encodeFixed32).length =
      (filters.length + 1) * 4 := by
  rw [length_fixed32Array, List.length_append, length_segmentStarts, List.length_singleton]

theorem length_block (h : Written filters b) :
    (b.result ++ b.trailer).length = b.result.length + (filters.length * 4 + 5) := by
  rw [h.block_eq, List.length_append, List.length_append, length_offsets, List.length_singleton]
  omega

/-- A word of the offset array, or behind it the offset of the array itself. -/
theorem readFixed32_offset (h : Written filters b) {i : Nat} (hi : i ≤ filters.length) :
    readFixed32 (b.result ++ b.trailer) (b.result.length + i * 4) =
      some (segmentStart filters i) := by
  have hlt : i < (segmentStarts filters ++ [filters.flatten.length]).length := by simp; omega
  have hsmall : ∀ v ∈ segmentStarts filters ++ [filters.flatten.length], v < 2 ^ 32 := by
    intro v hv
    obtain ⟨j, hj, rfl⟩ := List.getElem_of_mem hv
    rw [getElem_segmentStarts_concat]
    exact h.segmentStart_lt j
  rw [FilterBlockReader.readFixed32_of_le (by rw [h.length_block]; omega), h.block_eq,
    List.drop_length_add_append, decodeFixed32_array hsmall hlt, getElem_segmentStarts_concat]

theorem getElem?_baseLg (h : Written filters b) :
    (b.result ++ b.trailer)[(b.result ++ b.trailer).length - 1]? =
      some (UInt8.ofNat kFilterBaseLg) := by
  rw [← List.getLast?_eq_getElem?, h.block_eq, ← List.append_assoc, List.getLast?_concat]

/-- A reader finds the offset array. -/
theorem new_eq (h : Written filters b) : FilterBlockReader.new (b.result ++ b.trailer) =
    some ⟨b.result ++ b.trailer, b.result.length, filters.length, kFilterBaseLg⟩ := by
  have hlen := h.length_block
  have hplace : (b.result ++ b.trailer).length - 5 = b.result.length + filters.length * 4 := by
    omega
  have harray := h.readFixed32_offset le_rfl
  rw [segmentStart_length, ← h.result_eq] at harray
  have hnum : (b.result.length + filters.length * 4 - b.result.length) / 4 = filters.length := by
    omega
  rw [FilterBlockReader.new, if_neg (by omega), h.getElem?_baseLg, hplace, harray]
  simp only [Option.bind_eq_bind, Option.bind_some]
  rw [if_neg (by omega), hnum]
  rfl

/-- A reader of a finished block finds the filter of every range. -/
theorem keyMayMatch_eq (h : Written filters b) {blockOffset : Nat} {filter : Bytes}
    (hfilter : filters[blockOffset / kFilterBase]? = some filter) (wide : Nat) (key : Bytes) :
    FilterBlockReader.keyMayMatch p
        ⟨b.result ++ b.trailer, b.result.length, filters.length, kFilterBaseLg⟩ wide blockOffset
        key =
      some (p.keyMayMatch key filter) := by
  obtain ⟨hindex, rfl⟩ := List.getElem?_eq_some_iff.mp hfilter
  have hshift : blockOffset >>> kFilterBaseLg = blockOffset / kFilterBase :=
    Nat.shiftRight_eq_div_pow ..
  have hlimit := segmentStart_le filters (blockOffset / kFilterBase + 1)
  rw [← h.result_eq] at hlimit
  have hstart := segmentStart_succ hindex
  have hnext : readFixed32 (b.result ++ b.trailer)
      (b.result.length + blockOffset / kFilterBase * 4 + 4) =
        some (segmentStart filters (blockOffset / kFilterBase + 1)) := by
    rw [← h.readFixed32_offset hindex, Nat.succ_mul, Nat.add_assoc]
  rw [FilterBlockReader.keyMayMatch, FilterBlockReader.filterIndex,
    if_pos (show kFilterBaseLg < 64 by decide)]
  simp only [hshift]
  rw [if_pos hindex, h.readFixed32_offset hindex.le, hnext]
  simp only [Option.bind_eq_bind, Option.bind_some]
  rw [if_pos ⟨by omega, hlimit⟩, if_pos (by rw [h.length_block]; omega),
    List.drop_append_of_le_length (by omega),
    List.take_append_of_le_length (by rw [List.length_drop]; omega), hstart,
    Nat.add_sub_cancel_left, h.result_eq, take_drop_segmentStart hindex]

end Written

theorem Holds.written {seen : List (Nat × Bytes)} {filters : List Bytes} {b : FilterBlockBuilder}
    (h : Holds p seen [] filters b) (hsize : b.result.length < 2 ^ 32) : Written filters b :=
  ⟨h.result_eq, h.offsets_eq, hsize⟩

/-- No key is missed: a key that was added to a block may match at the offset of the block, if the
keys of a range are few enough for an `int` and the filters together small enough for the 32 bits
of an offset. And whatever the contents of a filter block, a reader reads inside them only. -/
theorem filterBlock_keyMayMatch (hp : p.Sound) {blocks : List (Nat × List Bytes)}
    (hoffsets : blocks.Pairwise fun x y => x.1 ≤ y.1) (hcounted : KeysCounted (entries blocks))
    (hsize : ∀ b ∈ addBlocks p blocks, (b.lastFilter p).result.length < 2 ^ 32) (wide : Nat) :
    (∃ b r, addBlocks p blocks = some b ∧ FilterBlockReader.new (b.finish p) = some r ∧
      ∀ block ∈ blocks, ∀ key ∈ block.2, r.keyMayMatch p wide block.1 key = some true) ∧
    ∀ (q : FilterPolicy) (contents : Bytes), ∃ r, FilterBlockReader.new contents = some r ∧
      ∀ blockOffset key, (r.keyMayMatch q wide blockOffset key).isSome = true := by
  constructor
  · obtain ⟨b, pending, filters, hadd, hholds⟩ :=
      (Holds.init p).addBlocks hp hcounted hoffsets fun _ _ => Nat.zero_le _
    obtain ⟨filters', hlast⟩ := hholds.lastFilter hp hcounted
    have hsmall := hsize b hadd
    obtain ⟨r, hnew, -⟩ := FilterBlockReader.exists_new (b.finish p)
    refine ⟨b, r, hadd, hnew, fun block hblock key hkey => ?_⟩
    have hentry : (block.1, key) ∈ entries blocks :=
      List.mem_flatMap.mpr ⟨block, hblock, List.mem_map.mpr ⟨key, hkey, rfl⟩⟩
    rcases hlast.found _ hentry with ⟨-, hpending⟩ | ⟨filter, hfilter, hmatch⟩
    · cases hpending
    · have hwritten := hlast.written hsmall
      obtain rfl := Option.some.inj (hwritten.new_eq.symm.trans hnew)
      rw [hwritten.keyMayMatch_eq hfilter]
      exact congrArg some hmatch
  · intro q contents
    obtain ⟨r, hnew, hplaced⟩ := FilterBlockReader.exists_new contents
    exact ⟨r, hnew, FilterBlockReader.isSome_keyMayMatch hplaced q wide⟩

/-- A policy whose filters list the first bytes of the keys. -/
def headPolicy : FilterPolicy where
  createFilter keys n _ := (keys.take n.toNat).map (·.headD 0)
  keyMayMatch key filter := filter.contains (key.headD 0)

theorem sound_headPolicy : headPolicy.Sound := by
  intro keys n dst _ _ key hkey
  exact List.contains_iff_mem.mpr (List.mem_map_of_mem hkey)

theorem addBlocks_headPolicy :
    addBlocks headPolicy [(0, [[97]]), (100, [[98], [99, 1]]), (7000, [[97, 2]])] =
      some ⟨[97, 2], [0], [97, 98, 99], [0, 3, 3]⟩ := by
  have hfirst : addBlock headPolicy init (0, [[97]]) = some ⟨[97], [0], [], []⟩ := by
    rw [addBlock, startBlock, generateUntil]
    rfl
  have hsecond : addBlock headPolicy ⟨[97], [0], [], []⟩ (100, [[98], [99, 1]]) =
      some ⟨[97, 98, 99, 1], [0, 1, 2], [], []⟩ := by
    rw [addBlock, startBlock, generateUntil]
    rfl
  have hthird : addBlock headPolicy ⟨[97, 98, 99, 1], [0, 1, 2], [], []⟩ (7000, [[97, 2]]) =
      some ⟨[97, 2], [0], [97, 98, 99], [0, 3, 3]⟩ := by
    -- the ranges of the two blocks, and the two that are skipped
    rw [addBlock, startBlock, generateUntil, if_pos (by decide), generateUntil, if_pos (by decide),
      generateUntil, if_pos (by decide), generateUntil]
    rfl
  rw [addBlocks, List.foldlM_cons, hfirst]
  simp only [Option.bind_eq_bind, Option.bind_some, List.foldlM_cons, hsecond, hthird,
    List.foldlM_nil, Option.pure_def]

/-- Three blocks, of which the first two share a range; two ranges behind them have no key. -/
theorem filterBlock_headPolicy : ∃ b r,
    addBlocks headPolicy [(0, [[97]]), (100, [[98], [99, 1]]), (7000, [[97, 2]])] = some b ∧
      FilterBlockReader.new (b.finish headPolicy) = some r ∧
        r.keyMayMatch headPolicy 0 0 [97] = some true ∧
        r.keyMayMatch headPolicy 0 100 [99, 1] = some true ∧
        r.keyMayMatch headPolicy 0 7000 [97, 2] = some true := by
  obtain ⟨⟨b, r, hadd, hnew, hmatch⟩, -⟩ :=
    @filterBlock_keyMayMatch headPolicy sound_headPolicy
      [(0, [[97]]), (100, [[98], [99, 1]]), (7000, [[97, 2]])] (by decide)
      (KeysCounted.of_length (by decide))
      (by
        intro b hb
        rw [addBlocks_headPolicy, Option.mem_some_iff] at hb
        rw [← hb]
        decide) 0
  exact ⟨b, r, hadd, hnew, hmatch (0, [[97]]) (by decide) _ (by decide),
    hmatch (100, [[98], [99, 1]]) (by decide) _ (by decide),
    hmatch (7000, [[97, 2]]) (by decide) _ (by decide)⟩

/-- The builder of one block at the start of a table. -/
theorem addBlocks_first (p : FilterPolicy) (keys : List Bytes) :
    addBlocks p [(0, keys)] = some (keys.foldl addKey init) := by
  simp [addBlocks, addBlock, startBlock, init, generateUntil]

theorem lastFilter_first (p : FilterPolicy) {keys : List Bytes} (hkeys : keys ≠ []) :
    ∃ tmpKeys, (keys.foldl addKey init).lastFilter p =
      ⟨[], [], p.createFilter tmpKeys (toInt32 keys.length) [], [0]⟩ := by
  have hfold : ∀ b : FilterBlockBuilder,
      (keys.foldl addKey b).start.length = b.start.length + keys.length ∧
        (keys.foldl addKey b).result = b.result ∧
          (keys.foldl addKey b).filterOffsets = b.filterOffsets := by
    clear hkeys
    induction keys with
    | nil => exact fun b => ⟨rfl, rfl, rfl⟩
    | cons key keys ih =>
      intro b
      obtain ⟨hstart, hresult, hoffsets⟩ := ih (b.addKey key)
      refine ⟨?_, hresult, hoffsets⟩
      rw [List.foldl_cons, hstart, FilterBlockBuilder.addKey, List.length_append,
        List.length_singleton, List.length_cons]
      omega
  obtain ⟨hstart, hresult, hoffsets⟩ := hfold init
  have hlength : (keys.foldl addKey init).start.length = keys.length := by
    rw [hstart]
    exact Nat.zero_add _
  have hpos := List.length_pos_iff.mpr hkeys
  have hnonempty : ¬ (keys.foldl addKey init).start.isEmpty = true := by
    rw [List.isEmpty_iff_length_eq_zero, hlength]
    omega
  refine ⟨(keys.foldl addKey init).tmpKeys, ?_⟩
  rw [FilterBlockBuilder.lastFilter, if_neg hnonempty, FilterBlockBuilder.generateFilter, hlength,
    if_neg (by omega), hresult, hoffsets]
  rfl

/-- A policy whose filters have a fixed length, and only those match. -/
def lengthPolicy (n : Nat) : FilterPolicy where
  createFilter _ _ _ := List.replicate n 0
  keyMayMatch _ filter := filter.length = n

theorem sound_lengthPolicy (n : Nat) : (lengthPolicy n).Sound := fun _ _ _ _ _ _ _ =>
  decide_eq_true List.length_replicate

/-- With a filter of 2^32 bytes the offsets wrap around, and the key is missed. -/
theorem lengthPolicy_misses {n : Nat} (hn : n = 2 ^ 32) :
    ∃ b r, addBlocks (lengthPolicy n) [(0, [[97]])] = some b ∧
      FilterBlockReader.new (b.finish (lengthPolicy n)) = some r ∧
        r.keyMayMatch (lengthPolicy n) 0 0 [97] = some false := by
  have htrailer : encodeFixed32 0 ++ encodeFixed32 (n % 2 ^ 32) ++ [UInt8.ofNat kFilterBaseLg] =
      [0, 0, 0, 0, 0, 0, 0, 0, 11] := by
    rw [hn, Nat.mod_self]
    decide
  have hfinish : ([[97]].foldl addKey init).finish (lengthPolicy n) =
      List.replicate n 0 ++ [0, 0, 0, 0, 0, 0, 0, 0, 11] := by
    obtain ⟨_, hlast⟩ := lastFilter_first (lengthPolicy n) (List.cons_ne_nil [97] [])
    rw [finish, hlast, ← htrailer]
    simp [lengthPolicy, trailer]
  have hlen : (List.replicate n (0 : UInt8) ++ [0, 0, 0, 0, 0, 0, 0, 0, 11]).length = n + 9 := by
    simp
  have hzero : ∀ pos, pos + 4 ≤ n + 8 →
      readFixed32 (List.replicate n 0 ++ [0, 0, 0, 0, 0, 0, 0, 0, 11]) pos = some 0 := by
    intro pos hpos
    have htail : [0, 0, 0, 0, 0, 0, 0, 0, 11] = List.replicate 8 (0 : UInt8) ++ [11] := rfl
    rw [FilterBlockReader.readFixed32_of_le (by omega), htail, ← List.append_assoc,
      List.replicate_append_replicate, decodeFixed32,
      List.drop_append_of_le_length (by simp; omega),
      List.take_append_of_le_length (by simp; omega), List.drop_replicate, List.take_replicate,
      Nat.min_eq_left (by omega)]
    rfl
  have hlast : (List.replicate n (0 : UInt8) ++ [0, 0, 0, 0, 0, 0, 0, 0, 11])[n + 9 - 1]? =
      some 11 := by
    rw [List.getElem?_append_right (by simp), List.length_replicate]
    have hindex : n + 9 - 1 - n = 8 := by omega
    rw [hindex]
    rfl
  refine ⟨_, ⟨List.replicate n 0 ++ [0, 0, 0, 0, 0, 0, 0, 0, 11], 0, (n + 9 - 5) / 4, 11⟩,
    addBlocks_first _ _, ?_, ?_⟩
  · rw [hfinish, FilterBlockReader.new, hlen, if_neg (by omega), hlast, hzero _ (by omega)]
    simp only [Option.bind_eq_bind, Option.bind_some]
    rw [if_neg (by omega)]
    rfl
  · have hmiss : (lengthPolicy n).keyMayMatch [97] [] = false := by
      apply decide_eq_false
      rw [List.length_nil]
      omega
    rw [FilterBlockReader.keyMayMatch, FilterBlockReader.filterIndex,
      if_pos (show 11 < 64 by decide)]
    simp only [Nat.zero_shiftRight, Nat.zero_mul, Nat.add_zero, Nat.zero_add]
    rw [if_pos (by omega), hzero 0 (by omega), hzero 4 (by omega)]
    simp [hmiss]

/-- With 2^31 keys in a range their number is negative as an `int`, and the key is missed. -/
theorem headPolicy_misses {n : Nat} (hn : n = 2 ^ 31) :
    ∃ b r, addBlocks headPolicy [(0, List.replicate n [97])] = some b ∧
      FilterBlockReader.new (b.finish headPolicy) = some r ∧
        r.keyMayMatch headPolicy 0 0 [97] = some false := by
  have hkeys : List.replicate n [(97 : UInt8)] ≠ [] := by
    rw [ne_eq, List.replicate_eq_nil_iff]
    omega
  obtain ⟨tmpKeys, hlast⟩ := lastFilter_first headPolicy hkeys
  have hnegative : (toInt32 n).toNat = 0 := by
    rw [hn]
    decide
  have hfilter : headPolicy.createFilter tmpKeys (toInt32 n) [] = [] := by
    change (tmpKeys.take (toInt32 n).toNat).map (·.headD 0) = []
    rw [hnegative, List.take_zero, List.map_nil]
  rw [List.length_replicate, hfilter] at hlast
  have hfinish : ((List.replicate n [97]).foldl addKey init).finish headPolicy =
      [0, 0, 0, 0, 0, 0, 0, 0, 11] := by
    rw [finish, hlast]
    decide
  refine ⟨_, ⟨[0, 0, 0, 0, 0, 0, 0, 0, 11], 0, 1, 11⟩, addBlocks_first _ _, ?_, ?_⟩
  · rw [hfinish]
    decide
  · decide

/-- So a key can be missed although its policy misses none: behind a filter that is too long, and
among keys that are too many. -/
theorem filterBlock_misses :
    ((lengthPolicy (2 ^ 32)).Sound ∧
      ∃ b r, addBlocks (lengthPolicy (2 ^ 32)) [(0, [[97]])] = some b ∧
        FilterBlockReader.new (b.finish (lengthPolicy (2 ^ 32))) = some r ∧
          r.keyMayMatch (lengthPolicy (2 ^ 32)) 0 0 [97] = some false) ∧
    (headPolicy.Sound ∧
      ∃ b r, addBlocks headPolicy [(0, List.replicate (2 ^ 31) [97])] = some b ∧
        FilterBlockReader.new (b.finish headPolicy) = some r ∧
          r.keyMayMatch headPolicy 0 0 [97] = some false) :=
  ⟨⟨sound_lengthPolicy _, lengthPolicy_misses rfl⟩, sound_headPolicy, headPolicy_misses rfl⟩

end FilterBlockBuilder

end WiscKey
