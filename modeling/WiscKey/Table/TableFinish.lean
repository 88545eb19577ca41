import WiscKey.Table.TableBuilderRun

/-!
# Finished table files

A builder that reports no failure has a file with the blocks of all entries, an index of these
blocks, a filter that misses no key, and a footer that leads to the index.
-/

namespace WiscKey

/-- The data blocks of a finished table with their index keys, and where its index is. -/
structure TableContents where
  indexed : List (Bytes × WrittenBlock)
  indexRows : List BlockRow
  indexRaw : Bytes
  indexHandle : BlockHandle
  metaindexHandle : BlockHandle

/-- All entries of a table. -/
def TableContents.entries (c : TableContents) : List (Bytes × Bytes) :=
  c.indexed.flatMap fun d => d.2.entries

/-- A filter block is in a file, and misses no key. -/
structure FilterStored (snappy : Snappy) (p : FilterPolicy) (seen : List (Nat × Bytes))
    (file : Bytes) (handle : BlockHandle) (reader : FilterBlockReader) : Prop where
  stored : ∃ raw, StoredIn snappy file handle raw ∧ FilterBlockReader.new raw = some reader
  found : ∀ e ∈ seen, ∀ wide, reader.keyMayMatch p wide e.1 e.2 = some true

/-- The metaindex block of a file leads to a filter block. -/
structure MetaStored (snappy : Snappy) (policy : NamedFilterPolicy) (file : Bytes)
    (handle filterHandle : BlockHandle) : Prop where
  stored : ∃ raw row points, StoredIn snappy file handle raw ∧ (Block.new raw).Laid [row] points ∧
    row.key = TableBuilder.filterKey policy ∧ row.value = filterHandle.bytes

/-- A file is a finished table. -/
structure FinishedTable (snappy : Snappy) (options : TableOptions) (c : TableContents)
    (file : Bytes) : Prop where
  footer : ∃ front, file = front ++ (Footer.mk c.metaindexHandle c.indexHandle).bytes
  metaindexFits : c.metaindexHandle.Fits
  index : StoredIn snappy file c.indexHandle c.indexRaw
  indexLaid : ∃ points, (Block.new c.indexRaw).Laid c.indexRows points
  indexEntries : rowEntries c.indexRows = c.indexed.map fun d => (d.1, d.2.handle.bytes)
  blocks : ∀ d ∈ c.indexed, d.2.InFile snappy file
  offsets : c.indexed.Pairwise fun d d' => d.2.handle.offset < d'.2.handle.offset
  before : ∀ d ∈ c.indexed, d.2.handle.offset < c.metaindexHandle.offset
  inside : c.metaindexHandle.offset < file.length
  sorted : Increasing options.comparator.compare (c.entries.map Prod.fst)
  ordered : KeysOrdered options.comparator c.indexed []
  filter : ∀ policy, options.filterPolicy = some policy → ∃ filterHandle reader,
    MetaStored snappy policy file c.metaindexHandle filterHandle ∧
      FilterStored snappy policy.toFilterPolicy
        (c.indexed.flatMap fun d => d.2.rows.map fun r => (d.2.handle.offset, r.key)) file
        filterHandle reader

/-- The filter block is behind the blocks of a builder. -/
structure FilterPlaced (snappy : Snappy) (options : TableOptions) (seen : List (Nat × Bytes))
    (t : TableBuilder) (file : WritableFile) (offset : Nat) (handle : BlockHandle) : Prop where
  offset_eq : offset = file.contents.length
  le : t.offset ≤ offset
  lt : offset < 2 ^ 35
  behind : ∃ more, file.contents = t.file.contents ++ more
  stored : ∀ policy, options.filterPolicy = some policy →
    ∃ reader, FilterStored snappy policy.toFilterPolicy seen file.contents handle reader

/-- The metaindex block is behind the end of a file, at an offset. -/
structure MetaindexPlaced (snappy : Snappy) (options : TableOptions) (filterHandle : BlockHandle)
    (front : WritableFile) (start : Nat) (file : WritableFile) (offset : Nat)
    (handle : BlockHandle) : Prop where
  offset_eq : offset = file.contents.length
  handle_eq : handle.offset = start
  lt : start < offset
  small : offset < 2 ^ 36
  fits : handle.Fits
  behind : ∃ more, file.contents = front.contents ++ more
  stored : ∀ policy, options.filterPolicy = some policy →
    MetaStored snappy policy file.contents handle filterHandle

/-- The index block is behind the end of a file, with a key for each block of a layout. -/
structure IndexPlaced (snappy : Snappy) (options : TableOptions) (l : TableLayout)
    (indexed : List (Bytes × WrittenBlock)) (front file : WritableFile) (offset : Nat)
    (handle : BlockHandle) : Prop where
  offset_eq : offset = file.contents.length
  small : offset < 2 ^ 37
  behind : ∃ more, file.contents = front.contents ++ more
  stored : ∃ rows points raw, StoredIn snappy file.contents handle raw ∧
    (Block.new raw).Laid rows points ∧
      rowEntries rows = indexed.map fun d => (d.1, d.2.handle.bytes)
  blocks_eq : indexed.map Prod.snd = l.blocks
  ordered : KeysOrdered options.comparator indexed []

section Appended

variable {snappy : Snappy} {file : Bytes} {handle filterHandle : BlockHandle}

theorem FilterStored.append {p : FilterPolicy} {seen : List (Nat × Bytes)}
    {reader : FilterBlockReader} (h : FilterStored snappy p seen file handle reader)
    (more : Bytes) : FilterStored snappy p seen (file ++ more) handle reader := by
  obtain ⟨raw, hstored, hnew⟩ := h.stored
  exact ⟨⟨raw, hstored.append more, hnew⟩, h.found⟩

theorem MetaStored.append {policy : NamedFilterPolicy}
    (h : MetaStored snappy policy file handle filterHandle) (more : Bytes) :
    MetaStored snappy policy (file ++ more) handle filterHandle := by
  obtain ⟨raw, row, points, hstored, hrow⟩ := h.stored
  exact ⟨raw, row, points, hstored.append more, hrow⟩

end Appended

/-- A finished filter block is not much longer than the filters of its keys, and misses none. -/
theorem FiltersBuilt.finish {p : FilterPolicy} {n offset : Nat} {seen : List (Nat × Bytes)}
    {b : FilterBlockBuilder} (h : FiltersBuilt p n seen offset b) (hp : p.Sound)
    (hn : p.Bounded n) (hseen : seen.length < 2 ^ 31) (hsize : n * seen.length < 2 ^ 32) :
    (b.finish p).length ≤ n * seen.length + offset + 9 ∧
      ∃ reader, FilterBlockReader.new (b.finish p) = some reader ∧
        ∀ e ∈ seen, ∀ wide, reader.keyMayMatch p wide e.1 e.2 = some true := by
  obtain ⟨pending, filters, hholds, hlength⟩ := h.holds
  obtain ⟨filters', hlast⟩ := hholds.lastFilter hp (.of_length hseen)
  have hresult :=
    (size_lastFilter hn (hholds.length_start_le.trans_lt hseen)).trans h.size
  have hoffsets : (b.lastFilter p).filterOffsets.length ≤ offset / kFilterBase + 1 := by
    rw [FilterBlockBuilder.lastFilter]
    split_ifs
    · rw [hholds.length_filterOffsets, hlength]
      exact Nat.le_succ _
    · rw [FilterBlockBuilder.length_generateFilter, hholds.length_filterOffsets, hlength]
  constructor
  · have hbase : kFilterBase = 2048 := by decide
    rw [hbase] at hoffsets
    simp only [FilterBlockBuilder.finish, FilterBlockBuilder.trailer, List.length_append,
      length_fixed32Array, encodeFixed32, length_encodeFixed, List.length_singleton]
    omega
  · obtain ⟨reader, hnew, -⟩ := FilterBlockReader.exists_new (b.finish p)
    refine ⟨reader, hnew, fun e he wide => ?_⟩
    rcases hlast.found e he with ⟨-, hpending⟩ | ⟨filter, hfilter, hmatch⟩
    · cases hpending
    · have hwritten := hlast.written (by omega)
      obtain rfl := Option.some.inj (hwritten.new_eq.symm.trans hnew)
      rw [hwritten.keyMayMatch_eq hfilter]
      exact congrArg some hmatch

section Stages

variable {snappy : Snappy} {options : TableOptions} {n : Nat} {l : TableLayout} {t : TableBuilder}

theorem TableBuilder.finishFilter_of_failed (h : t.status ≠ .ok) :
    t.finishFilter = some (t, .unset) := by
  rw [finishFilter]
  cases t.filterBlock with
  | none => rfl
  | some b => exact if_neg (by simpa [ok] using h)

theorem TableBuilder.finishMetaindex_of_failed (h : t.status ≠ .ok) (handle : BlockHandle) :
    t.finishMetaindex snappy handle = some (t, .unset) :=
  if_neg (by simpa [ok] using h)

theorem TableBuilder.finishIndex_of_failed (h : t.status ≠ .ok) :
    t.finishIndex snappy = some (t, .unset) :=
  if_neg (by simpa [ok] using h)

theorem TableBuilder.finishFooter_of_failed (h : t.status ≠ .ok)
    (metaindexHandle indexHandle : BlockHandle) :
    t.finishFooter metaindexHandle indexHandle = some t :=
  if_neg (by simpa [ok] using h)

/-- What a block that is written does to a builder whose file is not too long. -/
theorem TableBuilder.write_spec (hoffset : t.offset = t.file.contents.length)
    (hbound : t.offset < 2 ^ 36) {block : BlockBuilder} (hblock : block.finish.length < 2 ^ 36) :
    ∃ file status offset handle, t.writeBlock snappy block =
        ({ t with file := file, status := status, offset := offset }, handle) ∧
      (status = .ok → offset = file.contents.length ∧ handle.offset = t.offset ∧
        t.offset < offset ∧ offset ≤ t.offset + block.finish.length + 5 ∧
        (∃ more, file.contents = t.file.contents ++ more) ∧
        StoredIn snappy file.contents handle block.finish) := by
  obtain ⟨contents, type, file, status, offset, hwrite, hstores, hle, -, hok⟩ :=
    t.writeBlock_spec snappy block
  refine ⟨file, status, offset, _, hwrite, fun hs => ?_⟩
  obtain ⟨hadvanced, hcontents⟩ := hok hs
  rw [kBlockTrailerSize, Nat.mod_eq_of_lt (by omega)] at hadvanced
  have hlength := congrArg List.length hcontents
  rw [List.length_append, List.length_append, length_blockTrailer, kBlockTrailerSize] at hlength
  have hstored : StoredIn snappy (t.file.contents ++ (contents ++ blockTrailer contents type))
      ⟨t.file.contents.length, contents.length⟩ block.finish := storedIn_write hstores (by omega)
  refine ⟨by omega, rfl, by omega, by omega, ⟨_, hcontents⟩, ?_⟩
  rw [hcontents, hoffset]
  exact hstored

/-- The filter block is written if there is a policy. -/
theorem TableBuilder.finishFilter_spec {seen : List (Nat × Bytes)}
    (hstate : FilterState options n seen t.offset t.filterBlock) (hoptions : t.options = options)
    (husable : options.Usable n) (hok : t.status = .ok)
    (hoffset : t.offset = t.file.contents.length) (hbound : t.offset < 2 ^ 32)
    (hseen : seen.length < 2 ^ 31) (hsize : n * seen.length < 2 ^ 32) :
    ∃ file status offset handle, t.finishFilter =
        some ({ t with file := file, status := status, offset := offset }, handle) ∧
      (status = .ok → FilterPlaced snappy options seen t file offset handle) := by
  cases hb : t.filterBlock with
  | none =>
    rw [hb] at hstate
    have hnone : options.filterPolicy = none := hstate
    have hcall : t.finishFilter = some (t, .unset) := by rw [finishFilter, hb]
    refine ⟨t.file, t.status, t.offset, .unset, hcall.trans (by rw [← hb]), fun _ =>
      ⟨hoffset, le_rfl, by omega, ⟨[], (List.append_nil _).symm⟩, fun policy hpolicy => ?_⟩⟩
    rw [hnone] at hpolicy
    cases hpolicy
  | some b =>
    rw [hb] at hstate
    obtain ⟨policy, hpolicy, hbuilt⟩ := hstate
    obtain ⟨hsound, hbounded⟩ := husable.filter policy hpolicy
    obtain ⟨hlength, reader, hnew, hfound⟩ := hbuilt.finish hsound hbounded hseen hsize
    obtain ⟨file, status, offset, hwrite, -, hwritten⟩ :=
      t.writeRawBlock_spec (b.finish policy.toFilterPolicy) .noCompression
    refine ⟨file, status, offset, ⟨t.offset, (b.finish policy.toFilterPolicy).length⟩, ?_,
      fun hs => ?_⟩
    · have hcall : t.finishFilter =
          some (t.writeRawBlock (b.finish policy.toFilterPolicy) .noCompression) := by
        rw [finishFilter, hb, ok, hok, hoptions]
        simp only [decide_true, if_true, hpolicy, Option.bind_eq_bind, Option.bind_some,
          Option.pure_def]
      rw [hcall, hwrite, ← hb]
    · obtain ⟨hadvanced, hcontents⟩ := hwritten hs
      rw [kBlockTrailerSize, Nat.mod_eq_of_lt (by omega)] at hadvanced
      have hend := congrArg List.length hcontents
      rw [List.length_append, List.length_append, length_blockTrailer, kBlockTrailerSize] at hend
      refine ⟨by omega, by omega, by omega, ⟨_, hcontents⟩, fun policy' hpolicy' => ?_⟩
      rw [hpolicy, Option.some.injEq] at hpolicy'
      subst hpolicy'
      have hstored : StoredIn snappy (t.file.contents ++ (b.finish policy.toFilterPolicy ++
          blockTrailer (b.finish policy.toFilterPolicy) .noCompression))
          ⟨t.file.contents.length, (b.finish policy.toFilterPolicy).length⟩
          (b.finish policy.toFilterPolicy) := storedIn_write rfl (by omega)
      refine ⟨reader, ⟨⟨_, ?_, hnew⟩, hfound⟩⟩
      rw [hcontents, hoffset]
      exact hstored

/-- The metaindex block has the handle of the filter block if there is a policy. -/
theorem TableBuilder.metaindexBlock_spec {seen : List (Nat × Bytes)} {offset : Nat}
    (hstate : FilterState options n seen offset t.filterBlock) (hoptions : t.options = options)
    (husable : options.Usable n) {handle : BlockHandle}
    (hfits : ∀ policy, options.filterPolicy = some policy → handle.Fits) :
    ∃ block, t.metaindexBlock handle = some block ∧ block.finish.length < 2 ^ 32 ∧
      ∀ policy, options.filterPolicy = some policy → ∃ row points,
        (Block.new block.finish).Laid [row] points ∧ row.key = filterKey policy ∧
          row.value = handle.bytes := by
  cases hb : t.filterBlock with
  | none =>
    rw [hb] at hstate
    have hnone : options.filterPolicy = none := hstate
    refine ⟨.init, by rw [metaindexBlock, hb], by decide, fun policy hpolicy => ?_⟩
    rw [hnone] at hpolicy
    cases hpolicy
  | some b =>
    rw [hb] at hstate
    obtain ⟨policy, hpolicy, -⟩ := hstate
    have hhandle := hfits policy hpolicy
    obtain ⟨block, row, points, hadd, hkey, hvalue, hbuilds⟩ :=
      @BlockBuilder.Builds.add options.comparator.toComparator _ _ _ _
        (BlockBuilder.builds_init options.blockRestartInterval) husable.interval
        (filterKey policy) handle.bytes (fun r hr => absurd hr List.not_mem_nil)
    have hlength := length_finish_le hbuilds
    have hname := policy.length_name
    have hbytes : handle.bytes.length ≤ 20 := hhandle.length_bytes
    have hkeyLength : (filterKey policy).length = policy.name.length + 7 := by
      rw [filterKey, List.length_append, Nat.add_comm]
      rfl
    have hsmall : block.finish.length < 2 ^ 32 := by
      simp only [List.nil_append, rowEntries, List.map_cons, List.map_nil, entriesSize_cons,
        entrySize, hkey, hvalue, hkeyLength, List.length_cons, List.length_nil] at hlength
      simp only [entriesSize, List.map_nil, List.sum_nil] at hlength
      omega
    refine ⟨block, ?_, hsmall, fun policy' hpolicy' => ?_⟩
    · rw [metaindexBlock, hb, hoptions]
      simp only [hpolicy, Option.bind_eq_bind, Option.bind_some, hhandle.encodeTo, hadd]
    · rw [hpolicy, Option.some.injEq] at hpolicy'
      subst hpolicy'
      exact ⟨row, points, laid_finish hbuilds hsmall, hkey, hvalue⟩

/-- The index entry that waits is added behind all entries. -/
theorem Building.indexAfter (h : Building snappy options n l t) (t' : TableBuilder)
    (hoptions : t'.options = options) (hwaiting : t'.pendingIndexEntry = t.pendingIndexEntry)
    (hhandle : t'.pendingHandle = t.pendingHandle) (hindex : t'.indexBlock = t.indexBlock)
    (hlastKey : t'.lastKey = t.lastKey) :
    ∃ lastKey indexBlock indexed, t'.indexAfter =
        some { t' with lastKey := lastKey, indexBlock := indexBlock, pendingIndexEntry := false } ∧
      (∃ rows points, BlockBuilder.Builds 1 indexBlock rows points ∧
        rowEntries rows = indexed.map fun d => (d.1, d.2.handle.bytes)) ∧
      indexed.map Prod.snd = l.blocks ∧
      KeysOrdered options.comparator indexed [] := by
  rw [TableBuilder.indexAfter, hwaiting, h.waiting]
  cases hpending : l.pending with
  | none =>
    refine ⟨t'.lastKey, t'.indexBlock, l.indexed, ?_, hindex ▸ h.index, ?_,
      ⟨h.ordered.length, h.ordered.atMost, h.ordered.below, fun d _ x hx => by cases hx⟩⟩
    · have hnot : t'.pendingIndexEntry = false := by rw [hwaiting, h.waiting, hpending]; rfl
      rw [Option.isSome_none, if_neg Bool.false_ne_true, ← hnot]
    · rw [TableLayout.blocks, hpending, Option.toList_none, List.append_nil]
  | some wb =>
    obtain ⟨hwb, hblocks, hrest, hentries⟩ := h.waits hpending
    obtain ⟨last, hlast, hlastEq, hmost⟩ := h.lastKey_spec hentries hwb.nonempty
    have hge := options.comparator.successor_ge last.1
    have hlength := options.comparator.length_successor last.1
    rw [hoptions, hlastKey, hlastEq]
    generalize options.comparator.findShortSuccessor last.1 = successor at *
    have hbelow : ∀ x ∈ wb.entries, options.comparator.compare x.1 successor ≠ .gt := fun x hx =>
      not_gt_trans (hmost x (hentries ▸ List.mem_append_right _ hx)) hge
    obtain ⟨indexBlock, hencode, hadd, rows, points, hbuilds, hindexed⟩ :=
      h.addIndexEntry hpending successor hbelow
    rw [← hhandle] at hencode
    rw [← hindex, ← hoptions] at hadd
    refine ⟨successor, indexBlock, l.indexed ++ [(successor, wb)], ?_, ⟨rows, points, hbuilds, ?_⟩,
      ?_, ?_⟩
    · rw [Option.isSome_some, if_pos rfl, TableBuilder.addIndexEntry_eq hencode hadd, ← hoptions]
    · rw [hindexed, List.map_append]
      rfl
    · rw [hblocks, List.map_append]
      rfl
    · exact KeysOrdered.index (hrest ▸ h.ordered) ⟨last, hlast, hlength⟩ hbelow
        (fun x hx => by cases hx) fun d _ x hx => by cases hx

/-- The footer is written behind the blocks. -/
theorem TableBuilder.finishFooter_spec {metaindexHandle indexHandle : BlockHandle}
    (h : t.status = .ok → t.offset = t.file.contents.length ∧ t.offset < 2 ^ 40 ∧
      metaindexHandle.Fits ∧ indexHandle.Fits) :
    ∃ file status offset, t.finishFooter metaindexHandle indexHandle =
        some { t with file := file, status := status, offset := offset } ∧
      (status = .ok → t.status = .ok ∧ offset = file.contents.length ∧
        file.contents = t.file.contents ++ (Footer.mk metaindexHandle indexHandle).bytes) := by
  by_cases hok : t.status = .ok
  swap
  · exact ⟨t.file, t.status, t.offset, TableBuilder.finishFooter_of_failed hok _ _,
      fun hs => absurd hs hok⟩
  obtain ⟨hoffset, hbound, hmetaindex, hindex⟩ := h hok
  have hlength := @Footer.length_bytes ⟨metaindexHandle, indexHandle⟩ hmetaindex hindex
  have hencode := @Footer.encodeTo_eq ⟨metaindexHandle, indexHandle⟩ hmetaindex hindex
  rw [finishFooter, if_pos (by rw [ok, hok]; rfl), hencode]
  generalize (Footer.mk metaindexHandle indexHandle).bytes = footer at *
  cases happend : t.file.append footer with
  | mk file status =>
    have hwritten : status = .ok → file.contents = t.file.contents ++ footer := by
      intro hs
      have hcontents : (t.file.append footer).1.contents = t.file.contents ++ footer :=
        WritableFile.contents_append (by rw [happend]; exact hs)
      rwa [happend] at hcontents
    simp only [Option.bind_eq_bind, Option.bind_some, happend]
    refine ⟨_, _, _, rfl, fun hs => ⟨hok, ?_, hwritten hs⟩⟩
    have hmax : Footer.kEncodedLength = 48 := rfl
    rw [if_pos hs, hwritten hs, List.length_append, hlength, hmax]
    omega

/-- `Flush` leaves no rows, unless the file has reported a failure. -/
theorem Progress.flush {entries : List (Bytes × Bytes)}
    (h : Progress snappy options n entries t) (husable : options.Usable n)
    (hsmall : entriesSize entries + 8 < 2 ^ 32) :
    ∃ t', t.flush snappy = some t' ∧ (t'.status = .ok →
      ∃ l, Building snappy options n l t' ∧ l.entries = entries ∧ l.rows = []) := by
  by_cases hs : t.status = .ok
  · obtain ⟨l, hl, rfl⟩ := h.2 hs
    obtain ⟨t', hflush, -, hok⟩ := hl.flush husable hsmall
    exact ⟨t', hflush, hok⟩
  · refine ⟨t, ?_, fun hok => absurd hok hs⟩
    rw [TableBuilder.flush, if_neg (by rw [h.1]; exact Bool.false_ne_true),
      if_pos (by simpa [TableBuilder.ok] using hs)]

/-- The metaindex block is written behind the filter block. -/
theorem Building.finishMetaindex (hl : Building snappy options n l t) (husable : options.Usable n)
    {file : WritableFile} {status : Status} {offset : Nat} {filterHandle : BlockHandle}
    (h : status = .ok →
      FilterPlaced snappy options (l.seen t.offset) t file offset filterHandle) :
    ∃ file' status' offset' handle, TableBuilder.finishMetaindex snappy
        { t with closed := true, file := file, status := status, offset := offset } filterHandle =
          some ({ t with closed := true, file := file', status := status', offset := offset' },
            handle) ∧
      (status' = .ok → status = .ok ∧
        MetaindexPlaced snappy options filterHandle file offset file' offset' handle) := by
  by_cases hok : status = .ok
  swap
  · exact ⟨file, status, offset, .unset, TableBuilder.finishMetaindex_of_failed hok _,
      fun hs => absurd hs hok⟩
  have hfilter := h hok
  obtain ⟨block, hblock, hlength, hlaid⟩ := @TableBuilder.metaindexBlock_spec options n
    { t with closed := true, file := file, status := status, offset := offset }
    (l.seen t.offset) t.offset hl.filters hl.options_eq husable filterHandle
    fun policy hpolicy => by
      obtain ⟨reader, hstored⟩ := hfilter.stored policy hpolicy
      obtain ⟨raw, hraw, -⟩ := hstored.stored
      exact hraw.fits
  have hsmall := hfilter.lt
  obtain ⟨file', status', offset', handle, hwrite, hspec⟩ := @TableBuilder.write_spec snappy
    { t with closed := true, file := file, status := status, offset := offset }
    hfilter.offset_eq (by simp only; omega) block (by omega)
  refine ⟨file', status', offset', handle, ?_, fun hs => ⟨hok, ?_⟩⟩
  · rw [TableBuilder.finishMetaindex, if_pos (by rw [TableBuilder.ok, hok]; rfl), hblock]
    simp only [Option.bind_eq_bind, Option.bind_some, hwrite]
    rfl
  · obtain ⟨hoffset, hhandle, hlt, hle, hbehind, hstored⟩ := hspec hs
    simp only at hhandle hlt hle hbehind
    refine ⟨hoffset, hhandle, hlt, by omega, hstored.fits, hbehind, fun policy hpolicy => ?_⟩
    obtain ⟨row, points, hrow, hkey, hvalue⟩ := hlaid policy hpolicy
    exact ⟨block.finish, row, points, hstored, hrow, hkey, hvalue⟩

/-- The index block is written behind the metaindex block. -/
theorem Building.finishIndex (hl : Building snappy options n l t) (hrows : l.rows = [])
    (hsmall : entriesSize l.entries + 8 < 2 ^ 32) {file : WritableFile} {status : Status}
    {offset : Nat} (h : status = .ok → offset = file.contents.length ∧ offset < 2 ^ 36) :
    ∃ file' status' offset' lastKey indexBlock waiting handle, TableBuilder.finishIndex snappy
        { t with closed := true, file := file, status := status, offset := offset } =
          some ({ t with closed := true, file := file', status := status', offset := offset',
                         lastKey := lastKey, indexBlock := indexBlock,
                         pendingIndexEntry := waiting }, handle) ∧
      (status' = .ok → status = .ok ∧ ∃ indexed,
        IndexPlaced snappy options l indexed file file' offset' handle) := by
  by_cases hok : status = .ok
  swap
  · exact ⟨file, status, offset, t.lastKey, t.indexBlock, t.pendingIndexEntry, .unset,
      TableBuilder.finishIndex_of_failed hok, fun hs => absurd hs hok⟩
  obtain ⟨hend, hlt⟩ := h hok
  obtain ⟨lastKey, indexBlock, indexed, hindexAfter, ⟨rows, points, hbuilds, hentries⟩, hblocks,
    hordered⟩ := hl.indexAfter
      { t with closed := true, file := file, status := status, offset := offset }
      hl.options_eq rfl rfl rfl rfl
  have hlength : indexBlock.finish.length < 2 ^ 32 := by
    have hfinish := length_finish_le hbuilds
    have hsize := hordered.size_index fun d hd =>
      (hl.inFile d.2 (hblocks ▸ List.mem_map_of_mem hd)).stored.fits
    have hcount : rows.length = indexed.length := by
      rw [← length_rowEntries, hentries, List.length_map]
    rw [l.entries_of_indexed hrows hblocks] at hsize
    rw [hentries] at hfinish
    omega
  obtain ⟨file', status', offset', handle, hwrite, hspec⟩ := @TableBuilder.write_spec snappy
    { t with closed := true, file := file, status := status, offset := offset,
             lastKey := lastKey, indexBlock := indexBlock, pendingIndexEntry := false }
    hend (by simp only; omega) indexBlock (by omega)
  refine ⟨file', status', offset', lastKey, indexBlock, false, handle, ?_,
    fun hs => ⟨hok, indexed, ?_⟩⟩
  · rw [TableBuilder.finishIndex, if_pos (by rw [TableBuilder.ok, hok]; rfl), hindexAfter]
    simp only [Option.bind_eq_bind, Option.bind_some, hwrite]
    rfl
  · obtain ⟨hoffset, -, -, hle, hbehind, hstored⟩ := hspec hs
    simp only at hle hbehind
    exact ⟨hoffset, by omega, hbehind,
      ⟨rows, points, indexBlock.finish, hstored, laid_finish hbuilds hlength, hentries⟩, hblocks,
      hordered⟩

/-- With the filter block, the metaindex block, the index block and the footer behind its blocks, a
file is a table of the entries. -/
theorem Building.finishedTable (hl : Building snappy options n l t) (hrows : l.rows = [])
    {file₂ file₃ file₄ file₅ : WritableFile} {offset₂ offset₃ offset₄ : Nat}
    {filterHandle metaindexHandle indexHandle : BlockHandle}
    {indexed : List (Bytes × WrittenBlock)}
    (hfilter : FilterPlaced snappy options (l.seen t.offset) t file₂ offset₂ filterHandle)
    (hmetaindex : MetaindexPlaced snappy options filterHandle file₂ offset₂ file₃ offset₃
      metaindexHandle)
    (hindex : IndexPlaced snappy options l indexed file₃ file₄ offset₄ indexHandle)
    (hfooter : file₅.contents =
      file₄.contents ++ (Footer.mk metaindexHandle indexHandle).bytes) :
    ∃ c, FinishedTable snappy options c file₅.contents ∧ c.entries = l.entries := by
  obtain ⟨rows, points, raw, hraw, hlaid, hentries⟩ := hindex.stored
  obtain ⟨more₂, hfile₂⟩ := hfilter.behind
  obtain ⟨more₃, hfile₃⟩ := hmetaindex.behind
  obtain ⟨more₄, hfile₄⟩ := hindex.behind
  -- what stands behind the filter block and behind the metaindex block
  have hbehind₃ : file₅.contents =
      file₃.contents ++ (more₄ ++ (Footer.mk metaindexHandle indexHandle).bytes) := by
    rw [hfooter, hfile₄, List.append_assoc]
  have hbehind₂ : file₅.contents =
      file₂.contents ++ (more₃ ++ (more₄ ++ (Footer.mk metaindexHandle indexHandle).bytes)) := by
    rw [hbehind₃, hfile₃, List.append_assoc]
  have hmem : ∀ d ∈ indexed, d.2 ∈ l.blocks := fun d hd =>
    hindex.blocks_eq ▸ List.mem_map_of_mem hd
  have hwritten := l.entries_of_indexed hrows hindex.blocks_eq
  have hoffsets := hl.offsets
  rw [← hindex.blocks_eq, List.pairwise_map] at hoffsets
  refine ⟨⟨indexed, rows, raw, indexHandle, metaindexHandle⟩, {
    footer := ⟨_, hfooter⟩
    metaindexFits := hmetaindex.fits
    index := by
      simp only [hfooter]
      exact hraw.append _
    indexLaid := ⟨points, hlaid⟩
    indexEntries := hentries
    blocks := fun d hd => by
      simp only [hbehind₂, hfile₂, List.append_assoc]
      exact (hl.inFile d.2 (hmem d hd)).append _
    offsets := hoffsets
    before := fun d hd => by
      have hbefore := hl.before d.2 (hmem d hd)
      have hle := hfilter.le
      simp only [hmetaindex.handle_eq]
      omega
    inside := by
      have hlt := hmetaindex.lt
      have hend := hmetaindex.offset_eq
      simp only [hmetaindex.handle_eq, hbehind₃, List.length_append]
      omega
    sorted := by
      rw [TableContents.entries, hwritten]
      exact hl.sorted
    ordered := hindex.ordered
    filter := fun policy hpolicy => ?_ }, hwritten⟩
  obtain ⟨reader, hstored⟩ := hfilter.stored policy hpolicy
  have hseen : l.seen t.offset =
      indexed.flatMap fun d => d.2.rows.map fun r => (d.2.handle.offset, r.key) := by
    rw [TableLayout.seen, hrows, ← hindex.blocks_eq, List.flatMap_map]
    exact List.append_nil _
  refine ⟨filterHandle, reader, ?_, ?_⟩
  · simp only [hbehind₃]
    exact (hmetaindex.stored policy hpolicy).append _
  · rw [← hseen]
    simp only [hbehind₂]
    exact hstored.append _

/-- Behind a flush that has failed nothing is written. -/
theorem TableBuilder.finish_of_failed {t₁ : TableBuilder} (hflush : t.flush snappy = some t₁)
    (h : t₁.status ≠ .ok) : t.finish snappy = some { t₁ with closed := true } := by
  have hfailed : ({ t₁ with closed := true } : TableBuilder).status ≠ .ok := h
  rw [finish, hflush]
  simp only [Option.bind_eq_bind, Option.bind_some, finishFilter_of_failed hfailed,
    finishMetaindex_of_failed hfailed, finishIndex_of_failed hfailed,
    finishFooter_of_failed hfailed]

/-- `Finish` goes through, and without a failure the file is a table of the entries. -/
theorem Progress.finish {entries : List (Bytes × Bytes)}
    (h : Progress snappy options n entries t) (husable : options.Usable n)
    (hsmall : entriesSize entries + 8 < 2 ^ 32) (hfilters : n * entries.length < 2 ^ 32) :
    ∃ t', t.finish snappy = some t' ∧ (t'.status = .ok →
      t'.numEntries = entries.length ∧ t'.offset = t'.file.contents.length ∧
        ∃ c, FinishedTable snappy options c t'.file.contents ∧ c.entries = entries) := by
  obtain ⟨t₁, hflush, hok₁⟩ := h.flush husable hsmall
  by_cases h₁ : t₁.status = .ok
  swap
  · exact ⟨_, TableBuilder.finish_of_failed hflush h₁, fun hs => absurd hs h₁⟩
  obtain ⟨l, hl, rfl, hrows⟩ := hok₁ h₁
  have hbound : t₁.offset < 2 ^ 32 := by
    have hsmall₁ := hl.small
    rw [TableLayout.entries, entriesSize_append] at hsmall
    omega
  obtain ⟨file₂, status₂, offset₂, filterHandle, hfilter, hspec₂⟩ :=
    @TableBuilder.finishFilter_spec snappy options n { t₁ with closed := true } (l.seen t₁.offset)
      hl.filters hl.options_eq husable h₁ hl.offset hbound (l.length_seen_lt hsmall _)
      (by rw [l.length_seen]; exact hfilters)
  obtain ⟨file₃, status₃, offset₃, metaindexHandle, hmetaindex, hspec₃⟩ :=
    hl.finishMetaindex husable fun hs => { hspec₂ hs with }
  obtain ⟨file₄, status₄, offset₄, lastKey, indexBlock, waiting, indexHandle, hindex, hspec₄⟩ :=
    hl.finishIndex hrows hsmall fun hs => ⟨(hspec₃ hs).2.offset_eq, (hspec₃ hs).2.small⟩
  obtain ⟨file₅, status₅, offset₅, hfooter, hspec₅⟩ :=
    @TableBuilder.finishFooter_spec
      { t₁ with closed := true, file := file₄, status := status₄, offset := offset₄,
                lastKey := lastKey, indexBlock := indexBlock, pendingIndexEntry := waiting }
      metaindexHandle indexHandle fun hs => by
        obtain ⟨h₃, indexed, hplaced⟩ := hspec₄ hs
        obtain ⟨rows, points, raw, hraw, -⟩ := hplaced.stored
        have hlt := hplaced.small
        exact ⟨hplaced.offset_eq, by simp only; omega, (hspec₃ h₃).2.fits, hraw.fits⟩
  refine ⟨{ t₁ with closed := true, file := file₅, status := status₅, offset := offset₅,
                    lastKey := lastKey, indexBlock := indexBlock, pendingIndexEntry := waiting },
    ?_, fun hs => ?_⟩
  · rw [TableBuilder.finish, hflush]
    simp only [Option.bind_eq_bind, Option.bind_some, hfilter, hmetaindex, hindex]
    exact hfooter
  · obtain ⟨h₄, hoffset₅, hfile₅⟩ := hspec₅ hs
    obtain ⟨h₃, indexed, hplaced⟩ := hspec₄ h₄
    obtain ⟨h₂, hmetaindexPlaced⟩ := hspec₃ h₃
    exact ⟨hl.numEntries, hoffset₅,
      hl.finishedTable hrows { hspec₂ h₂ with } hmetaindexPlaced hplaced hfile₅⟩

end Stages

namespace TableBuilder

/-- No call of the file has failed, and none will. -/
def Healthy (t : TableBuilder) : Prop := t.status = .ok ∧ t.file.faults = []

variable {snappy : Snappy} {options : TableOptions} {t t' : TableBuilder}

theorem append_healthy {f : WritableFile} (h : f.faults = []) (data : Bytes) :
    (f.append data).2 = .ok ∧ (f.append data).1.faults = [] := by
  rw [WritableFile.append, h]
  exact ⟨rfl, rfl⟩

theorem Healthy.ok_eq (h : Healthy t) : t.ok = true := by
  rw [ok, h.1]
  rfl

theorem Healthy.onFilterBlock {f : FilterPolicy → FilterBlockBuilder → Option FilterBlockBuilder}
    (h : Healthy t) (hcall : t.onFilterBlock f = some t') : Healthy t' := by
  rw [TableBuilder.onFilterBlock] at hcall
  split at hcall
  · rwa [← Option.some.inj hcall]
  · obtain ⟨policy, -, hcall⟩ := Option.bind_eq_some_iff.mp hcall
    obtain ⟨filterBlock, -, hcall⟩ := Option.bind_eq_some_iff.mp hcall
    rw [← Option.some.inj hcall]
    exact h

theorem Healthy.writeRawBlock (h : Healthy t) (contents : Bytes) (type : CompressionType) :
    Healthy (t.writeRawBlock contents type).1 := by
  obtain ⟨hcontents, hfaults⟩ := append_healthy h.2 contents
  obtain ⟨htrailer, hfaults'⟩ := append_healthy hfaults (blockTrailer contents type)
  rw [TableBuilder.writeRawBlock]
  simp only [hcontents, if_true]
  exact ⟨htrailer, hfaults'⟩

theorem Healthy.flushBlock (h : Healthy t) (hcall : t.flushBlock snappy = some t') :
    Healthy t' := by
  have hwrite : Healthy (t.writeBlock snappy t.dataBlock).1 := h.writeRawBlock _ _
  obtain ⟨hstatus, hfaults⟩ := append_healthy hwrite.2 []
  simp only [TableBuilder.flushBlock] at hcall
  refine Healthy.onFilterBlock ?_ hcall
  split_ifs
  · exact ⟨hstatus, hfaults⟩
  · exact hwrite

theorem Healthy.flush (h : Healthy t) (hcall : t.flush snappy = some t') : Healthy t' := by
  rw [TableBuilder.flush] at hcall
  split_ifs at hcall
  · rwa [← Option.some.inj hcall]
  · exact h.flushBlock hcall
  · rwa [← Option.some.inj hcall]

theorem Healthy.addIndexEntry {key : Bytes} (h : Healthy t)
    (hcall : t.addIndexEntry key = some t') : Healthy t' := by
  obtain ⟨handleEncoding, -, hcall⟩ := Option.bind_eq_some_iff.mp hcall
  obtain ⟨indexBlock, -, hcall⟩ := Option.bind_eq_some_iff.mp hcall
  rw [← Option.some.inj hcall]
  exact h

theorem Healthy.addEntry {key value : Bytes} (h : Healthy t)
    (hcall : t.addEntry snappy key value = some t') : Healthy t' := by
  obtain ⟨t₁, hindex, hcall⟩ := Option.bind_eq_some_iff.mp hcall
  have h₁ : Healthy t₁ := by
    rw [indexBefore] at hindex
    split_ifs at hindex
    · exact h.addIndexEntry hindex
    · rwa [← Option.some.inj hindex]
  obtain ⟨t₂, hfilter, hcall⟩ := Option.bind_eq_some_iff.mp hcall
  have h₂ : Healthy t₂ := h₁.onFilterBlock hfilter
  obtain ⟨dataBlock, -, hcall⟩ := Option.bind_eq_some_iff.mp hcall
  have hadded : Healthy { t₂ with lastKey := key, numEntries := t₂.numEntries + 1,
                                  dataBlock := dataBlock } := h₂
  simp only at hcall
  split_ifs at hcall
  · exact hadded.flush hcall
  · rwa [← Option.some.inj hcall]

theorem Healthy.add {key value : Bytes} (h : Healthy t)
    (hcall : t.add snappy key value = some t') : Healthy t' := by
  rw [TableBuilder.add] at hcall
  split_ifs at hcall
  · exact h.addEntry hcall
  · rwa [← Option.some.inj hcall]

theorem Healthy.addAll {entries : List (Bytes × Bytes)} (h : Healthy t)
    (hcall : t.addAll snappy entries = some t') : Healthy t' := by
  induction entries generalizing t with
  | nil => rwa [← Option.some.inj hcall]
  | cons e entries ih =>
    rw [TableBuilder.addAll, List.foldlM_cons] at hcall
    obtain ⟨t₁, hadd, hcall⟩ := Option.bind_eq_some_iff.mp hcall
    exact ih (h.add hadd) hcall

theorem Healthy.finishFilter {r : TableBuilder × BlockHandle} (h : Healthy t)
    (hcall : t.finishFilter = some r) : Healthy r.1 := by
  rw [TableBuilder.finishFilter] at hcall
  split at hcall
  · rw [if_pos h.ok_eq] at hcall
    obtain ⟨policy, -, hcall⟩ := Option.bind_eq_some_iff.mp hcall
    rw [← Option.some.inj hcall]
    exact h.writeRawBlock _ _
  · rwa [← Option.some.inj hcall]

theorem Healthy.finishMetaindex {handle : BlockHandle} {r : TableBuilder × BlockHandle}
    (h : Healthy t) (hcall : t.finishMetaindex snappy handle = some r) : Healthy r.1 := by
  rw [TableBuilder.finishMetaindex, if_pos h.ok_eq] at hcall
  obtain ⟨block, -, hcall⟩ := Option.bind_eq_some_iff.mp hcall
  rw [← Option.some.inj hcall]
  exact h.writeRawBlock _ _

theorem Healthy.finishIndex {r : TableBuilder × BlockHandle} (h : Healthy t)
    (hcall : t.finishIndex snappy = some r) : Healthy r.1 := by
  rw [TableBuilder.finishIndex, if_pos h.ok_eq] at hcall
  obtain ⟨t₁, hafter, hcall⟩ := Option.bind_eq_some_iff.mp hcall
  have h₁ : Healthy t₁ := by
    rw [indexAfter] at hafter
    split_ifs at hafter
    · exact h.addIndexEntry hafter
    · rwa [← Option.some.inj hafter]
  rw [← Option.some.inj hcall]
  exact h₁.writeRawBlock _ _

theorem Healthy.finishFooter {metaindexHandle indexHandle : BlockHandle} (h : Healthy t)
    (hcall : t.finishFooter metaindexHandle indexHandle = some t') : Healthy t' := by
  rw [TableBuilder.finishFooter, if_pos h.ok_eq] at hcall
  obtain ⟨footerEncoding, -, hcall⟩ := Option.bind_eq_some_iff.mp hcall
  rw [← Option.some.inj hcall]
  exact append_healthy h.2 footerEncoding

/-- `Finish` ends without a failure if no call of the file fails. -/
theorem Healthy.finish (h : Healthy t) (hcall : t.finish snappy = some t') : Healthy t' := by
  obtain ⟨t₁, hflush, hcall⟩ := Option.bind_eq_some_iff.mp hcall
  have hflushed : Healthy t₁ := h.flush hflush
  have h₁ : Healthy { t₁ with closed := true } := hflushed
  obtain ⟨⟨t₂, filterHandle⟩, hfilter, hcall⟩ := Option.bind_eq_some_iff.mp hcall
  have h₂ : Healthy t₂ := h₁.finishFilter hfilter
  obtain ⟨⟨t₃, metaindexHandle⟩, hmeta, hcall⟩ := Option.bind_eq_some_iff.mp hcall
  have h₃ : Healthy t₃ := h₂.finishMetaindex hmeta
  obtain ⟨⟨t₄, indexHandle⟩, hindex, hcall⟩ := Option.bind_eq_some_iff.mp hcall
  have h₄ : Healthy t₄ := h₃.finishIndex hindex
  exact h₄.finishFooter hcall

/-- A table is built without a failure if no call of the file fails. -/
theorem healthy_build {file : WritableFile} {entries : List (Bytes × Bytes)}
    (hfile : file.faults = []) (hcall : build snappy options file entries = some t) :
    Healthy t := by
  obtain ⟨t₁, hnew, hcall⟩ := Option.bind_eq_some_iff.mp hcall
  obtain ⟨t₂, hadd, hfinish⟩ := Option.bind_eq_some_iff.mp hcall
  have h₁ : Healthy t₁ := by
    rw [new] at hnew
    split_ifs at hnew
    exact Healthy.onFilterBlock ⟨rfl, hfile⟩ hnew
  exact (h₁.addAll hadd).finish hfinish

end TableBuilder

/-- All calls of a builder go through, and without a failure of the file there is a finished
table. -/
theorem TableBuilder.build_finished {snappy : Snappy} {options : TableOptions} {n : Nat}
    (husable : options.Usable n) {file : WritableFile} (hfile : file.contents = [])
    {entries : List (Bytes × Bytes)}
    (hsorted : Increasing options.comparator.compare (entries.map Prod.fst))
    (hsmall : entriesSize entries + 8 < 2 ^ 32) (hfilters : n * entries.length < 2 ^ 32) :
    ∃ b, TableBuilder.build snappy options file entries = some b ∧
      (file.faults = [] → b.status = .ok) ∧ (b.status = .ok →
      b.numEntries = entries.length ∧ b.offset = b.file.contents.length ∧
        ∃ c, FinishedTable snappy options c b.file.contents ∧ c.entries = entries) := by
  obtain ⟨b₁, hnew, h₁⟩ := @progress_new snappy options n husable file hfile
  obtain ⟨b₂, hadd, h₂⟩ := h₁.addAll husable hsorted hsmall
  obtain ⟨b₃, hfinish, hok⟩ := h₂.finish husable hsmall hfilters
  have hbuild : TableBuilder.build snappy options file entries = some b₃ := by
    rw [TableBuilder.build, hnew]
    simp only [Option.bind_eq_bind, Option.bind_some, hadd]
    exact hfinish
  exact ⟨b₃, hbuild, fun hfaults => (TableBuilder.healthy_build hfaults hbuild).1, hok⟩

end WiscKey
