import WiscKey.Table.TableLayout

/-!
# The runs of a table builder

Every call of a builder keeps the layout, until the file reports a failure. What it has then is not
finished.
-/

namespace WiscKey

/-- What a caller of the builder relies on: the filters are sound and bounded. -/
structure TableOptions.Usable (options : TableOptions) (n : Nat) : Prop where
  interval : 1 ≤ options.blockRestartInterval
  filter : ∀ policy, options.filterPolicy = some policy →
    policy.toFilterPolicy.Sound ∧ policy.toFilterPolicy.Bounded n

section Filters

open FilterBlockBuilder

variable {p : FilterPolicy} {n offset offset' : Nat} {seen seen' : List (Nat × Bytes)}
  {b : FilterBlockBuilder}

/-- A filter takes the room that was kept for its keys. -/
theorem size_generateFilter (hn : p.Bounded n) {b : FilterBlockBuilder}
    (hlt : b.start.length < 2 ^ 31) :
    (b.generateFilter p).result.length + n * (b.generateFilter p).start.length ≤
      b.result.length + n * b.start.length := by
  unfold generateFilter
  simp only
  split_ifs with hempty
  · exact le_rfl
  · have hkeys : b.tmpKeys.length = b.start.length := by
      rw [tmpKeys, List.length_map, List.length_range]
    have hint : toInt32 b.start.length = (b.start.length : Int) := by
      unfold toInt32
      omega
    have hfilter := hn b.tmpKeys b.start.length b.result (Nat.pos_of_ne_zero hempty) hkeys.ge hlt
    rw [List.length_append, List.length_nil, Nat.mul_zero, hint]
    omega

theorem length_start_generateFilter_le (p : FilterPolicy) (b : FilterBlockBuilder) :
    (b.generateFilter p).start.length ≤ b.start.length := by
  unfold generateFilter
  simp only
  split_ifs
  · exact le_rfl
  · exact Nat.zero_le _

theorem size_generateUntil (hn : p.Bounded n) (index : Nat) {b : FilterBlockBuilder}
    (hlt : b.start.length < 2 ^ 31) :
    (b.generateUntil p index).result.length + n * (b.generateUntil p index).start.length ≤
      b.result.length + n * b.start.length := by
  induction hm : index - b.filterOffsets.length generalizing b with
  | zero =>
    rw [generateUntil, if_neg (by omega)]
  | succ m ih =>
    have hlength := length_generateFilter p b
    rw [generateUntil, if_pos (by omega)]
    exact (ih ((length_start_generateFilter_le p b).trans_lt hlt) (by omega)).trans
      (size_generateFilter hn hlt)

theorem size_lastFilter (hn : p.Bounded n) {b : FilterBlockBuilder}
    (hlt : b.start.length < 2 ^ 31) :
    (b.lastFilter p).result.length ≤ b.result.length + n * b.start.length := by
  rw [lastFilter]
  split_ifs
  · exact Nat.le_add_right _ _
  · exact (Nat.le_add_right _ _).trans (size_generateFilter hn hlt)

theorem FiltersBuilt.addKey (h : FiltersBuilt p n seen offset b) (key : Bytes) :
    FiltersBuilt p n (seen ++ [(offset, key)]) offset (b.addKey key) := by
  obtain ⟨pending, filters, hholds, hlength⟩ := h.holds
  refine ⟨⟨_, filters, hholds.addKey hlength.symm key, hlength⟩, ?_⟩
  have hsize := h.size
  simp only [FilterBlockBuilder.addKey, List.length_append, List.length_singleton, Nat.mul_add]
  omega

/-- `StartBlock` at an offset that is not in front of the last one. -/
theorem FiltersBuilt.startBlock (hp : p.Sound) (hn : p.Bounded n) (hseen : seen.length < 2 ^ 31)
    (h : FiltersBuilt p n seen offset b) (hle : offset ≤ offset') :
    ∃ b', b.startBlock p offset' = some b' ∧ FiltersBuilt p n seen offset' b' := by
  obtain ⟨pending, filters, hholds, hlength⟩ := h.holds
  have hindex : filters.length ≤ offset' / kFilterBase := by
    rw [hlength]
    exact Nat.div_le_div_right hle
  refine ⟨b.generateUntil p (offset' / kFilterBase), ?_,
    hholds.generateUntil hp (.of_length hseen) hindex,
    (size_generateUntil hn _ (hholds.length_start_le.trans_lt hseen)).trans h.size⟩
  rw [FilterBlockBuilder.startBlock, hholds.length_filterOffsets, if_pos hindex]

/-- A call of the filter block goes through if it does for a policy. -/
theorem FilterState.onFilterBlock {options : TableOptions} {t : TableBuilder}
    {f : FilterPolicy → FilterBlockBuilder → Option FilterBlockBuilder}
    (h : FilterState options n seen offset t.filterBlock) (hoptions : t.options = options)
    (hf : ∀ policy b, options.filterPolicy = some policy →
      FiltersBuilt policy.toFilterPolicy n seen offset b →
        ∃ b', f policy.toFilterPolicy b = some b' ∧
          FiltersBuilt policy.toFilterPolicy n seen' offset' b') :
    ∃ filterBlock, t.onFilterBlock f = some { t with filterBlock := filterBlock } ∧
      FilterState options n seen' offset' filterBlock := by
  cases hb : t.filterBlock with
  | none =>
    rw [hb] at h
    have hcall : t.onFilterBlock f = some t := by rw [TableBuilder.onFilterBlock, hb]
    exact ⟨none, hcall.trans (by rw [← hb]), h⟩
  | some b =>
    rw [hb] at h
    obtain ⟨policy, hpolicy, hbuilt⟩ := h
    obtain ⟨b', hcall, hbuilt'⟩ := hf policy b hpolicy hbuilt
    refine ⟨some b', ?_, policy, hpolicy, hbuilt'⟩
    rw [TableBuilder.onFilterBlock, hb, hoptions]
    simp only [hpolicy, Option.bind_eq_bind, Option.bind_some, hcall, Option.pure_def]

end Filters

namespace TableLayout

variable {l : TableLayout} {handle : BlockHandle} {raw : Bytes}

/-- The open block is written. -/
def flush (l : TableLayout) (handle : BlockHandle) (raw : Bytes) : TableLayout :=
  ⟨l.indexed, some ⟨handle, raw, l.rows⟩, []⟩

theorem blocks_flush (h : l.pending = none) :
    (l.flush handle raw).blocks = l.blocks ++ [⟨handle, raw, l.rows⟩] := by
  rw [blocks, blocks, h, Option.toList_none, List.append_nil]
  rfl

theorem written_flush (h : l.pending = none) :
    (l.flush handle raw).written = l.written ++ rowEntries l.rows := by
  rw [written, blocks_flush h, List.flatMap_append, List.flatMap_singleton]
  rfl

theorem entries_flush (h : l.pending = none) : (l.flush handle raw).entries = l.entries := by
  rw [entries, written_flush h, entries]
  exact List.append_nil _

theorem rest_flush (h : l.pending = none) : (l.flush handle raw).rest = l.rest := by
  rw [rest, rest, h]
  exact (List.append_nil _).trans (List.append_nil _)

theorem seen_flush (h : l.pending = none) (offset : Nat) :
    (l.flush handle raw).seen offset = l.seen handle.offset := by
  rw [seen, blocks_flush h, List.flatMap_append, List.flatMap_singleton, seen]
  exact List.append_nil _

end TableLayout

section Steps

variable {snappy : Snappy} {options : TableOptions} {n : Nat} {l : TableLayout} {t : TableBuilder}

/-- What `WriteBlock` does. -/
theorem TableBuilder.writeBlock_spec (snappy : Snappy) (t : TableBuilder) (block : BlockBuilder) :
    ∃ contents type file status offset, t.writeBlock snappy block =
        ({ t with file := file, status := status, offset := offset },
          ⟨t.offset, contents.length⟩) ∧
      Stores snappy block.finish contents type ∧ contents.length ≤ block.finish.length ∧
      (status ≠ .ok → offset = t.offset) ∧
      (status = .ok → offset = (t.offset + (contents.length + kBlockTrailerSize)) % 2 ^ 64 ∧
        file.contents = t.file.contents ++ (contents ++ blockTrailer contents type)) := by
  obtain ⟨hstores, hle⟩ := stores_storedBlock snappy t.options.compression block.finish
  obtain ⟨file, status, offset, hwrite, hfail, hok⟩ := t.writeRawBlock_spec
    (storedBlock snappy t.options.compression block.finish).1
    (storedBlock snappy t.options.compression block.finish).2
  exact ⟨_, _, file, status, offset, hwrite, hstores, hle, hfail, hok⟩

/-- While there are rows, no block waits for its index entry. -/
theorem Building.pending_eq_none (h : Building snappy options n l t) (hrows : l.rows ≠ []) :
    l.pending = none := by
  cases hpending : l.pending with
  | none => rfl
  | some wb => exact absurd (h.handle wb hpending).2 hrows

/-- The open block is written. -/
theorem Building.flushBlock (h : Building snappy options n l t) (husable : options.Usable n)
    (hrows : l.rows ≠ []) (hsmall : entriesSize l.entries + 8 < 2 ^ 32) :
    ∃ t', t.flushBlock snappy = some t' ∧ t'.closed = false ∧ (t'.status = .ok →
      ∃ l', Building snappy options n l' t' ∧ l'.entries = l.entries ∧ l'.rows = []) := by
  have hpending := h.pending_eq_none hrows
  obtain ⟨points, hbuilds⟩ := h.data
  have hlength := length_finish_le hbuilds
  have hpos := List.length_pos_iff.mpr hrows
  have hsize : entriesSize l.entries = entriesSize l.written + entriesSize (rowEntries l.rows) :=
    entriesSize_append ..
  have hoffset := h.small
  obtain ⟨contents, type, file, status, offset, hwrite, hstores, hle, hfail, hok⟩ :=
    t.writeBlock_spec snappy t.dataBlock
  have hstart : ∀ {t' : TableBuilder} {offset : Nat}, t'.options = options →
      t'.filterBlock = t.filterBlock → t.offset ≤ offset → ∃ filterBlock,
        t'.onFilterBlock (fun policy b => b.startBlock policy offset) =
            some { t' with filterBlock := filterBlock } ∧
          FilterState options n (l.seen t.offset) offset filterBlock := by
    intro t' offset hoptions hsame hle
    refine FilterState.onFilterBlock (hsame ▸ h.filters) hoptions fun policy b hpolicy hb => ?_
    obtain ⟨hsound, hbounded⟩ := husable.filter policy hpolicy
    exact hb.startBlock hsound hbounded (l.length_seen_lt hsmall _) hle
  rw [TableBuilder.flushBlock, hwrite]
  simp only [TableBuilder.ok, decide_eq_true_eq]
  by_cases hs : status = .ok
  · obtain ⟨hadvanced, hcontents⟩ := hok hs
    rw [kBlockTrailerSize, Nat.mod_eq_of_lt (by omega)] at hadvanced
    rw [if_pos hs]
    obtain ⟨filterBlock, hcall, hstate⟩ := @hstart
      { t with
        file := file.flush.1, status := file.flush.2, offset := offset, dataBlock := .init,
        pendingIndexEntry := true, pendingHandle := ⟨t.offset, contents.length⟩ }
      offset h.options_eq rfl (by omega)
    refine ⟨_, hcall, h.opened, fun hflushed => ?_⟩
    have hfile : file.flush.1.contents =
        t.file.contents ++ (contents ++ blockTrailer contents type) := by
      rw [← hcontents, ← List.append_nil file.contents]
      exact WritableFile.contents_append hflushed
    have hfront : t.offset = t.file.contents.length := h.offset
    refine ⟨l.flush ⟨t.offset, contents.length⟩ t.dataBlock.finish, ?_,
      TableLayout.entries_flush hpending, rfl⟩
    refine {
      options_eq := h.options_eq
      opened := h.opened
      ok := hflushed
      offset := ?_
      small := ?_
      numEntries := by rw [TableLayout.entries_flush hpending]; exact h.numEntries
      lastKey := by rw [TableLayout.entries_flush hpending]; exact h.lastKey
      data := ⟨[0], BlockBuilder.builds_init _⟩
      index := h.index
      waiting := rfl
      handle := fun wb hwb => ?_
      idle := fun hrest => ?_
      inFile := fun wb hwb => ?_
      offsets := ?_
      before := fun wb hwb => ?_
      sorted := by rw [TableLayout.entries_flush hpending]; exact h.sorted
      ordered := by rw [TableLayout.rest_flush hpending]; exact h.ordered
      filters := by rw [TableLayout.seen_flush hpending]; exact hstate }
    · simp only [hfile, List.length_append, length_blockTrailer, kBlockTrailerSize]
      omega
    · rw [TableLayout.written_flush hpending, entriesSize_append]
      simp only
      omega
    · cases hwb
      exact ⟨rfl, rfl⟩
    · rw [TableLayout.rest_flush hpending] at hrest
      exact h.idle hrest
    · rw [TableLayout.blocks_flush hpending] at hwb
      simp only [hfile]
      rcases List.mem_append.mp hwb with hwb | hwb
      · exact (h.inFile wb hwb).append _
      · rw [List.mem_singleton.mp hwb]
        refine ⟨?_, ?_, points, laid_finish hbuilds (by omega)⟩
        · exact fun hnil => hrows (List.map_eq_nil_iff.mp hnil)
        · have hstored : StoredIn snappy
              (t.file.contents ++ (contents ++ blockTrailer contents type))
              ⟨t.file.contents.length, contents.length⟩ t.dataBlock.finish :=
            storedIn_write hstores (by omega)
          rwa [← hfront] at hstored
    · rw [TableLayout.blocks_flush hpending]
      refine List.pairwise_append.mpr
        ⟨h.offsets, List.pairwise_singleton .., fun wb hwb wb' hwb' => ?_⟩
      rw [List.mem_singleton.mp hwb']
      exact h.before wb hwb
    · rw [TableLayout.blocks_flush hpending] at hwb
      simp only
      rcases List.mem_append.mp hwb with hwb | hwb
      · have hbefore := h.before wb hwb
        omega
      · rw [List.mem_singleton.mp hwb]
        simp only
        omega
  · rw [if_neg hs, hfail hs]
    obtain ⟨filterBlock, hcall, -⟩ := @hstart
      { t with
        file := file, status := status, dataBlock := .init,
        pendingHandle := ⟨t.offset, contents.length⟩ }
      t.offset h.options_eq rfl le_rfl
    exact ⟨_, hcall, h.opened, fun hok' => absurd hok' hs⟩

/-- A data block without rows is empty. -/
theorem BlockBuilder.Builds.empty_iff {interval : Nat} {b : BlockBuilder} {rows : List BlockRow}
    {points : List Nat} (h : Builds interval b rows points) : b.empty = true ↔ rows = [] := by
  rw [BlockBuilder.empty, h.buffer, List.isEmpty_iff]
  constructor
  · intro hnil
    cases rows with
    | nil => rfl
    | cons r rows =>
      have hlength := length_bytes_ge r
      have hzero := congrArg List.length hnil
      simp only [List.map_cons, List.flatten_cons, List.length_append, List.length_nil] at hzero
      omega
  · rintro rfl
    rfl

/-- `Flush` writes the rows that there are. -/
theorem Building.flush (h : Building snappy options n l t) (husable : options.Usable n)
    (hsmall : entriesSize l.entries + 8 < 2 ^ 32) :
    ∃ t', t.flush snappy = some t' ∧ t'.closed = false ∧ (t'.status = .ok →
      ∃ l', Building snappy options n l' t' ∧ l'.entries = l.entries ∧ l'.rows = []) := by
  obtain ⟨points, hbuilds⟩ := h.data
  rw [TableBuilder.flush, if_neg (by rw [h.opened]; exact Bool.false_ne_true),
    if_neg (by rw [TableBuilder.ok, h.ok]; simp)]
  split_ifs with hempty hwaiting
  · exact ⟨t, rfl, h.opened, fun _ => ⟨l, h, rfl, hbuilds.empty_iff.mp hempty⟩⟩
  · have hrows : l.rows ≠ [] := fun hnil => hempty (hbuilds.empty_iff.mpr hnil)
    rw [h.waiting, h.pending_eq_none hrows] at hwaiting
    cases hwaiting
  · exact h.flushBlock husable (fun hnil => hempty (hbuilds.empty_iff.mpr hnil)) hsmall

/-- The last key is that of the last entry. -/
theorem Building.lastKey_spec (h : Building snappy options n l t)
    {front back : List (Bytes × Bytes)} (hentries : l.entries = front ++ back) (hne : back ≠ []) :
    ∃ last ∈ back, t.lastKey = last.1 ∧
      ∀ x ∈ l.entries, options.comparator.compare x.1 last.1 ≠ .gt := by
  obtain ⟨init, last, rfl⟩ := List.eq_nil_or_concat back |>.resolve_left hne
  have hsplit : l.entries = (front ++ init) ++ [last] := by
    rw [hentries, List.concat_eq_append, List.append_assoc]
  refine ⟨last, by simp, by rw [h.lastKey, hsplit]; simp, fun x hx => ?_⟩
  have hsorted := h.sorted
  rw [hsplit, List.map_append] at hsorted
  rw [hsplit] at hx
  rcases List.mem_append.mp hx with hx | hx
  · have hlt := (List.pairwise_append.mp hsorted).2.2 x.1 (List.mem_map_of_mem hx) last.1
      List.mem_cons_self
    rw [hlt]
    exact Ordering.noConfusion
  · rw [List.mem_singleton.mp hx]
    exact not_gt_self

theorem TableBuilder.addIndexEntry_eq {key handleEncoding : Bytes} {indexBlock : BlockBuilder}
    (hencode : t.pendingHandle.encodeTo = some handleEncoding)
    (hadd : t.indexBlock.add t.options.comparator.toComparator 1 key handleEncoding =
      some indexBlock) : t.addIndexEntry key = some
        { t with lastKey := key, indexBlock := indexBlock, pendingIndexEntry := false } := by
  rw [TableBuilder.addIndexEntry, hencode]
  simp only [Option.bind_eq_bind, Option.bind_some, indexRestartInterval, hadd]
  rfl

/-- The block that waits can be put into the index under a key that is not in front of its last. -/
theorem Building.addIndexEntry (h : Building snappy options n l t) {wb : WrittenBlock}
    (hpending : l.pending = some wb) (key : Bytes)
    (hmost : ∀ x ∈ wb.entries, options.comparator.compare x.1 key ≠ .gt) :
    ∃ indexBlock, t.pendingHandle.encodeTo = some wb.handle.bytes ∧
      t.indexBlock.add options.comparator.toComparator 1 key wb.handle.bytes = some indexBlock ∧
      ∃ rows points, BlockBuilder.Builds 1 indexBlock rows points ∧
        rowEntries rows = l.indexEntries ++ [(key, wb.handle.bytes)] := by
  have hwb : wb.InFile snappy t.file.contents :=
    h.inFile wb (by rw [TableLayout.blocks, hpending]; simp)
  obtain ⟨rows, points, hbuilds, hrows⟩ := h.index
  obtain ⟨x, hx⟩ := List.exists_mem_of_ne_nil _ hwb.nonempty
  have hkeys : ∀ r ∈ rows, options.comparator.compare r.key key = .lt := by
    intro r hr
    have hentry : (r.key, r.value) ∈ l.indexEntries := hrows ▸ List.mem_map_of_mem hr
    obtain ⟨d, hd, heq⟩ := List.mem_map.mp hentry
    have hbehind := h.ordered.behind d hd x (by rw [TableLayout.rest, hpending]; simp [hx])
    have hindexKey : d.1 = r.key := congrArg Prod.fst heq
    rw [← hindexKey]
    exact lt_of_lt_of_not_gt hbehind.lt (hmost x hx)
  obtain ⟨indexBlock, row, points', hadd, hkey, hvalue, hbuilds'⟩ :=
    @BlockBuilder.Builds.add options.comparator.toComparator _ _ _ _ hbuilds le_rfl key
      wb.handle.bytes hkeys
  refine ⟨indexBlock, ?_, hadd, rows ++ [row], points', hbuilds', ?_⟩
  · rw [(h.handle wb hpending).1, hwb.stored.fits.encodeTo]
  · rw [rowEntries, List.map_append, ← rowEntries, hrows, List.map_singleton, hkey, hvalue]

/-- While a block waits for its index entry, it is behind all others and there are no rows. -/
theorem Building.waits (h : Building snappy options n l t) {wb : WrittenBlock}
    (hpending : l.pending = some wb) :
    wb.InFile snappy t.file.contents ∧ l.blocks = l.indexed.map Prod.snd ++ [wb] ∧
      l.rest = wb.entries ∧
      l.entries = l.indexed.flatMap (fun d => d.2.entries) ++ wb.entries := by
  have hrows := (h.handle wb hpending).2
  have hblocks : l.blocks = l.indexed.map Prod.snd ++ [wb] := by
    rw [TableLayout.blocks, hpending]
    rfl
  refine ⟨h.inFile wb (by rw [hblocks]; simp), hblocks, ?_, ?_⟩
  · rw [TableLayout.rest, hpending, hrows]
    simp [rowEntries]
  · rw [TableLayout.entries, TableLayout.written, hblocks, hrows, List.flatMap_append,
      List.flatMap_singleton, List.flatMap_map]
    exact List.append_nil _

/-- The first step of `Add`: a block that waits gets an index key in front of the new one. -/
theorem Building.separate (h : Building snappy options n l t) {key : Bytes} (value : Bytes)
    (hkey : ∀ x ∈ l.entries, options.comparator.compare x.1 key = .lt) :
    ∃ lastKey indexBlock indexed, t.indexBefore key =
        some { t with lastKey := lastKey, indexBlock := indexBlock, pendingIndexEntry := false } ∧
      (∃ rows points, BlockBuilder.Builds 1 indexBlock rows points ∧
        rowEntries rows = indexed.map fun d => (d.1, d.2.handle.bytes)) ∧
      indexed.map Prod.snd = l.blocks ∧
      KeysOrdered options.comparator indexed (rowEntries l.rows ++ [(key, value)]) := by
  rw [TableBuilder.indexBefore]
  cases hpending : l.pending with
  | none =>
    have hwaiting : t.pendingIndexEntry = false := by rw [h.waiting, hpending]; rfl
    have hrest : l.rest = rowEntries l.rows := by rw [TableLayout.rest, hpending]; rfl
    refine ⟨t.lastKey, t.indexBlock, l.indexed, ?_, h.index, ?_, ?_⟩
    · rw [hwaiting, if_neg Bool.false_ne_true, ← hwaiting]
    · rw [TableLayout.blocks, hpending, Option.toList_none, List.append_nil]
    · rw [← hrest]
      refine h.ordered.concat h.idle fun x hx => hkey x ?_
      rw [hrest] at hx
      exact List.mem_append_right _ hx
  | some wb =>
    have hwaiting : t.pendingIndexEntry = true := by rw [h.waiting, hpending]; rfl
    have hrows := (h.handle wb hpending).2
    obtain ⟨hwb, hblocks, hrest, hentries⟩ := h.waits hpending
    obtain ⟨points, hbuilds⟩ := h.data
    obtain ⟨last, hlast, hlastKey, hmost⟩ := h.lastKey_spec hentries hwb.nonempty
    have hmem : ∀ x ∈ wb.entries, x ∈ l.entries := fun x hx =>
      hentries ▸ List.mem_append_right _ hx
    have hlt := hkey last (hmem last hlast)
    have hge := options.comparator.separator_ge last.1 key hlt
    have hsep := options.comparator.separator_lt last.1 key hlt
    have hlength := options.comparator.length_separator last.1 key
    rw [h.options_eq, hlastKey]
    generalize hmade : options.comparator.findShortestSeparator last.1 key = separator at *
    obtain ⟨indexBlock, hencode, hadd, rows, points, hindex, hindexed⟩ :=
      h.addIndexEntry hpending separator fun x hx => not_gt_trans (hmost x (hmem x hx)) hge
    rw [← h.options_eq] at hadd
    refine ⟨separator, indexBlock, l.indexed ++ [(separator, wb)], ?_,
      ⟨rows, points, hindex, ?_⟩, ?_, ?_⟩
    · rw [hwaiting, if_pos rfl, if_pos (hbuilds.empty_iff.mpr hrows),
        TableBuilder.addIndexEntry_eq hencode hadd, ← h.options_eq]
    · rw [hindexed, List.map_append]
      rfl
    · rw [hblocks, List.map_append]
      rfl
    · rw [hrows]
      refine KeysOrdered.index (hrest ▸ h.ordered) ⟨last, hlast, hlength⟩
        (fun x hx => not_gt_trans (hmost x (hmem x hx)) hge) (fun x hx => ?_) fun d hd x hx => ?_
      · rw [List.mem_singleton.mp hx]
        exact ⟨hsep, last, hlast, key, hmade.symm, not_gt_self⟩
      · rw [List.mem_singleton.mp hx]
        exact (h.ordered.behind d hd last (hrest ▸ hlast)).trans hlt

/-- An entry behind the others is added. -/
theorem Building.addEntry (h : Building snappy options n l t) (husable : options.Usable n)
    {key value : Bytes} (hkey : ∀ x ∈ l.entries, options.comparator.compare x.1 key = .lt)
    (hsmall : entriesSize (l.entries ++ [(key, value)]) + 8 < 2 ^ 32) :
    ∃ t', t.addEntry snappy key value = some t' ∧ t'.closed = false ∧ (t'.status = .ok →
      ∃ l', Building snappy options n l' t' ∧ l'.entries = l.entries ++ [(key, value)]) := by
  obtain rfl := h.options_eq
  obtain ⟨lastKey, indexBlock, indexed, hstage, hindex, hblocks, hordered⟩ :=
    h.separate value hkey
  obtain ⟨points, hbuilds⟩ := h.data
  have hrowKeys : ∀ r ∈ l.rows, t.options.comparator.compare r.key key = .lt := fun r hr =>
    hkey (r.key, r.value) (List.mem_append_right _ (List.mem_map_of_mem hr))
  obtain ⟨dataBlock, row, points', hadd, hrowKey, hrowValue, hbuilds'⟩ :=
    @BlockBuilder.Builds.add t.options.comparator.toComparator _ _ _ _ hbuilds husable.interval key
      value hrowKeys
  obtain ⟨filterBlock, hcall, hstate⟩ := FilterState.onFilterBlock
    (t := { t with lastKey := lastKey, indexBlock := indexBlock, pendingIndexEntry := false })
    (f := fun _ b => some (b.addKey key)) h.filters h.options_eq fun policy b _ hb =>
      ⟨b.addKey key, rfl, hb.addKey key⟩
  have hrow : rowEntries (l.rows ++ [row]) = rowEntries l.rows ++ [(key, value)] := by
    rw [rowEntries, List.map_append, List.map_singleton, hrowKey, hrowValue]
    rfl
  have hblocks' : (TableLayout.mk indexed none (l.rows ++ [row])).blocks = l.blocks := by
    rw [TableLayout.blocks, hblocks]
    exact List.append_nil _
  have hwritten : (TableLayout.mk indexed none (l.rows ++ [row])).written = l.written := by
    rw [TableLayout.written, hblocks', TableLayout.written]
  have hentries : (TableLayout.mk indexed none (l.rows ++ [row])).entries =
      l.entries ++ [(key, value)] := by
    rw [TableLayout.entries, hwritten, hrow, ← List.append_assoc]
    rfl
  have hrest : (TableLayout.mk indexed none (l.rows ++ [row])).rest =
      rowEntries l.rows ++ [(key, value)] := by
    rw [TableLayout.rest, hrow]
    rfl
  have hadded : Building snappy t.options n ⟨indexed, none, l.rows ++ [row]⟩
      { t with
        lastKey := key, indexBlock := indexBlock, pendingIndexEntry := false,
        filterBlock := filterBlock, numEntries := t.numEntries + 1, dataBlock := dataBlock } := {
    options_eq := h.options_eq
    opened := h.opened
    ok := h.ok
    offset := h.offset
    small := hwritten ▸ h.small
    numEntries := by rw [hentries, List.length_append]; exact congrArg (· + 1) h.numEntries
    lastKey := by rw [hentries]; simp
    data := ⟨points', hbuilds'⟩
    index := hindex
    waiting := rfl
    handle := fun wb hwb => by cases hwb
    idle := fun hnil => by rw [hrest] at hnil; simp at hnil
    inFile := by rw [hblocks']; exact h.inFile
    offsets := by rw [hblocks']; exact h.offsets
    before := by rw [hblocks']; exact h.before
    sorted := by
      rw [hentries, List.map_append]
      refine List.pairwise_append.mpr ⟨h.sorted, List.pairwise_singleton .., fun a ha b hb => ?_⟩
      obtain ⟨x, hx, rfl⟩ := List.mem_map.mp ha
      rw [List.mem_singleton.mp hb]
      exact hkey x hx
    ordered := by rw [hrest]; exact hordered
    filters := by
      have hseen : (TableLayout.mk indexed none (l.rows ++ [row])).seen t.offset =
          l.seen t.offset ++ [(t.offset, key)] := by
        rw [TableLayout.seen, hblocks', TableLayout.seen, List.map_append, ← List.append_assoc,
          List.map_singleton, hrowKey]
      rw [hseen]
      exact hstate }
  rw [TableBuilder.addEntry, hstage]
  simp only [Option.bind_eq_bind, Option.bind_some]
  rw [hcall]
  simp only [Option.bind_some, hadd]
  split_ifs
  · obtain ⟨t', hflush, hclosed, hok⟩ := hadded.flush husable (by rw [hentries]; exact hsmall)
    refine ⟨t', hflush, hclosed, fun hs => ?_⟩
    obtain ⟨l', hl', hsame, -⟩ := hok hs
    exact ⟨l', hl', hsame.trans hentries⟩
  · exact ⟨_, rfl, h.opened, fun _ => ⟨_, hadded, hentries⟩⟩

/-- The builder is not closed, and has built the table of some entries unless its file has reported
a failure. -/
def Progress (snappy : Snappy) (options : TableOptions) (n : Nat) (entries : List (Bytes × Bytes))
    (t : TableBuilder) : Prop :=
  t.closed = false ∧
    (t.status = .ok → ∃ l, Building snappy options n l t ∧ l.entries = entries)

variable {entries : List (Bytes × Bytes)}

/-- `Add` goes through with a key behind the others. -/
theorem Progress.add (h : Progress snappy options n entries t) (husable : options.Usable n)
    {key value : Bytes} (hkey : ∀ x ∈ entries, options.comparator.compare x.1 key = .lt)
    (hsmall : entriesSize (entries ++ [(key, value)]) + 8 < 2 ^ 32) :
    ∃ t', t.add snappy key value = some t' ∧
      Progress snappy options n (entries ++ [(key, value)]) t' := by
  rw [TableBuilder.add, if_neg (by rw [h.1]; exact Bool.false_ne_true)]
  by_cases hs : t.status = .ok
  · obtain ⟨l, hl, rfl⟩ := h.2 hs
    have hasserts : ¬ (0 < t.numEntries ∧ t.options.comparator.compare key t.lastKey ≠ .gt) := by
      rintro ⟨hpos, hnot⟩
      rw [hl.numEntries] at hpos
      obtain ⟨last, hlast, hlastKey, -⟩ :=
        hl.lastKey_spec (List.nil_append _).symm (List.length_pos_iff.mp hpos)
      rw [hl.options_eq, hlastKey] at hnot
      exact hnot (Std.OrientedCmp.gt_of_lt (hkey last hlast))
    rw [if_neg (by rw [TableBuilder.ok, hs]; simp), if_neg hasserts]
    exact hl.addEntry husable hkey hsmall
  · rw [if_pos (by simpa [TableBuilder.ok] using hs)]
    exact ⟨t, rfl, h.1, fun hok => absurd hok hs⟩

/-- A new builder has no entries. -/
theorem progress_new (husable : options.Usable n) {file : WritableFile} (hfile : file.contents = []) :
    ∃ t, TableBuilder.new options file = some t ∧ Progress snappy options n [] t := by
  have hstate : FilterState options n [] 0 (options.filterPolicy.map fun _ => .init) := by
    cases hpolicy : options.filterPolicy with
    | none => exact hpolicy
    | some policy =>
      refine ⟨policy, hpolicy, ⟨[], [], .init _, (Nat.zero_div _).symm⟩, ?_⟩
      exact Nat.zero_le _
  rw [TableBuilder.new, if_neg (by have := husable.interval; omega)]
  obtain ⟨filterBlock, hcall, hstate'⟩ := @FilterState.onFilterBlock n 0 0 [] [] options
    { options := options, file := file, offset := 0, status := .ok, dataBlock := .init,
      indexBlock := .init, lastKey := [], numEntries := 0, closed := false,
      filterBlock := options.filterPolicy.map fun _ => .init, pendingIndexEntry := false,
      pendingHandle := .unset }
    (fun policy filterBlock => filterBlock.startBlock policy 0) hstate rfl
    fun policy b hpolicy hb => by
      obtain ⟨hsound, hbounded⟩ := husable.filter policy hpolicy
      exact hb.startBlock hsound hbounded (by decide) le_rfl
  refine ⟨_, hcall, rfl, fun _ => ⟨⟨[], none, []⟩, ?_, rfl⟩⟩
  exact {
    options_eq := rfl
    opened := rfl
    ok := rfl
    offset := by rw [hfile]; rfl
    small := Nat.zero_le _
    numEntries := rfl
    lastKey := rfl
    data := ⟨[0], BlockBuilder.builds_init _⟩
    index := ⟨[], [0], BlockBuilder.builds_init _, rfl⟩
    waiting := rfl
    handle := fun wb hwb => by cases hwb
    idle := fun _ => rfl
    inFile := fun wb hwb => by cases hwb
    offsets := List.Pairwise.nil
    before := fun wb hwb => by cases hwb
    sorted := List.Pairwise.nil
    ordered := .nil _ _
    filters := hstate' }

/-- All entries are added, in increasing order. -/
theorem Progress.addAll {more : List (Bytes × Bytes)}
    (h : Progress snappy options n entries t) (husable : options.Usable n)
    (hsorted : Increasing options.comparator.compare ((entries ++ more).map Prod.fst))
    (hsmall : entriesSize (entries ++ more) + 8 < 2 ^ 32) :
    ∃ t', t.addAll snappy more = some t' ∧ Progress snappy options n (entries ++ more) t' := by
  induction more generalizing entries t with
  | nil => exact ⟨t, rfl, by rwa [List.append_nil]⟩
  | cons e more ih =>
    have hsplit : entries ++ e :: more = (entries ++ [e]) ++ more := by simp
    have hkey : ∀ x ∈ entries, options.comparator.compare x.1 e.1 = .lt := fun x hx => by
      rw [List.map_append] at hsorted
      exact (List.pairwise_append.mp hsorted).2.2 x.1 (List.mem_map_of_mem hx) e.1 (by simp)
    have hsmall' : entriesSize (entries ++ [e]) + 8 < 2 ^ 32 := by
      rw [hsplit, entriesSize_append] at hsmall
      omega
    obtain ⟨t₁, hadd, h₁⟩ :=
      @Progress.add snappy options n t entries h husable e.1 e.2 hkey hsmall'
    obtain ⟨t', hrun, h'⟩ := ih h₁ (hsplit ▸ hsorted) (hsplit ▸ hsmall)
    refine ⟨t', ?_, hsplit ▸ h'⟩
    rw [TableBuilder.addAll, List.foldlM_cons, hadd]
    exact hrun

end Steps

end WiscKey
