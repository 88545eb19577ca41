import WiscKey.Table.FilterPolicy
import WiscKey.Table.IndexKeys
import WiscKey.Table.Table
import WiscKey.Version.Get

/-!
# What is read from a table that was built

A finished table is opened without an error. Its iterator shows its entries, an entry is found by
its key, and the offsets that are told go up with the keys.
-/

namespace WiscKey

namespace TwoLevelIterator

variable {τ σ : Type} {indexOps : IterOps τ} {dataOps : IterOps σ} {blockFunction : Bytes → σ}
  {P : τ → Prop} {Q : σ → Prop} {t t' : TwoLevelIterator τ σ}

/-- The index and the data iterator have a property each, and no error was saved. -/
structure Clean (P : τ → Prop) (Q : σ → Prop) (t : TwoLevelIterator τ σ) : Prop where
  index : P t.indexIter
  data : ∀ s, t.dataIter = some s → Q s
  saved : t.saved = .ok

/-- Iterators with the properties have no error, and those of the index lead to others. -/
structure KeepsClean (indexOps : IterOps τ) (dataOps : IterOps σ) (blockFunction : Bytes → σ)
    (P : τ → Prop) (Q : σ → Prop) : Prop where
  indexCall : ∀ s c, P s → P (indexOps.call s c)
  dataCall : ∀ s c, Q s → Q (dataOps.call s c)
  indexStatus : ∀ s, P s → indexOps.status s = .ok
  dataStatus : ∀ s, Q s → dataOps.status s = .ok
  opens : ∀ s, P s → indexOps.valid s = true → Q (blockFunction (indexOps.value s))

namespace Clean

variable (hkeeps : KeepsClean indexOps dataOps blockFunction P Q)

include hkeeps

theorem setDataIterator (h : Clean P Q t) {o : Option σ} (ho : ∀ s, o = some s → Q s) :
    Clean P Q (t.setDataIterator dataOps o) := by
  rw [TwoLevelIterator.setDataIterator]
  cases hdata : t.dataIter with
  | none => exact ⟨h.index, ho, h.saved⟩
  | some s =>
    have hstatus := hkeeps.dataStatus s (h.data s hdata)
    have hsave : t.saveError (dataOps.status s) = t :=
      if_neg fun hor => hor.2 hstatus
    simp only [hsave]
    exact ⟨h.index, ho, h.saved⟩

theorem initDataBlock (h : Clean P Q t) :
    Clean P Q (t.initDataBlock indexOps dataOps blockFunction) := by
  rw [TwoLevelIterator.initDataBlock]
  simp only
  split_ifs with hvalid hsame
  · exact h
  · have hmarked : Clean P Q { t with dataBlockHandle := indexOps.value t.indexIter } :=
      ⟨h.index, h.data, h.saved⟩
    refine hmarked.setDataIterator hkeeps fun s hs => ?_
    rw [← Option.some.inj hs]
    exact hkeeps.opens _ h.index hvalid
  · exact h.setDataIterator hkeeps fun s hs => by cases hs

omit hkeeps in
theorem moveIndex {move : τ → τ} (h : Clean P Q t) (hmove : ∀ s, P s → P (move s)) :
    Clean P Q (t.moveIndex move) :=
  ⟨hmove _ h.index, h.data, h.saved⟩

omit hkeeps in
theorem moveData {move : σ → σ} (h : Clean P Q t) (hmove : ∀ s, Q s → Q (move s)) :
    Clean P Q (t.moveData move) := by
  refine ⟨h.index, fun s hs => ?_, h.saved⟩
  obtain ⟨s', hs', rfl⟩ := Option.map_eq_some_iff.mp hs
  exact hmove s' (h.data s' hs')

theorem skipEmptyDataBlocks {indexMove : τ → τ} {dataMove : σ → σ}
    (hindex : ∀ s, P s → P (indexMove s)) (hdata : ∀ s, Q s → Q (dataMove s)) {fuel : Nat}
    (h : Clean P Q t) (hskip : t.skipEmptyDataBlocks indexOps dataOps blockFunction indexMove
      dataMove fuel = some t') : Clean P Q t' := by
  induction fuel generalizing t with
  | zero => cases hskip
  | succ fuel ih =>
    rw [TwoLevelIterator.skipEmptyDataBlocks] at hskip
    split_ifs at hskip
    · rwa [← Option.some.inj hskip]
    · exact ih (((h.moveIndex hindex).initDataBlock hkeeps).moveData hdata) hskip
    · rw [← Option.some.inj hskip]
      exact h.setDataIterator hkeeps fun s hs => by cases hs

/-- A call keeps the properties. -/
theorem call (h : Clean P Q t) {fuel : Nat} {c : IterCall}
    (hcall : t.call indexOps dataOps blockFunction fuel c = some t') : Clean P Q t' := by
  have hindex := fun c s => hkeeps.indexCall s c
  have hdata := fun c s => hkeeps.dataCall s c
  cases c with
  | seekToFirst =>
    exact (((h.moveIndex (hindex .seekToFirst)).initDataBlock hkeeps).moveData
      (hdata .seekToFirst)).skipEmptyDataBlocks hkeeps (hindex .next) (hdata .seekToFirst) hcall
  | seekToLast =>
    exact (((h.moveIndex (hindex .seekToLast)).initDataBlock hkeeps).moveData
      (hdata .seekToLast)).skipEmptyDataBlocks hkeeps (hindex .prev) (hdata .seekToLast) hcall
  | seek target =>
    exact (((h.moveIndex (hindex (.seek target))).initDataBlock hkeeps).moveData
      (hdata (.seek target))).skipEmptyDataBlocks hkeeps (hindex .next) (hdata .seekToFirst) hcall
  | next =>
    exact (h.moveData (hdata .next)).skipEmptyDataBlocks hkeeps (hindex .next)
      (hdata .seekToFirst) hcall
  | prev =>
    exact (h.moveData (hdata .prev)).skipEmptyDataBlocks hkeeps (hindex .prev)
      (hdata .seekToLast) hcall

theorem status (h : Clean P Q t) : t.status indexOps dataOps = .ok := by
  have hindex := hkeeps.indexStatus _ h.index
  rw [TwoLevelIterator.status, if_neg (not_not_intro hindex)]
  cases hdata : t.dataIter with
  | none => exact h.saved
  | some s =>
    simp only
    rw [if_neg (not_not_intro (hkeeps.dataStatus s (h.data s hdata))), h.saved]

end Clean

end TwoLevelIterator

namespace BlockIterator

variable {cmp : Comparator} {b : Block} {rows : List BlockRow} {points : List Nat}

/-- A search with a new iterator. -/
theorem seek_new (hlaid : b.Laid rows points)
    (hkeys : rows.Pairwise fun r r' => cmp.compare r.key r'.key = .lt) (target : Bytes) :
    entry? ((new b).move cmp (.seek target)) =
        (rowEntries rows).find? (fun p => cmp.compare p.1 target ≠ .lt) ∧
      ((new b).move cmp (.seek target)).machine.status = .ok := by
  rcases (settled_new hlaid).move hlaid hkeys (.seek target) with ⟨-, hnot⟩ | h
  · exact absurd trivial hnot
  · refine ⟨?_, @Settled.status cmp _ _ _ _ _ h⟩
    rw [ h.entry? hlaid, atPlace_moved (.seek target) fun i hi => by cases hi]
    exact Cursor.current?_seek _

end BlockIterator

namespace TableContents

variable (c : TableContents)

/-- The entries of the index block. -/
def index : List (Bytes × Bytes) := c.indexed.map fun d => (d.1, d.2.handle.bytes)

/-- The entries of the block that a handle leads to. -/
def block (handle : Bytes) : List (Bytes × Bytes) :=
  ((c.indexed.find? fun d => d.2.handle.bytes = handle).map fun d => d.2.entries).getD []

/-- The keys of a table with the offsets of their blocks. -/
def seen : List (Nat × Bytes) :=
  c.indexed.flatMap fun d => d.2.rows.map fun r => (d.2.handle.offset, r.key)

end TableContents

theorem StoredIn.readBlock {snappy : Snappy} {file raw : Bytes} {handle : BlockHandle}
    (h : StoredIn snappy file handle raw) (verify : Bool) :
    readBlock snappy verify file handle = some (.ok raw) := by
  have hread := h.read verify []
  rwa [List.append_nil] at hread

theorem BlockHandle.Fits.decodeFrom_bytes {h : BlockHandle} (hfits : h.Fits) :
    BlockHandle.decodeFrom h.bytes = .ok (h, []) := by
  have hread := hfits.decodeFrom []
  rwa [List.append_nil] at hread

namespace FinishedTable

variable {snappy : Snappy} {options : TableOptions} {c : TableContents} {file : Bytes}
  {d : Bytes × WrittenBlock}

/-- The keys of the index block go up. -/
theorem indexKeys_lt (h : FinishedTable snappy options c file) :
    c.indexed.Pairwise fun d d' => options.comparator.compare d.1 d'.1 = .lt :=
  h.ordered.index_lt fun d hd => (h.blocks d hd).nonempty

theorem indexRows_lt (h : FinishedTable snappy options c file) :
    c.indexRows.Pairwise fun r r' => options.comparator.compare r.key r'.key = .lt := by
  have hpairs : (rowEntries c.indexRows).Pairwise fun p p' =>
      options.comparator.compare p.1 p'.1 = .lt := by
    rw [h.indexEntries, List.pairwise_map]
    exact h.indexKeys_lt
  rwa [rowEntries, List.pairwise_map] at hpairs

theorem entries_lt (h : FinishedTable snappy options c file) :
    c.entries.Pairwise fun p p' => options.comparator.compare p.1 p'.1 = .lt :=
  List.pairwise_map.mp h.sorted

theorem sublist_entries (hd : d ∈ c.indexed) : d.2.entries.Sublist c.entries := by
  obtain ⟨front, back, hsplit⟩ := List.append_of_mem hd
  rw [TableContents.entries, hsplit, List.flatMap_append, List.flatMap_cons]
  exact (List.sublist_append_left _ _).trans (List.sublist_append_right _ _)

/-- The keys of a block go up. -/
theorem rows_lt (h : FinishedTable snappy options c file) (hd : d ∈ c.indexed) :
    d.2.rows.Pairwise fun r r' => options.comparator.compare r.key r'.key = .lt := by
  have hpairs := h.entries_lt.sublist (sublist_entries hd)
  rwa [WrittenBlock.entries, rowEntries, List.pairwise_map] at hpairs

/-- A handle leads to one block. -/
theorem find?_handle (h : FinishedTable snappy options c file) (hd : d ∈ c.indexed) :
    (c.indexed.find? fun d' => d'.2.handle.bytes = d.2.handle.bytes) = some d := by
  obtain ⟨front, back, hsplit⟩ := List.append_of_mem hd
  refine List.find?_eq_some_iff_append.mpr ⟨by simp, front, back, hsplit, fun d' hd' => ?_⟩
  have hd'mem : d' ∈ c.indexed := by
    rw [hsplit]
    exact List.mem_append_left _ hd'
  have hoffsets := h.offsets
  rw [hsplit] at hoffsets
  have hlt := (List.pairwise_append.mp hoffsets).2.2 d' hd' d List.mem_cons_self
  rw [Bool.not_eq_true', decide_eq_false_iff_not]
  intro heq
  have hdecode := (h.blocks d hd).stored.fits.decodeFrom_bytes
  rw [← heq, (h.blocks d' hd'mem).stored.fits.decodeFrom_bytes, Except.ok.injEq,
    Prod.mk.injEq] at hdecode
  rw [hdecode.1] at hlt
  exact Nat.lt_irrefl _ hlt

theorem block_eq (h : FinishedTable snappy options c file) (hd : d ∈ c.indexed) :
    c.block d.2.handle.bytes = d.2.entries := by
  rw [TableContents.block, h.find?_handle hd]
  rfl

theorem joined_block (h : FinishedTable snappy options c file) :
    joined c.block c.index = c.entries := by
  rw [joined, TableContents.index, List.flatMap_map, TableContents.entries]
  exact List.flatMap_congr fun d hd => h.block_eq hd

/-- The index of a finished table is one of its blocks. -/
theorem indexedBlocks (h : FinishedTable snappy options c file) :
    IndexedBlocks options.comparator.toComparator c.index c.block where
  ascending := by
    rw [TableContents.index, List.pairwise_map]
    refine h.indexKeys_lt.imp fun {d d'} hlt => ?_
    rw [hlt]
    exact Ordering.noConfusion
  sorted := by
    refine List.forall_mem_map.mpr fun d hd => ?_
    rw [h.block_eq hd]
    exact h.entries_lt.sublist (sublist_entries hd)
  atMost := by
    refine List.forall_mem_map.mpr fun d hd => ?_
    rw [h.block_eq hd]
    exact h.ordered.atMost d hd
  below := by
    refine List.Pairwise.isChain ?_
    rw [TableContents.index, List.pairwise_map]
    refine h.ordered.below.imp_of_mem fun {d d'} _ hd' hlt => ?_
    rw [h.block_eq hd']
    exact fun x hx => (hlt x hx).lt

/-- A search in all entries begins in the block that the index finds. -/
theorem find?_entries (h : FinishedTable snappy options c file) {k : Bytes}
    (hfind : c.indexed.find? (fun d => options.comparator.compare d.1 k ≠ .lt) = some d) :
    ∃ back : List (Bytes × WrittenBlock),
      (∀ d' ∈ back, ∀ x ∈ d'.2.entries, Separates options.comparator d x) ∧
      c.entries.find? (fun p => options.comparator.compare p.1 k ≠ .lt) =
        (d.2.entries.find? fun p => options.comparator.compare p.1 k ≠ .lt).or
          ((back.flatMap fun d => d.2.entries).find? fun p =>
            options.comparator.compare p.1 k ≠ .lt) := by
  obtain ⟨-, front, back, hsplit, hfront⟩ := List.find?_eq_some_iff_append.mp hfind
  refine ⟨back, ?_, ?_⟩
  · have hbelow := h.ordered.below
    rw [hsplit] at hbelow
    exact (List.pairwise_cons.mp (List.pairwise_append.mp hbelow).2.1).1
  · -- the entries of the blocks in front are below the key
    have hbefore : (front.flatMap fun d => d.2.entries).find?
        (fun p => options.comparator.compare p.1 k ≠ .lt) = none := by
      refine List.find?_eq_none.mpr fun x hx => ?_
      obtain ⟨d', hd', hx'⟩ := List.mem_flatMap.mp hx
      have hmem : d' ∈ c.indexed := by
        rw [hsplit]
        exact List.mem_append_left _ hd'
      have hle := h.ordered.atMost d' hmem x hx'
      have hlt : options.comparator.compare d'.1 k = .lt := by simpa using hfront d' hd'
      simpa using lt_of_not_gt_of_lt hle hlt
    rw [TableContents.entries, hsplit, List.flatMap_append, List.flatMap_cons, List.find?_append,
      hbefore, Option.none_or, List.find?_append]

/-- Behind the last index key there is no entry. -/
theorem find?_entries_none (h : FinishedTable snappy options c file) {k : Bytes}
    (hfind : c.indexed.find? (fun d => options.comparator.compare d.1 k ≠ .lt) = none) :
    c.entries.find? (fun p => options.comparator.compare p.1 k ≠ .lt) = none := by
  refine List.find?_eq_none.mpr fun x hx => ?_
  obtain ⟨d, hd, hx⟩ := List.mem_flatMap.mp hx
  have hlt : options.comparator.compare d.1 k = .lt := by
    simpa using List.find?_eq_none.mp hfind d hd
  simpa using lt_of_not_gt_of_lt (h.ordered.atMost d hd x hx) hlt

end FinishedTable

/-- A filter block tells the same of keys that its policy tells the same of. -/
theorem FilterBlockReader.keyMayMatch_congr {p : FilterPolicy} {k k' : Bytes}
    (h : ∀ filter, p.keyMayMatch k filter = p.keyMayMatch k' filter) (r : FilterBlockReader)
    (wide blockOffset : Nat) :
    r.keyMayMatch p wide blockOffset k = r.keyMayMatch p wide blockOffset k' := by
  unfold keyMayMatch
  simp only [h]

namespace Table

/-- A table was opened on a finished file. -/
structure Opened (snappy : Snappy) (options : TableOptions) (c : TableContents) (file : Bytes)
    (t : Table) : Prop where
  snappy_eq : t.snappy = snappy
  options_eq : t.options = options
  file_eq : t.file = file
  metaindex : t.metaindexHandle = c.metaindexHandle
  index : t.indexBlock = Block.new c.indexRaw
  filter : ∀ policy, options.filterPolicy = some policy → ∃ reader, t.filter = some reader ∧
    reader.WellPlaced ∧
    ∀ e ∈ c.seen, ∀ wide, reader.keyMayMatch policy.toFilterPolicy wide e.1 e.2 = some true

variable {snappy : Snappy} {options : TableOptions} {c : TableContents} {file : Bytes} {t : Table}
  {d : Bytes × WrittenBlock}

/-- The filter of a finished table is found. -/
theorem readPolicy_finished {policy : NamedFilterPolicy} {filterHandle : BlockHandle}
    {reader : FilterBlockReader} {seen : List (Nat × Bytes)}
    (hmeta : MetaStored snappy policy file c.metaindexHandle filterHandle)
    (hfilter : FilterStored snappy policy.toFilterPolicy seen file filterHandle reader) :
    readPolicy snappy options file policy c.metaindexHandle = some (some reader) := by
  obtain ⟨raw, row, points, hstored, hlaid, hkey, hvalue⟩ := hmeta.stored
  obtain ⟨filterRaw, hfilterStored, hnew⟩ := hfilter.stored
  have hentry := (@BlockIterator.seek_new bytewiseComparator _ _ _ hlaid
    (List.pairwise_singleton ..) (TableBuilder.filterKey policy)).1
  have heq : bytewiseComparator.compare row.key row.key = .eq := Std.ReflCmp.compare_self
  have hself : bytewiseComparator.compare row.key (TableBuilder.filterKey policy) ≠ .lt := by
    rw [← hkey, heq]
    exact Ordering.noConfusion
  rw [rowEntries, List.map_singleton, List.find?_cons_of_pos (by simpa using hself)] at hentry
  rw [readPolicy, hstored.readBlock]
  simp only [Option.bind_eq_bind, Option.bind_some, hentry]
  rw [if_pos hkey, readFilter, hvalue, hfilterStored.fits.decodeFrom_bytes]
  simp only [Option.bind_eq_bind, hfilterStored.readBlock, Option.bind_some, hnew]
  rfl

/-- The meta data of a finished table. -/
theorem readMeta_finished (h : FinishedTable snappy options c file) :
    ∃ filter, readMeta snappy options file c.metaindexHandle = some filter ∧
      ∀ policy, options.filterPolicy = some policy → ∃ reader, filter = some reader ∧
        reader.WellPlaced ∧
        ∀ e ∈ c.seen, ∀ wide, reader.keyMayMatch policy.toFilterPolicy wide e.1 e.2 = some true := by
  rw [readMeta]
  cases hpolicy : options.filterPolicy with
  | none => exact ⟨none, rfl, fun policy h => by cases h⟩
  | some policy =>
    obtain ⟨filterHandle, reader, hmeta, hfilter⟩ := h.filter policy hpolicy
    refine ⟨some reader, readPolicy_finished hmeta hfilter, fun policy' hpolicy' => ?_⟩
    rw [← Option.some.inj hpolicy']
    obtain ⟨raw, -, hnew⟩ := hfilter.stored
    obtain ⟨reader', hnew', hplaced⟩ := FilterBlockReader.exists_new raw
    rw [hnew, Option.some.injEq] at hnew'
    exact ⟨reader, rfl, hnew' ▸ hplaced, hfilter.found⟩

/-- A finished file is opened. -/
theorem openTable_finished (h : FinishedTable snappy options c file) :
    ∃ t, openTable snappy options file file.length = some (.ok t) ∧
      t.Opened snappy options c file := by
  obtain ⟨front, hfile⟩ := h.footer
  have hlength := Footer.length_bytes (f := ⟨c.metaindexHandle, c.indexHandle⟩) h.metaindexFits
    h.index.fits
  have hsize : file.length = front.length + Footer.kEncodedLength := by
    rw [hfile, List.length_append]
    exact congrArg _ hlength
  have hinput : (file.drop (file.length - Footer.kEncodedLength)).take Footer.kEncodedLength =
      (Footer.mk c.metaindexHandle c.indexHandle).bytes := by
    rw [hsize, Nat.add_sub_cancel, hfile, List.drop_left]
    exact List.take_of_length_le (Nat.le_of_eq hlength)
  have hdecode := Footer.decodeFrom_bytes (f := ⟨c.metaindexHandle, c.indexHandle⟩)
    h.metaindexFits h.index.fits
  obtain ⟨filter, hmeta, hfilter⟩ := readMeta_finished h
  refine ⟨⟨snappy, options, file, c.metaindexHandle, filter, Block.new c.indexRaw⟩, ?_, ?_⟩
  · rw [openTable, if_neg (by omega)]
    simp only [Option.bind_eq_bind, hinput, hdecode, Option.bind_some]
    rw [openFooter, h.index.readBlock]
    simp only [Option.bind_eq_bind, Option.bind_some, hmeta]
    rfl
  · exact ⟨rfl, rfl, rfl, rfl, rfl, hfilter⟩

namespace Opened

theorem cmp_eq (ho : t.Opened snappy options c file) :
    t.cmp = options.comparator.toComparator := by
  rw [cmp, ho.options_eq]

/-- A handle of the index leads to its block. -/
theorem blockReader (ho : t.Opened snappy options c file)
    (h : FinishedTable snappy options c file) (hd : d ∈ c.indexed) (verify : Bool) :
    t.blockReader verify d.2.handle.bytes = BlockIterator.new (Block.new d.2.raw) := by
  have hstored := (h.blocks d hd).stored
  rw [Table.blockReader, hstored.fits.decodeFrom_bytes]
  simp only [ho.snappy_eq, ho.file_eq, hstored.readBlock]

/-- A search in the index. -/
theorem index_seek (ho : t.Opened snappy options c file)
    (h : FinishedTable snappy options c file) (k : Bytes) :
    BlockIterator.entry? ((BlockIterator.new t.indexBlock).move t.cmp (.seek k)) =
        (c.indexed.find? fun d => options.comparator.compare d.1 k ≠ .lt).map
          (fun d => (d.1, d.2.handle.bytes)) ∧
      ((BlockIterator.new t.indexBlock).move t.cmp (.seek k)).machine.status = .ok := by
  obtain ⟨points, hlaid⟩ := h.indexLaid
  have hseek := BlockIterator.seek_new hlaid h.indexRows_lt k
  rw [h.indexEntries, List.find?_map] at hseek
  rw [ho.cmp_eq, ho.index]
  exact hseek

end Opened

/-- An iterator of the index block without an error. -/
def IndexSettled (c : TableContents) (points : List Nat) (s : BlockIterator) : Prop :=
  ∃ goal, BlockIterator.Settled (Block.new c.indexRaw) c.indexRows points goal s

/-- An iterator of a data block without an error. -/
def DataSettled (c : TableContents) (s : BlockIterator) : Prop :=
  ∃ d ∈ c.indexed, ∃ points goal, (Block.new d.2.raw).Laid d.2.rows points ∧
    BlockIterator.Settled (Block.new d.2.raw) d.2.rows points goal s

namespace Opened

/-- The index and the data blocks give no error, and the index leads to data blocks. -/
theorem keepsClean (ho : t.Opened snappy options c file)
    (h : FinishedTable snappy options c file) (verify : Bool) {points : List Nat}
    (hindex : (Block.new c.indexRaw).Laid c.indexRows points) :
    TwoLevelIterator.KeepsClean (BlockIterator.iterOps t.cmp) (BlockIterator.iterOps t.cmp)
      (t.blockReader verify) (IndexSettled c points) (DataSettled c) where
  indexCall := by
    rintro s call ⟨goal, hs⟩
    rw [ho.cmp_eq, BlockIterator.call_iterOps]
    exact hs.exists_move hindex h.indexRows_lt call
  dataCall := by
    rintro s call ⟨d, hd, points, goal, hlaid, hs⟩
    rw [ho.cmp_eq, BlockIterator.call_iterOps]
    obtain ⟨goal', hs'⟩ := hs.exists_move hlaid (h.rows_lt hd) call
    exact ⟨d, hd, points, goal', hlaid, hs'⟩
  indexStatus := by
    rintro s ⟨goal, hs⟩
    exact hs.status
  dataStatus := by
    rintro s ⟨d, hd, points, goal, hlaid, hs⟩
    exact hs.status
  opens := by
    rintro s ⟨goal, hs⟩ hvalid
    obtain ⟨e, he⟩ : ∃ e, s.entry? = some e := Option.isSome_iff_exists.mp hvalid
    have hvalue : (BlockIterator.iterOps t.cmp).value s = e.2 := by
      simp only [BlockIterator.iterOps, he, Option.map_some, Option.getD_some]
    have hmem : e ∈ rowEntries c.indexRows := by
      rw [ hs.entry? hindex, Cursor.current?_atPlace] at he
      obtain ⟨i, -, hi⟩ := Option.bind_eq_some_iff.mp he
      exact List.mem_of_getElem? hi
    rw [h.indexEntries] at hmem
    obtain ⟨d, hd, rfl⟩ := List.mem_map.mp hmem
    obtain ⟨points', hlaid⟩ := (h.blocks d hd).laid
    rw [hvalue, ho.blockReader h hd]
    exact ⟨d, hd, points', none, hlaid, BlockIterator.settled_new hlaid⟩

end Opened

/-- What a table with some entries gives. -/
structure Reads (t : Table) (entries : List (Bytes × Bytes)) : Prop where
  iterator : ∀ verify fuel, entries.length < fuel →
    (t.iterOps verify fuel).Follows t.cmp entries t.newIterator .invalid
  status : ∀ verify fuel (calls : List IterCall),
    (t.iterOps verify fuel).status (calls.foldl (t.iterOps verify fuel).call t.newIterator) = .ok
  get : ∀ verify wide, ∀ e ∈ entries, t.internalGet verify wide e.1 = some (some e, .ok)
  handed : ∀ verify wide k, ∃ o, t.internalGet verify wide k = some (o, .ok) ∧
    ∀ e, o = some e → entries.find? (fun p => t.cmp.compare p.1 k ≠ .lt) = some e
  offset : ∀ k k', t.cmp.compare k k' ≠ .gt → t.approximateOffsetOf k ≤ t.approximateOffsetOf k'
  inside : ∀ k, t.approximateOffsetOf k < t.file.length

namespace Opened

/-- There are at most as many blocks as entries. -/
theorem length_index_le (h : FinishedTable snappy options c file) :
    c.index.length ≤ c.entries.length := by
  have hblocks : ∀ d ∈ c.indexed, 0 < d.2.entries.length := fun d hd =>
    List.length_pos_iff.mpr (h.blocks d hd).nonempty
  rw [TableContents.index, TableContents.entries, List.length_map]
  clear h
  generalize c.indexed = indexed at hblocks
  induction indexed with
  | nil => exact Nat.zero_le _
  | cons d indexed ih =>
    have hd := hblocks d List.mem_cons_self
    have hrest := ih fun d' hd' => hblocks d' (List.mem_cons_of_mem _ hd')
    rw [List.flatMap_cons, List.length_append, List.length_cons]
    omega

/-- The iterator shows the entries. -/
theorem follows (ho : t.Opened snappy options c file) (h : FinishedTable snappy options c file)
    (verify : Bool) {fuel : Nat} (hfuel : c.entries.length < fuel) :
    (t.iterOps verify fuel).Follows t.cmp c.entries t.newIterator .invalid := by
  obtain ⟨points, hlaid⟩ := h.indexLaid
  have hindexed : IndexedBlocks t.cmp c.index c.block := by
    rw [ho.cmp_eq]
    exact h.indexedBlocks
  have hindex : (BlockIterator.iterOps t.cmp).Follows t.cmp c.index
      (BlockIterator.new t.indexBlock) .invalid := by
    have hfollows := (BlockIterator.settled_new hlaid).follows hlaid h.indexRows_lt
    rw [h.indexEntries] at hfollows
    rw [ho.cmp_eq, ho.index]
    exact hfollows
  have hblocks : ∀ e ∈ c.index, ∃ o, (BlockIterator.iterOps t.cmp).At t.cmp (c.block e.2)
      (t.blockReader verify e.2) o := by
    refine List.forall_mem_map.mpr fun d hd => ⟨none, .invalid, ?_, trivial, rfl⟩
    obtain ⟨points', hlaid'⟩ := (h.blocks d hd).laid
    rw [h.block_eq hd, ho.blockReader h hd, ho.cmp_eq]
    exact (BlockIterator.settled_new hlaid').follows hlaid' (h.rows_lt hd)
  have hrounds : c.index.length < fuel := Nat.lt_of_le_of_lt (length_index_le h) hfuel
  refine IterOps.follows_of_relation (R := TwoLevelIterator.Shows (BlockIterator.iterOps t.cmp)
    (BlockIterator.iterOps t.cmp) t.cmp c.index c.block) (fun s cursor hs => hs.shown?) ?_ ?_
  · intro s cursor call hs hallowed
    obtain ⟨s', hcall, hs'⟩ := hs.call hindexed hblocks hrounds call fun hmove => by
      rcases hmove with rfl | rfl <;> exact hallowed
    rw [h.joined_block] at hs'
    rw [call_iterOps, moveIterator, hcall]
    exact hs'
  · exact .invalid .invalid ⟨hindex, trivial, (fun s hs => by cases hs), rfl⟩ rfl

/-- No sequence of calls leads to an error. -/
theorem status (ho : t.Opened snappy options c file) (h : FinishedTable snappy options c file)
    (verify : Bool) (fuel : Nat) (calls : List IterCall) :
    (t.iterOps verify fuel).status
      (calls.foldl (t.iterOps verify fuel).call t.newIterator) = .ok := by
  obtain ⟨points, hlaid⟩ := h.indexLaid
  have hkeeps := ho.keepsClean h verify hlaid
  have hrun : ∀ (calls : List IterCall) s,
      TwoLevelIterator.Clean (IndexSettled c points) (DataSettled c) s →
      (t.iterOps verify fuel).status (calls.foldl (t.iterOps verify fuel).call s) = .ok := by
    intro calls
    induction calls with
    | nil => exact fun s hs => hs.status hkeeps
    | cons call calls ih =>
      intro s hs
      refine ih _ ?_
      rw [call_iterOps, moveIterator]
      cases hcall : s.call (BlockIterator.iterOps t.cmp) (BlockIterator.iterOps t.cmp)
          (t.blockReader verify) fuel call with
      | none => exact hs
      | some s' => exact hs.call hkeeps hcall
  refine hrun calls _ ⟨⟨none, ?_⟩, (fun s hs => by cases hs), rfl⟩
  have hnew := BlockIterator.settled_new hlaid
  rw [← ho.index] at hnew ⊢
  exact hnew

/-- The filter tells something, and does not rule out what it takes for a key of the block. -/
theorem filteredOut (ho : t.Opened snappy options c file)
    (h : FinishedTable snappy options c file) (hd : d ∈ c.indexed) (wide : Nat) (k : Bytes) :
    ∃ out, t.filteredOut wide d.2.handle.bytes k = some out ∧
      ∀ e ∈ d.2.entries, (∀ policy, options.filterPolicy = some policy → ∀ filter,
        policy.keyMayMatch e.1 filter = policy.keyMayMatch k filter) → out = false := by
  rw [Table.filteredOut, ho.options_eq, (h.blocks d hd).stored.fits.decodeFrom_bytes]
  cases hpolicy : options.filterPolicy with
  | none =>
    refine ⟨false, ?_, fun _ _ _ => rfl⟩
    cases t.filter <;> rfl
  | some policy =>
    obtain ⟨reader, hreader, hplaced, hfound⟩ := ho.filter policy hpolicy
    obtain ⟨may, hmay⟩ := Option.isSome_iff_exists.mp
      (FilterBlockReader.isSome_keyMayMatch hplaced policy.toFilterPolicy wide d.2.handle.offset k)
    rw [hreader]
    simp only [Option.bind_eq_bind, hmay, Option.bind_some]
    refine ⟨!may, rfl, fun e he hsame => ?_⟩
    obtain ⟨r, hr, rfl⟩ := List.mem_map.mp he
    have hseen : (d.2.handle.offset, r.key) ∈ c.seen :=
      List.mem_flatMap.mpr ⟨d, hd, List.mem_map_of_mem hr⟩
    rw [← FilterBlockReader.keyMayMatch_congr (hsame policy rfl), hfound _ hseen wide,
      Option.some.injEq] at hmay
    rw [← hmay]
    rfl

/-- Behind the last index key nothing is handed over. -/
theorem internalGet_none (ho : t.Opened snappy options c file)
    (h : FinishedTable snappy options c file) {k : Bytes}
    (hfind : c.indexed.find? (fun d => options.comparator.compare d.1 k ≠ .lt) = none)
    (verify : Bool) (wide : Nat) : t.internalGet verify wide k = some (none, .ok) := by
  obtain ⟨hentry, hstatus⟩ := ho.index_seek h k
  rw [hfind, Option.map_none] at hentry
  rw [internalGet]
  simp only [hentry, hstatus]

/-- What is handed over from the block that the index leads to. -/
theorem internalGet_block (ho : t.Opened snappy options c file)
    (h : FinishedTable snappy options c file) {k : Bytes}
    (hfind : c.indexed.find? (fun d => options.comparator.compare d.1 k ≠ .lt) = some d)
    (verify : Bool) (wide : Nat) {out : Bool}
    (hout : t.filteredOut wide d.2.handle.bytes k = some out) :
    t.internalGet verify wide k = some (if out then none
      else d.2.entries.find? fun p => options.comparator.compare p.1 k ≠ .lt, .ok) := by
  have hd := List.mem_of_find?_eq_some hfind
  obtain ⟨hentry, hstatus⟩ := ho.index_seek h k
  obtain ⟨points, hlaid⟩ := (h.blocks d hd).laid
  obtain ⟨hblock, hclean⟩ := BlockIterator.seek_new hlaid (h.rows_lt hd) k
  rw [hfind, Option.map_some] at hentry
  rw [internalGet]
  simp only [hentry, hstatus, hout, Option.bind_eq_bind, Option.bind_some]
  rw [ho.blockReader h hd, ho.cmp_eq, hblock, hclean]
  cases out <;> rfl

/-- An entry is found by its key. -/
theorem get (ho : t.Opened snappy options c file) (h : FinishedTable snappy options c file)
    (verify : Bool) (wide : Nat) {e : Bytes × Bytes} (he : e ∈ c.entries) :
    t.internalGet verify wide e.1 = some (some e, .ok) := by
  obtain ⟨d, hd, hed⟩ := List.mem_flatMap.mp he
  have hfind : c.indexed.find? (fun d => options.comparator.compare d.1 e.1 ≠ .lt) = some d := by
    obtain ⟨front, back, hsplit⟩ := List.append_of_mem hd
    have hle := not_gt_iff_not_lt.mp (h.ordered.atMost d hd e hed)
    refine List.find?_eq_some_iff_append.mpr ⟨by simpa using hle, front, back, hsplit,
      fun d' hd' => ?_⟩
    have hbelow := h.ordered.below
    rw [hsplit] at hbelow
    have hlt := (List.pairwise_append.mp hbelow).2.2 d' hd' d List.mem_cons_self e hed
    simpa using hlt.lt
  have hinc : Increasing options.comparator.toComparator.comparePair d.2.entries :=
    h.entries_lt.sublist (FinishedTable.sublist_entries hd)
  have heq : options.comparator.compare e.1 e.1 = .eq := Std.ReflCmp.compare_self
  have hleast := hinc.find?_eq_some (p := fun p => options.comparator.compare p.1 e.1 ≠ .lt) hed
    (by simp [heq]) fun b _ hb => by simpa [Comparator.comparePair] using hb
  obtain ⟨out, hout, hkept⟩ := ho.filteredOut h hd wide e.1
  rw [hkept e hed fun _ _ _ => rfl] at hout
  rw [ho.internalGet_block h hfind verify wide hout, if_neg Bool.false_ne_true, hleast]

/-- What is handed over is the first entry at a key or behind it. -/
theorem handed (ho : t.Opened snappy options c file) (h : FinishedTable snappy options c file)
    (verify : Bool) (wide : Nat) (k : Bytes) :
    ∃ o, t.internalGet verify wide k = some (o, .ok) ∧
      ∀ e, o = some e →
        c.entries.find? (fun p => options.comparator.compare p.1 k ≠ .lt) = some e := by
  cases hfind : c.indexed.find? fun d => options.comparator.compare d.1 k ≠ .lt with
  | none => exact ⟨none, ho.internalGet_none h hfind verify wide, fun e he => by cases he⟩
  | some d =>
    obtain ⟨out, hout, -⟩ := ho.filteredOut h (List.mem_of_find?_eq_some hfind) wide k
    refine ⟨_, ho.internalGet_block h hfind verify wide hout, fun e he => ?_⟩
    cases out with
    | true => cases he
    | false =>
      rw [if_neg Bool.false_ne_true] at he
      obtain ⟨back, -, hentries⟩ := h.find?_entries hfind
      rw [hentries, he, Option.some_or]

/-- The offset that is told. -/
theorem approximateOffsetOf_eq (ho : t.Opened snappy options c file)
    (h : FinishedTable snappy options c file) (k : Bytes) :
    t.approximateOffsetOf k =
      ((c.indexed.find? fun d => options.comparator.compare d.1 k ≠ .lt).map
        fun d => d.2.handle.offset).getD c.metaindexHandle.offset := by
  obtain ⟨hentry, -⟩ := ho.index_seek h k
  rw [approximateOffsetOf]
  cases hfind : c.indexed.find? fun d => options.comparator.compare d.1 k ≠ .lt with
  | none =>
    rw [hfind, Option.map_none] at hentry
    simp only [hentry, ho.metaindex, Option.map_none, Option.getD_none]
  | some d =>
    rw [hfind, Option.map_some] at hentry
    have hfits := (h.blocks d (List.mem_of_find?_eq_some hfind)).stored.fits
    simp only [hentry, hfits.decodeFrom_bytes, Option.map_some, Option.getD_some]

/-- A key that is not behind another one has no greater offset. -/
theorem approximateOffsetOf_le (ho : t.Opened snappy options c file)
    (h : FinishedTable snappy options c file) {k k' : Bytes}
    (hle : options.comparator.compare k k' ≠ .gt) :
    t.approximateOffsetOf k ≤ t.approximateOffsetOf k' := by
  rw [ho.approximateOffsetOf_eq h, ho.approximateOffsetOf_eq h]
  cases hfind' : c.indexed.find? fun d => options.comparator.compare d.1 k' ≠ .lt with
  | none =>
    cases hfind : c.indexed.find? fun d => options.comparator.compare d.1 k ≠ .lt with
    | none => exact le_rfl
    | some d => exact Nat.le_of_lt (h.before d (List.mem_of_find?_eq_some hfind))
  | some d' =>
    have hd' := List.mem_of_find?_eq_some hfind'
    have hbehind' : options.comparator.compare d'.1 k' ≠ .lt := by
      simpa using List.find?_some hfind'
    -- the block of the greater key is at the smaller one or behind it
    have hbehind : options.comparator.compare d'.1 k ≠ .lt := fun hlt =>
      hbehind' (lt_of_lt_of_not_gt hlt hle)
    cases hfind : c.indexed.find? fun d => options.comparator.compare d.1 k ≠ .lt with
    | none =>
      have hnone := List.find?_eq_none.mp hfind d' hd'
      exact absurd hbehind (by simpa using hnone)
    | some d =>
      obtain ⟨-, front, back, hsplit, hfront⟩ := List.find?_eq_some_iff_append.mp hfind
      have hoffsets := h.offsets
      rw [hsplit] at hd' hoffsets
      rcases List.mem_append.mp hd' with hd' | hd'
      · exact absurd hbehind (by simpa using hfront d' hd')
      · rcases List.mem_cons.mp hd' with rfl | hd'
        · exact le_rfl
        · have hlater := (List.pairwise_cons.mp (List.pairwise_append.mp hoffsets).2.1).1 d' hd'
          exact Nat.le_of_lt hlater

theorem approximateOffsetOf_lt (ho : t.Opened snappy options c file)
    (h : FinishedTable snappy options c file) (k : Bytes) :
    t.approximateOffsetOf k < t.file.length := by
  rw [ho.approximateOffsetOf_eq h, ho.file_eq]
  cases hfind : c.indexed.find? fun d => options.comparator.compare d.1 k ≠ .lt with
  | none => exact h.inside
  | some d => exact (h.before d (List.mem_of_find?_eq_some hfind)).trans h.inside

/-- A table that was opened on a finished file reads its entries. -/
theorem reads (ho : t.Opened snappy options c file) (h : FinishedTable snappy options c file) :
    t.Reads c.entries where
  iterator verify fuel hfuel := ho.follows h verify hfuel
  status verify fuel calls := ho.status h verify fuel calls
  get verify wide e he := ho.get h verify wide he
  handed verify wide k := by
    rw [ho.cmp_eq]
    exact ho.handed h verify wide k
  offset k k' hle := by
    rw [ho.cmp_eq] at hle
    exact ho.approximateOffsetOf_le h hle
  inside k := ho.approximateOffsetOf_lt h k

end Opened

end Table

section InternalKeys

theorem length_orShortened_le (key tmp : Bytes) : (orShortened key tmp).length ≤ key.length := by
  rw [orShortened]
  split_ifs with hshorter
  · have htmp := hshorter.1
    rw [extractUserKey, List.length_take] at htmp
    rw [earliestKey, length_appendInternalKey]
    simp only
    omega
  · exact le_rfl

/-- `InternalKeyComparator` over the bytewise comparator, with the functions that shorten keys. -/
def internalTableComparator : TableComparator where
  toComparator := bytewiseComparator.internal
  findShortestSeparator := internalShortestSeparator
  findShortSuccessor := internalShortSuccessor
  separator_ge _ _ _ := not_gt_orShortened _ _
  separator_lt _ _ h := internalShortestSeparator_lt h
  successor_ge _ := not_gt_orShortened _ _
  length_separator _ _ := length_orShortened_le _ _
  length_successor _ := length_orShortened_le _ _

/-- The keys of `InternalFilterPolicy`: the first `n` are cut to their user keys in place. -/
def userKeys (keys : List Bytes) (n : Int) : List Bytes :=
  (keys.take n.toNat).map extractUserKey ++ keys.drop n.toNat

/-- `InternalFilterPolicy`: the filter is one of the user keys. -/
def FilterPolicy.internal (p : FilterPolicy) : FilterPolicy where
  createFilter keys n dst := p.createFilter (userKeys keys n) n dst
  keyMayMatch key filter := p.keyMayMatch (extractUserKey key) filter

theorem length_userKeys (keys : List Bytes) (n : Int) : (userKeys keys n).length = keys.length := by
  rw [userKeys, List.length_append, List.length_map, ← List.length_append, List.take_append_drop]

theorem FilterPolicy.Sound.internal {p : FilterPolicy} (h : p.Sound) : p.internal.Sound := by
  intro keys n dst hle hlt key hkey
  refine h (userKeys keys n) n dst (hle.trans (length_userKeys keys n).ge) hlt _ ?_
  rw [userKeys, Int.toNat_natCast, List.take_left' (by simpa using hle)]
  exact List.mem_map_of_mem hkey

theorem FilterPolicy.Bounded.internal {p : FilterPolicy} {n : Nat} (h : p.Bounded n) :
    p.internal.Bounded n := fun keys m dst hpos hle hlt =>
  h (userKeys keys m) m dst hpos (hle.trans (length_userKeys keys m).ge) hlt

/-- A Bloom filter has at most nine bytes for each key and one for each of its bits. -/
theorem BloomFilterPolicy.bounded (p : BloomFilterPolicy) (hash : Bytes → UInt32) :
    (p.toFilterPolicy hash).Bounded (p.bitsPerKey + 9) := by
  intro array m dst hpos hle _
  obtain ⟨keys, hkeys, hm⟩ : ∃ keys, keys = array.take m ∧ keys.length = m :=
    ⟨_, rfl, List.length_take_of_le hle⟩
  have hlength : (p.filter hash keys).length = p.filterBytes keys.length + 1 := by
    obtain ⟨hcovers, -⟩ := foldl_setProbes hash (k := p.k) (p.filterBytes_pos keys.length) keys
      (a := List.replicate (p.filterBytes keys.length) 0 ++ [UInt8.ofNat p.k]) (by simp)
    rw [BloomFilterPolicy.filter, hcovers.length_eq, List.length_append, List.length_replicate,
      List.length_singleton]
  have hbytes : p.filterBytes keys.length ≤ keys.length * p.bitsPerKey + 8 := by
    rw [filterBytes]
    split_ifs <;> omega
  have hroom : keys.length * p.bitsPerKey + 9 ≤ (p.bitsPerKey + 9) * keys.length := by
    rw [Nat.add_mul, Nat.mul_comm]
    omega
  change (p.filter hash (array.take (m : Int).toNat)).length ≤ _
  rw [Int.toNat_natCast, ← hkeys, ← hm]
  omega

end InternalKeys

/-- What is built from entries in the order of their keys, without a failure of the file, is opened
and read as these entries. -/
theorem TableBuilder.build_reads {snappy : Snappy} {options : TableOptions} {n : Nat}
    (husable : options.Usable n) {file : WritableFile} (hfile : file.contents = [])
    {entries : List (Bytes × Bytes)}
    (hsorted : Increasing options.comparator.compare (entries.map Prod.fst))
    (hsmall : entriesSize entries + 8 < 2 ^ 32) (hfilters : n * entries.length < 2 ^ 32) :
    ∃ b, TableBuilder.build snappy options file entries = some b ∧
      (file.faults = [] → b.status = .ok) ∧ (b.status = .ok →
      b.numEntries = entries.length ∧ ∃ t,
        Table.openTable snappy options b.file.contents b.offset = some (.ok t) ∧
          t.file = b.file.contents ∧ t.cmp = options.comparator.toComparator ∧
            t.Reads entries) := by
  obtain ⟨b, hbuild, hhealthy, hok⟩ :=
    @TableBuilder.build_finished snappy options n husable file hfile entries hsorted hsmall hfilters
  refine ⟨b, hbuild, hhealthy, fun hstatus => ?_⟩
  obtain ⟨hcount, hoffset, c, hfinished, hentries⟩ := hok hstatus
  obtain ⟨t, hopen, ho⟩ := Table.openTable_finished hfinished
  have hreads := ho.reads hfinished
  rw [hentries] at hreads
  exact ⟨hcount, t, by rw [hoffset]; exact hopen, ho.file_eq, ho.cmp_eq, hreads⟩

section Lookup

/-- The filter tells the same of all internal keys of a user key. -/
def FilterPolicy.OfUserKeys (p : FilterPolicy) : Prop :=
  ∀ k k', extractUserKey k = extractUserKey k' →
    ∀ filter, p.keyMayMatch k filter = p.keyMayMatch k' filter

theorem FilterPolicy.ofUserKeys_internal (p : FilterPolicy) : p.internal.OfUserKeys := by
  intro k k' huser filter
  rw [FilterPolicy.internal]
  simp only [huser]

/-- The options of a database: internal keys, and filters of user keys. -/
structure TableOptions.Internal (options : TableOptions) : Prop where
  comparator : options.comparator = internalTableComparator
  filter : ∀ policy, options.filterPolicy = some policy → policy.toFilterPolicy.OfUserKeys

variable {snappy : Snappy} {options : TableOptions} {c : TableContents} {file : Bytes} {t : Table}

/-- An entry at a lookup's target or behind it that is not handed over has another user key. -/
theorem Table.Opened.internalGet_user (ho : t.Opened snappy options c file)
    (h : FinishedTable snappy options c file) (hinternal : options.Internal) (verify : Bool)
    (wide : Nat) (k : Bytes) :
    ∃ o, t.internalGet verify wide k = some (o, .ok) ∧
      (o = c.entries.find? (fun p => bytewiseComparator.internalCompare p.1 k ≠ .lt) ∨
        o = none ∧ ∀ e,
          c.entries.find? (fun p => bytewiseComparator.internalCompare p.1 k ≠ .lt) = some e →
            extractUserKey e.1 ≠ extractUserKey k) := by
  have hcompare : ∀ a b, options.comparator.compare a b = bytewiseComparator.internalCompare a b :=
    fun a b => by rw [hinternal.comparator]; rfl
  cases hfind : c.indexed.find? fun d => options.comparator.compare d.1 k ≠ .lt with
  | none =>
    have hnone := h.find?_entries_none hfind
    simp only [hcompare] at hnone
    exact ⟨none, ho.internalGet_none h hfind verify wide, .inl hnone.symm⟩
  | some d =>
    have hd := List.mem_of_find?_eq_some hfind
    obtain ⟨out, hout, hkept⟩ := ho.filteredOut h hd wide k
    obtain ⟨back, hback, hentries⟩ := h.find?_entries hfind
    refine ⟨_, ho.internalGet_block h hfind verify wide hout, ?_⟩
    have hbehind := List.find?_some hfind
    simp only [hcompare] at hentries hbehind ⊢
    rw [hentries]
    cases hblock : d.2.entries.find? fun p =>
        decide (bytewiseComparator.internalCompare p.1 k ≠ .lt) with
    | some e =>
      cases out with
      | false => exact .inl rfl
      | true =>
        refine .inr ⟨rfl, fun e' he' huser => ?_⟩
        obtain rfl : e = e' := by rwa [Option.some_or, Option.some.injEq] at he'
        have hout' := hkept e (List.mem_of_find?_eq_some hblock) fun policy hpolicy =>
          hinternal.filter policy hpolicy _ _ huser
        exact Bool.noConfusion hout'
    | none =>
      refine .inr ⟨by cases out <;> rfl, fun e he huser => ?_⟩
      rw [Option.none_or] at he
      obtain ⟨d', hd', hed'⟩ := List.mem_flatMap.mp (List.mem_of_find?_eq_some he)
      obtain ⟨a, ha, limit, hmade, hle⟩ := (hback d' hd' e hed').made
      have hlast : bytewiseComparator.internalCompare a.1 k = .lt := by
        simpa using List.find?_eq_none.mp hblock a ha
      rw [hcompare] at hle
      -- the target is behind the last key of the block, and so behind the index key
      have hgt := gt_internalShortestSeparator hlast hle huser
      have hsep : d.1 = internalShortestSeparator a.1 limit := by
        rw [hmade, hinternal.comparator]
        rfl
      rw [← hsep] at hgt
      have hlt := Std.OrientedCmp.lt_of_gt hgt
      simp [hlt] at hbehind

/-- An entry with another user key is not saved. -/
theorem saveValue_of_ne {userKey : Bytes} {e : TableEntry} (hvalid : ValidInternalKey e.key)
    (huser : extractUserKey e.key ≠ userKey) :
    saveValue bytewiseComparator userKey (some e) = .notFound := by
  obtain ⟨ikey, hparse⟩ := Option.isSome_iff_exists.mp hvalid
  rw [saveValue, hparse]
  simp only
  rw [if_neg]
  rw [(parseInternalKey_spec hparse).1, bytewise_eq_iff]
  exact huser

/-- A lookup in the file that a table was built in answers what a lookup in its entries answers. -/
theorem TableBuilder.build_lookup {n : Nat} (husable : options.Usable n)
    (hinternal : options.Internal) {file : WritableFile} (hfile : file.contents = [])
    {entries : List TableEntry} (hvalid : ∀ e ∈ entries, ValidInternalKey e.key)
    (hsorted : Increasing bytewiseComparator.internalCompare (entries.map TableEntry.key))
    (hsmall : entriesSize (entries.map fun e => (e.key, e.value)) + 8 < 2 ^ 32)
    (hfilters : n * entries.length < 2 ^ 32) :
    ∃ b, TableBuilder.build snappy options file (entries.map fun e => (e.key, e.value)) = some b ∧
      (file.faults = [] → b.status = .ok) ∧ (b.status = .ok → ∃ t,
        Table.openTable snappy options b.file.contents b.offset = some (.ok t) ∧
          ∀ verify wide userKey sequence, ∃ o,
            t.internalGet verify wide (lookupKey userKey sequence) = some (o, .ok) ∧
              saveValue bytewiseComparator userKey (o.map fun p => ⟨p.1, p.2⟩) =
                saveValue bytewiseComparator userKey
                  (seek bytewiseComparator (lookupKey userKey sequence) entries)) := by
  have hkeys : Increasing options.comparator.compare
      ((entries.map fun e => (e.key, e.value)).map Prod.fst) := by
    rw [hinternal.comparator, List.map_map]
    exact hsorted
  obtain ⟨b, hbuild, hhealthy, hok⟩ := @TableBuilder.build_finished snappy options n husable file
    hfile _ hkeys hsmall (by rw [List.length_map]; exact hfilters)
  refine ⟨b, hbuild, hhealthy, fun hstatus => ?_⟩
  obtain ⟨-, hoffset, c, hfinished, hentries⟩ := hok hstatus
  obtain ⟨t, hopen, ho⟩ := Table.openTable_finished hfinished
  refine ⟨t, by rw [hoffset]; exact hopen, fun verify wide userKey sequence => ?_⟩
  have huserKey : extractUserKey (lookupKey userKey sequence) = userKey :=
    extractUserKey_appendInternalKey _
  obtain ⟨o, hget, hfound⟩ :=
    ho.internalGet_user hfinished hinternal verify wide (lookupKey userKey sequence)
  rw [hentries, List.find?_map] at hfound
  refine ⟨o, hget, ?_⟩
  rcases hfound with rfl | ⟨rfl, hother⟩
  · rw [Option.map_map]
    exact congrArg _ Option.map_id'
  · cases hseek : seek bytewiseComparator (lookupKey userKey sequence) entries with
    | none => rfl
    | some e =>
      have hmem : e ∈ entries := List.mem_of_find?_eq_some hseek
      have hne := hother (e.key, e.value) (by
        rw [seek] at hseek
        exact congrArg (Option.map fun e : TableEntry => (e.key, e.value)) hseek)
      rw [huserKey] at hne
      rw [saveValue_of_ne (hvalid e hmem) hne]
      rfl

end Lookup

section Sample

/-- The port without the snappy library. -/
def noSnappy : Snappy where
  compress _ := none
  uncompress _ := none
  uncompress_compress h := by cases h

/-- Ten bits for each key, and a hash of no consequence. -/
def sampleFilterPolicy : NamedFilterPolicy where
  toFilterPolicy := ((⟨10, 6, by decide, by decide⟩ : BloomFilterPolicy).toFilterPolicy fun key =>
    UInt32.ofNat key.length).internal
  name := ascii ['b', 'l', 'o', 'o', 'm']
  length_name := by decide

/-- Blocks of one entry each. -/
def sampleOptions : TableOptions where
  comparator := internalTableComparator
  paranoidChecks := true
  blockSize := 1
  blockRestartInterval := 16
  compression := .snappyCompression
  filterPolicy := some sampleFilterPolicy

/-- A key that was set and deleted, and another one. -/
def sampleEntries : List (Bytes × Bytes) :=
  [(appendInternalKey ⟨[97], 3, .deletion⟩, []), (appendInternalKey ⟨[97], 2, .value⟩, [1]),
    (appendInternalKey ⟨[98, 1], 1, .value⟩, [2])]

theorem usable_sampleOptions : sampleOptions.Usable 19 where
  interval := by decide
  filter policy hpolicy := by
    rw [← Option.some.inj hpolicy]
    exact ⟨(BloomFilterPolicy.sound_toFilterPolicy _ _).internal,
      (BloomFilterPolicy.bounded _ _).internal⟩

theorem TableBuilder.build_reads_sample :
    ∃ b, TableBuilder.build noSnappy sampleOptions ⟨[], []⟩ sampleEntries = some b ∧
      b.status = .ok ∧ ∃ t,
        Table.openTable noSnappy sampleOptions b.file.contents b.offset = some (.ok t) ∧
          ∀ e ∈ sampleEntries, t.internalGet true 0 e.1 = some (some e, .ok) := by
  obtain ⟨b, hbuild, hhealthy, hreads⟩ := @TableBuilder.build_reads noSnappy sampleOptions 19
    usable_sampleOptions ⟨[], []⟩ rfl sampleEntries (by unfold Increasing; decide) (by decide)
    (by decide)
  obtain ⟨-, t, hopen, -, -, ht⟩ := hreads (hhealthy rfl)
  exact ⟨b, hbuild, hhealthy rfl, t, hopen, fun e he => ht.get true 0 e he⟩

theorem internal_sampleOptions : sampleOptions.Internal where
  comparator := rfl
  filter policy hpolicy := by
    rw [← Option.some.inj hpolicy]
    exact FilterPolicy.ofUserKeys_internal _

/-- A deletion of a key in front of its value, and another key. -/
def sampleVersions : List TableEntry :=
  [⟨appendInternalKey ⟨[97], 3, .deletion⟩, []⟩, ⟨appendInternalKey ⟨[97], 2, .value⟩, [1]⟩,
    ⟨appendInternalKey ⟨[98, 1], 1, .value⟩, [2]⟩]

theorem TableBuilder.build_lookup_sample :
    ∃ b, TableBuilder.build noSnappy sampleOptions ⟨[], []⟩
        (sampleVersions.map fun e => (e.key, e.value)) = some b ∧ b.status = .ok ∧ ∃ t,
      Table.openTable noSnappy sampleOptions b.file.contents b.offset = some (.ok t) ∧
        ∃ o, t.internalGet true 0 (lookupKey [97] 2) = some (o, .ok) ∧
          saveValue bytewiseComparator [97] (o.map fun p => ⟨p.1, p.2⟩) = .found [1] := by
  obtain ⟨b, hbuild, hhealthy, hreads⟩ := @TableBuilder.build_lookup noSnappy sampleOptions 19
    usable_sampleOptions internal_sampleOptions ⟨[], []⟩ rfl sampleVersions (by decide)
    (by unfold Increasing; decide) (by decide) (by decide)
  obtain ⟨t, hopen, hlookup⟩ := hreads (hhealthy rfl)
  obtain ⟨o, hget, hsave⟩ := hlookup true 0 [97] 2
  exact ⟨b, hbuild, hhealthy rfl, t, hopen, o, hget, hsave.trans (by decide)⟩

end Sample

end WiscKey
