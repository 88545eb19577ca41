import WiscKey.Engine.DatabaseRun
import WiscKey.Iterator.DbIterRun
import WiscKey.Iterator.Internal
import Mathlib.Algebra.Order.BigOperators.Group.List

/-!
# What the internal iterator shows

In a database whose files are layered, no entry is in two of the children of the internal iterator,
and the iterator shows what a cursor over all entries in order shows.
-/

namespace WiscKey

open Version

variable {ucmp : Comparator} {tables : Tables} {files : List TableFile} {v : Version Bytes}
  {n fuel : Nat} {level : Level} {e : TableEntry}

section Rows

variable {l : List TableEntry} {lists : List (List TableEntry)}

theorem comparePair_row (a b : TableEntry) :
    ucmp.internal.comparePair a.row b.row = compareKeys ucmp a b := rfl

theorem increasing_rows :
    Increasing ucmp.internal.comparePair (l.map TableEntry.row) ↔ Increasing (compareKeys ucmp) l :=
  List.pairwise_map

theorem insertOrdered_rows (e : TableEntry) (l : List TableEntry) :
    insertOrdered ucmp.internal.comparePair e.row (l.map TableEntry.row) =
      (insertOrdered (compareKeys ucmp) e l).map TableEntry.row := by
  induction l with
  | nil => rfl
  | cons b l ih =>
    rw [List.map_cons, insertOrdered, insertOrdered, comparePair_row, ih]
    cases compareKeys ucmp e b <;> rfl

/-- The union of lists of rows has the rows of the union. -/
theorem sortedUnion_rows (lists : List (List TableEntry)) :
    sortedUnion ucmp.internal.comparePair (lists.map fun l => l.map TableEntry.row) =
      (sortedUnion (compareKeys ucmp) lists).map TableEntry.row := by
  rw [sortedUnion, sortedUnion, ← List.map_flatten]
  induction lists.flatten with
  | nil => rfl
  | cons e l ih => rw [List.map_cons, List.foldr_cons, List.foldr_cons, ih, insertOrdered_rows]

theorem pairwiseDistinct_rows (h : PairwiseDistinct (compareKeys ucmp) lists) :
    PairwiseDistinct ucmp.internal.comparePair (lists.map fun l => l.map TableEntry.row) := by
  refine List.pairwise_map.mpr (h.imp fun hne a ha b hb => ?_)
  obtain ⟨e, he, rfl⟩ := List.mem_map.mp ha
  obtain ⟨e', he', rfl⟩ := List.mem_map.mp hb
  exact hne e he e' he'

end Rows

section Level

/-- The rows of the table that an index entry tells of. -/
def rowsAt (tables : Tables) (fileValue : Bytes) : List (Bytes × Bytes) :=
  (tables (decodeFixed64 fileValue)).2.map TableEntry.row

theorem decodeFixed64_fileValue {f : TableFile} (h : f.number < 2 ^ 64) :
    decodeFixed64 (LevelFileNumIterator.fileValue f) = f.number :=
  decodeFixed64_encodeFixed64 h _

theorem indexedBlocks_level (hsorted : SortedLevel ucmp files)
    (htables : ∀ f ∈ files, TableOf ucmp tables f) (hnumbers : ∀ f ∈ files, f.number < 2 ^ 64) :
    IndexedBlocks ucmp.internal (levelIndex files) (rowsAt tables) := by
  have hrows : ∀ f ∈ files, rowsAt tables (LevelFileNumIterator.fileValue f) =
      (tables f.number).2.map TableEntry.row := fun f hf => by
    rw [rowsAt, decodeFixed64_fileValue (hnumbers f hf)]
  refine ⟨?_, fun p hp => ?_, fun p hp x hx => ?_, ?_⟩
  · refine List.pairwise_map.mpr (hsorted.ends.imp fun {f g} hlt => ?_)
    rw [show ucmp.internal.compare f.largest g.largest = .lt from hlt]
    exact Ordering.noConfusion
  · obtain ⟨f, hf, rfl⟩ := List.mem_map.mp hp
    rw [hrows f hf]
    exact increasing_rows.mpr (htables f hf).increasing
  · obtain ⟨f, hf, rfl⟩ := List.mem_map.mp hp
    rw [hrows f hf] at hx
    obtain ⟨e, he, rfl⟩ := List.mem_map.mp hx
    exact (htables f hf).le_largest he
  · refine List.Pairwise.isChain (List.pairwise_map.mpr (hsorted.apart.imp_of_mem
      fun {f g} _ hg hbefore x hx => ?_))
    rw [hrows g hg] at hx
    obtain ⟨e, he, rfl⟩ := List.mem_map.mp hx
    exact lt_of_lt_of_not_gt hbefore ((htables g hg).smallest_le he)

/-- The iterator of a level shows the entries of its files one after another. -/
theorem LevelIter.follows (hsorted : SortedLevel ucmp files)
    (htables : ∀ f ∈ files, TableOf ucmp tables f) (hnumbers : ∀ f ∈ files, f.number < 2 ^ 64)
    (hfuel : files.length < fuel) : (LevelIter.iterOps ucmp tables fuel).Follows ucmp.internal
      ((files.flatMap fun f => (tables f.number).2).map TableEntry.row) (.new (.new files))
      .invalid := by
  have hjoined : (files.flatMap fun f => (tables f.number).2).map TableEntry.row =
      joined (rowsAt tables) (levelIndex files) := by
    rw [joined, levelIndex, List.flatMap_map, List.map_flatMap]
    refine List.flatMap_congr fun f hf => ?_
    rw [rowsAt, decodeFixed64_fileValue (hnumbers f hf)]
  have hblocks : ∀ p ∈ levelIndex files, ∃ o, (TableIter.iterOps ucmp.internal).At ucmp.internal
      (rowsAt tables p.2) (TableIter.getFileIterator tables p.2) o := by
    intro p hp
    obtain ⟨f, hf, rfl⟩ := List.mem_map.mp hp
    have hlength : (LevelFileNumIterator.fileValue f).length = 16 := by
      simp [LevelFileNumIterator.fileValue, encodeFixed64]
    refine ⟨none, ?_⟩
    rw [TableIter.getFileIterator, if_neg (not_not_intro hlength), rowsAt]
    refine TableIter.at_newIterator ?_
    rw [decodeFixed64_fileValue (hnumbers f hf)]
    exact (htables f hf).ok
  rw [hjoined]
  refine IterOps.follows_of_relation (R := TwoLevelIterator.Shows (LevelFileNumIterator.iterOps ucmp)
    (TableIter.iterOps ucmp.internal) ucmp.internal (levelIndex files) (rowsAt tables)) ?_ ?_ ?_
  · exact fun t c hshows => hshows.shown?
  · intro t c call hshows hallowed
    have hlength : (levelIndex files).length < fuel := by rwa [levelIndex, List.length_map]
    obtain ⟨t', hcall, hshows'⟩ := hshows.call (indexedBlocks_level hsorted htables hnumbers) hblocks
      hlength call (by rintro (rfl | rfl) <;> exact hallowed)
    have hmove : (LevelIter.iterOps ucmp tables fuel).call t call = t' := by
      cases call <;> exact congrArg (Option.getD · t) hcall
    rwa [hmove]
  · have hindex := LevelFileNumIterator.follows hsorted files.length
    exact .invalid _ ⟨hindex, Cursor.over_atIndex _ _, fun s hs => (by cases hs), rfl⟩ rfl

end Level

section Sources

variable {db : ReadState} {f g : TableFile} {level' : Level}

/-- Files of different levels are different. -/
theorem Version.Ranged.ne_of_level (h : v.Ranged ucmp tables n) (hf : f ∈ v.files level)
    (hg : g ∈ v.files level') (hne : level ≠ level') : f ≠ g := by
  rintro rfl
  exact hne (h.unique level level' f f hf hg rfl).1

theorem Version.mem_deepLevels : level ∈ v.deepLevels ↔ level ≠ 0 ∧ v.files level ≠ [] := by
  rw [deepLevels, List.mem_filter, decide_eq_true_iff]
  refine (and_iff_right (List.mem_finRange level)).trans (and_congr_left fun _ => ?_)
  exact Nat.one_le_iff_ne_zero.trans (not_congr Fin.val_eq_zero_iff)

/-- The entries of the tables of a version, where the files of level 0 come one by one and those of
a deeper level together. -/
theorem Version.Ranged.pairwiseDistinct (h : v.Ranged ucmp tables n) :
    PairwiseDistinct (compareKeys ucmp) ((v.files 0).map (fun f => (tables f.number).2) ++
      v.deepLevels.map fun level => (v.files level).flatMap fun f => (tables f.number).2) := by
  refine List.pairwise_append.mpr ⟨List.pairwise_map.mpr (h.nodup.imp_of_mem fun {f g} hf hg hne =>
    h.disjoint 0 0 f g hf hg hne), List.pairwise_map.mpr ?_, ?_⟩
  · have hnodup : v.deepLevels.Nodup := (List.nodup_finRange kNumLevels).filter _
    refine hnodup.imp fun {level level'} hne a ha b hb => ?_
    obtain ⟨f, hf, ha⟩ := List.mem_flatMap.mp ha
    obtain ⟨g, hg, hb⟩ := List.mem_flatMap.mp hb
    exact h.disjoint level level' f g hf hg (h.ne_of_level hf hg hne) a ha b hb
  · intro l hl l' hl' a ha b hb
    obtain ⟨f, hf, rfl⟩ := List.mem_map.mp hl
    obtain ⟨level, hlevel, rfl⟩ := List.mem_map.mp hl'
    obtain ⟨g, hg, hb⟩ := List.mem_flatMap.mp hb
    exact h.disjoint 0 level f g hf hg
      (h.ne_of_level hf hg (mem_deepLevels.mp hlevel).1.symm) a ha b hb

/-- What the children have is what a read can come across. -/
theorem ReadState.mem_sources : (∃ l ∈ db.sources, e ∈ l) ↔ db.Holds e := by
  rw [sources, Holds]
  constructor
  · rintro ⟨l, hl, he⟩
    rcases List.mem_append.mp hl with hl | hl
    · rcases List.mem_cons.mp hl with rfl | hl
      · exact .inl he
      · exact .inr (.inl ⟨l, Option.mem_toList.mp hl, he⟩)
    · rcases List.mem_append.mp hl with hl | hl
      · obtain ⟨f, hf, rfl⟩ := List.mem_map.mp hl
        exact .inr (.inr ⟨0, f, hf, he⟩)
      · obtain ⟨level, -, rfl⟩ := List.mem_map.mp hl
        obtain ⟨f, hf, he⟩ := List.mem_flatMap.mp he
        exact .inr (.inr ⟨level, f, hf, he⟩)
  · rintro (he | ⟨imm, himm, he⟩ | ⟨level, f, hf, he⟩)
    · exact ⟨_, List.mem_append_left _ List.mem_cons_self, he⟩
    · exact ⟨_, List.mem_append_left _ (List.mem_cons_of_mem _ (Option.mem_toList.mpr himm)), he⟩
    · by_cases hzero : level = 0
      · subst hzero
        exact ⟨_, List.mem_append_right _ (List.mem_append_left _ (List.mem_map_of_mem hf)), he⟩
      · have hdeep := mem_deepLevels.mpr ⟨hzero, List.ne_nil_of_mem hf⟩
        exact ⟨_, List.mem_append_right _ (List.mem_append_right _ (List.mem_map_of_mem hdeep)),
          List.mem_flatMap.mpr ⟨f, hf, he⟩⟩

/-- The children have no entry in common. -/
theorem ReadState.Stacked.pairwiseDistinct (h : db.Stacked ucmp)
    (hranged : db.current.Ranged ucmp db.tables n) :
    PairwiseDistinct (compareKeys ucmp) db.sources := by
  have htable : ∀ l ∈ (db.current.files 0).map (fun f => (db.tables f.number).2) ++
      db.current.deepLevels.map (fun level =>
        (db.current.files level).flatMap fun f => (db.tables f.number).2), ∀ e ∈ l,
      ∃ level, ∃ f ∈ db.current.files level, e ∈ (db.tables f.number).2 := by
    intro l hl e he
    rcases List.mem_append.mp hl with hl | hl
    · obtain ⟨f, hf, rfl⟩ := List.mem_map.mp hl
      exact ⟨0, f, hf, he⟩
    · obtain ⟨level, -, rfl⟩ := List.mem_map.mp hl
      obtain ⟨f, hf, he⟩ := List.mem_flatMap.mp he
      exact ⟨level, f, hf, he⟩
  have hbelow : ∀ entries : List TableEntry, (∀ e ∈ entries, (parseInternalKey e.key).isSome) →
      (∀ level, ∀ f ∈ db.current.files level, NewerThan ucmp entries (db.tables f.number).2) →
      ∀ l ∈ (db.current.files 0).map (fun f => (db.tables f.number).2) ++
        db.current.deepLevels.map (fun level =>
          (db.current.files level).flatMap fun f => (db.tables f.number).2),
      ∀ a ∈ entries, ∀ b ∈ l, compareKeys ucmp a b ≠ .eq := by
    intro entries hparsed hnewer l hl a ha b hb
    obtain ⟨level, f, hf, hb⟩ := htable l hl b hb
    exact (hnewer level f hf).compareKeys_ne ha hb (hparsed a ha)
      ((hranged.tableOf level f hf).parsed b hb)
  refine List.pairwise_append.mpr ⟨?_, hranged.pairwiseDistinct, fun l hl => ?_⟩
  · cases himm : db.imm with
    | none => exact List.pairwise_singleton _ _
    | some imm =>
      refine List.pairwise_pair.mpr fun a ha b hb => ?_
      exact (h.memImm imm himm).compareKeys_ne ha hb (h.mem.parsed a ha)
        ((h.imm imm himm).parsed b hb)
  · rcases List.mem_cons.mp hl with rfl | hl
    · exact hbelow db.mem h.mem.parsed h.memTable
    · have himm := Option.mem_toList.mp hl
      exact hbelow l (h.imm l himm).parsed (h.immTable l himm)

theorem ReadState.Stacked.increasing (h : db.Stacked ucmp)
    (hranged : db.current.Ranged ucmp db.tables n) :
    ∀ l ∈ db.sources, Increasing (compareKeys ucmp) l := by
  intro l hl
  rcases List.mem_append.mp hl with hl | hl
  · rcases List.mem_cons.mp hl with rfl | hl
    · exact h.mem.increasing
    · exact (h.imm l (Option.mem_toList.mp hl)).increasing
  · rcases List.mem_append.mp hl with hl | hl
    · obtain ⟨f, hf, rfl⟩ := List.mem_map.mp hl
      exact (hranged.tableOf 0 f hf).increasing
    · obtain ⟨level, hlevel, rfl⟩ := List.mem_map.mp hl
      have hzero := (mem_deepLevels.mp hlevel).1
      refine List.pairwise_flatMap.mpr ⟨fun f hf =>
        (hranged.tableOf level f hf).increasing, ?_⟩
      refine (hranged.sortedLevel hzero).apart.imp_of_mem fun {f g} hf hg hbefore a ha b hb => ?_
      have hlast := (hranged.tableOf level f hf).le_largest ha
      have hfirst := (hranged.tableOf level g hg).smallest_le hb
      have hlt : ucmp.internalCompare a.key b.key = .lt :=
        lt_of_not_gt_of_lt hlast (lt_of_lt_of_not_gt hbefore hfirst)
      exact hlt

/-- All entries of the children in order. -/
theorem ReadState.Stacked.isSortedUnion (h : db.Stacked ucmp)
    (hranged : db.current.Ranged ucmp db.tables n) :
    IsSortedUnion (compareKeys ucmp) db.sources (db.entries ucmp) :=
  WiscKey.isSortedUnion (h.increasing hranged) (h.pairwiseDistinct hranged)

theorem ReadState.Stacked.mem_entries (h : db.Stacked ucmp)
    (hranged : db.current.Ranged ucmp db.tables n) : e ∈ db.entries ucmp ↔ db.Holds e :=
  ((h.isSortedUnion hranged).mem e).trans ReadState.mem_sources

end Sources

section Internal

variable {db : ReadState}

/-- A file of a level is one of all files. -/
theorem Version.length_files_lt (v : Version Bytes) (level : Level) : (v.files level).length <
    ((List.finRange kNumLevels).map fun level => (v.files level).length).sum + 1 :=
  Nat.lt_succ_of_le (List.single_le_sum (fun _ _ => Nat.zero_le _) _
    (List.mem_map_of_mem (List.mem_finRange level)))

/-- A child is in front of the entries that it shows. -/
def ReadState.InFront (ucmp : Comparator) (db : ReadState) (child : InternalChild)
    (rows : List (Bytes × Bytes)) : Prop :=
  (db.childOps ucmp).Follows ucmp.internal rows child .invalid

/-- So is each of the children. -/
theorem ReadState.Stacked.inFront_children (hranged : db.current.Ranged ucmp db.tables n)
    (hn : n ≤ 2 ^ 64) : List.Forall₂ (db.InFront ucmp) db.children
      (db.sources.map fun l => l.map TableEntry.row) := by
  have hmem : ∀ entries, db.InFront ucmp (.inl (TableIter.memTable entries))
      (entries.map TableEntry.row) := fun entries => (TableIter.follows .ok .invalid).inl
  rw [children, sources, List.map_append, List.map_append]
  refine List.rel_append (.cons (hmem _) ?_) (List.rel_append ?_ ?_)
  · rw [List.forall₂_map_left_iff, List.forall₂_map_right_iff, List.forall₂_same]
    exact fun imm _ => hmem imm
  · rw [List.map_map, List.forall₂_map_left_iff, List.forall₂_map_right_iff, List.forall₂_same]
    intro f hf
    have hok := (hranged.tableOf 0 f hf).ok
    rw [TableIter.newIterator, if_neg (not_not_intro hok)]
    exact (TableIter.follows .ok .invalid).inl
  · rw [List.map_map, List.forall₂_map_left_iff, List.forall₂_map_right_iff, List.forall₂_same]
    intro level hlevel
    exact (LevelIter.follows (hranged.sortedLevel (mem_deepLevels.mp hlevel).1)
      (hranged.tableOf level) (fun f hf => (hranged.below level f hf).trans_le hn)
      (db.current.length_files_lt level)).inr

/-- The internal iterator shows what a cursor over all entries in order shows. -/
theorem ReadState.Stacked.follows_entries (h : db.Stacked ucmp)
    (hranged : db.current.Ranged ucmp db.tables n) (hn : n ≤ 2 ^ 64) :
    (db.iterOps ucmp).Follows ucmp.internal ((db.entries ucmp).map TableEntry.row)
      db.newInternalIterator .invalid := by
  have hchildren := ReadState.Stacked.inFront_children hranged hn
  have hincreasing : ∀ l ∈ db.sources.map fun l => l.map TableEntry.row,
      Increasing ucmp.internal.comparePair l := by
    intro l hl
    obtain ⟨entries, hentries, rfl⟩ := List.mem_map.mp hl
    exact increasing_rows.mpr (h.increasing hranged entries hentries)
  rw [entries, ← sortedUnion_rows]
  have hdistinct := pairwiseDistinct_rows (h.pairwiseDistinct hranged)
  by_cases hone : db.children.length = 1
  · obtain ⟨s, hs⟩ := List.length_eq_one_iff.mp hone
    rw [hs] at hchildren
    generalize db.sources.map (fun l => l.map TableEntry.row) = lists at hchildren hincreasing hdistinct ⊢
    obtain ⟨l, rest, hfollows, hrest, rfl⟩ := List.forall₂_cons_left_iff.mp hchildren
    obtain rfl := List.forall₂_nil_left_iff.mp hrest
    have hunion := WiscKey.isSortedUnion hincreasing hdistinct
    have heq : sortedUnion ucmp.internal.comparePair [l] = l := by
      refine hunion.increasing.eq_of_mem_iff (hincreasing l List.mem_cons_self) fun a => ?_
      rw [hunion.mem]
      simp
    rw [heq, newInternalIterator, hs]
    exact MergedIter.follows_only hfollows
  · obtain ⟨c, hc, hfollows⟩ := MergedIter.new_follows (hchildren.imp fun s l hfollows =>
      ⟨none, .invalid, hfollows, trivial, rfl⟩) hincreasing hdistinct
    rwa [hc hone] at hfollows

end Internal

end WiscKey
