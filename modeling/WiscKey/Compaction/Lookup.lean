import WiscKey.Compaction.SelectionSpec
import WiscKey.Compaction.Survivors
import WiscKey.Version.GetNewest

/-!
# A compaction keeps what readers see

For readers that are not older than the snapshot of a compaction, its outputs and the deeper levels
answer as its merged input and the deeper levels do.
-/

namespace WiscKey

/-- The levels of a version below the outputs of a compaction. -/
def Compaction.below (c : Compaction) : Version Bytes where
  files level := if c.level.val + 2 ≤ level.val then c.inputVersion.files level else []

/-- The files that are installed for the outputs. -/
def CompactionState.outputFiles (st : CompactionState) : List TableFile :=
  st.outputs.map fun o => ⟨o.1.number, o.1.fileSize, o.1.smallest, o.1.largest⟩

/-- Files above the deeper levels of a compaction. -/
def Compaction.above (c : Compaction) (files : List TableFile) : Version Bytes where
  files level := if level = nextLevel c.level then files else c.below.files level

section Statement

variable (ucmp : Comparator) (tables : Tables)

/-- A lookup in the merged input of a compaction, and then in the deeper levels. -/
def lookupMerged (c : Compaction) (input : List TableEntry) (userKey : Bytes) (sequence : Nat) :
    Status × Option Bytes :=
  match saveValue ucmp userKey (seek ucmp (lookupKey userKey sequence) input) with
  | .notFound =>
    ((c.below.get ucmp tables userKey sequence).status,
      (c.below.get ucmp tables userKey sequence).value)
  | .found value => (.ok, some value)
  | .deleted => (.notFound "", none)
  | .corrupt => (.corruption ("corrupted key for : " ++ keyMessage userKey), none)

/-- What is promised of a compaction before its work: it writes to a level, has no place in the
deeper ones yet, and these are sorted. -/
structure Compaction.Ready (c : Compaction) : Prop where
  level : c.level.val + 1 < kNumLevels
  start : ∀ level, c.levelPtrs level = 0
  tableOf : ∀ level : Level, c.level.val + 2 ≤ level.val → ∀ f ∈ c.inputVersion.files level,
    Version.TableOf ucmp tables f
  apart : ∀ level : Level, c.level.val + 2 ≤ level.val →
    (c.inputVersion.files level).Pairwise fun f g => f.range.Before ucmp.internalCompare g.range

/-- The input is a stream of internal keys in strictly increasing order. -/
structure InternalStream (input : List TableEntry) : Prop where
  increasing : input.Pairwise fun a b => ucmp.internalCompare a.key b.key = .lt
  parsed : ∀ e ∈ input, (parseInternalKey e.key).isSome

/-- The tables of the outputs have what was written to them. -/
def CompactionState.Stored (st : CompactionState) : Prop :=
  ∀ p ∈ st.outputs, tables p.1.number = (.ok, p.2)

/-- The outputs keep what readers see of the input, from a snapshot on, and have entries of the
input only, in order, in files that are apart. -/
structure KeepsLookups (c : Compaction) (smallestSnapshot : Nat) (input : List TableEntry)
    (st : CompactionState) : Prop where
  lookup : ∀ userKey sequence, smallestSnapshot ≤ sequence → sequence ≤ kMaxSequenceNumber →
    let r := (c.above st.outputFiles).get ucmp tables userKey sequence
    (r.status, r.value) = lookupMerged ucmp tables c input userKey sequence
  sublist : (st.outputs.flatMap Prod.snd).Sublist input
  increasing : (st.outputs.flatMap Prod.snd).Pairwise fun a b =>
    ucmp.internalCompare a.key b.key = .lt
  describes : ∀ p ∈ st.outputs, p.1.Describes p.2
  apart : st.outputFiles.Pairwise fun f g => f.range.Before ucmp.internalCompare g.range

end Statement

variable {ucmp : Comparator} {tables : Tables} {c : Compaction} {v : Version Bytes}
  {smallestSnapshot sequence maxFileSize : Nat} {userKey : Bytes} {st : CompactionState}
  {input : List TableEntry} {files : List TableFile}

section Levels

/-- A read of a version without files in level 0 goes through the deeper levels in order. -/
theorem get_deeper (hzero : v.files 0 = [])
    (htable : ∀ level, ∀ f ∈ v.files level, Version.TableOf ucmp tables f)
    (hsorted : ∀ level, level ≠ 0 → SortedLevel ucmp (v.files level))
    (hsequence : sequence ≤ kMaxSequenceNumber) (userKey : Bytes) :
    ((v.get ucmp tables userKey sequence).status, (v.get ucmp tables userKey sequence).value) =
      answer ((levelsFrom 1).findSome? fun level => (v.files level).findSome? fun f =>
        newestSeen ucmp userKey sequence (tables f.number).2) := by
  have hfiles : v.filesToSearch ucmp userKey (lookupKey userKey sequence) =
      (levelsFrom 1).filterMap fun level =>
        v.levelFile ucmp level userKey (lookupKey userKey sequence) := by
    rw [Version.filesToSearch, Version.levelZeroFiles, hzero]
    rfl
  have hreadable : ∀ f ∈ v.filesToSearch ucmp userKey (lookupKey userKey sequence),
      Version.Readable ucmp tables f.number := by
    intro f hf
    rw [hfiles, List.mem_filterMap] at hf
    obtain ⟨level, -, hf⟩ := hf
    exact (htable level f (List.mem_of_getElem? (Option.filter_eq_some_iff.mp hf).1)).readable
  have hsearch := @Version.searchFiles_newestSeen _ userKey _ _ _ hsequence hreadable
  refine hsearch.trans (congrArg answer ?_)
  rw [hfiles, findSome?_filterMap_eq]
  refine findSome?_congr_of_mem fun level hlevel => ?_
  have hpos := mem_levelsFrom.mp hlevel
  refine Version.levelFile_newestSeen (htable level) (hsorted level ?_) hsequence userKey
  rintro rfl
  exact absurd hpos (by decide)

/-- A search through levels where one level is filled that had nothing at it and above it. -/
theorem findSome?_fill {α : Type} {levels : List Level} {next : Level} {answers : Level → Option α}
    (hlevels : levels.Pairwise (· < ·)) (hnext : next ∈ levels)
    (hnone : ∀ level, level ≤ next → answers level = none) (a : Option α) :
    (levels.findSome? fun level => if level = next then a else answers level) =
      a.or (levels.findSome? answers) := by
  induction levels with
  | nil => exact absurd hnext List.not_mem_nil
  | cons level levels ih =>
    obtain ⟨hfirst, hrest⟩ := List.pairwise_cons.mp hlevels
    rw [List.findSome?_cons, List.findSome?_cons]
    rcases eq_or_ne level next with rfl | hne
    · have hcongr : (levels.findSome? fun l => if l = level then a else answers l) =
          levels.findSome? answers :=
        findSome?_congr_of_mem fun l hl => if_neg (hfirst l hl).ne'
      rw [if_pos rfl, hnone level le_rfl, hcongr]
      cases a with
      | none => rfl
      | some b => rfl
    · have hmem := (List.mem_cons.mp hnext).resolve_left hne.symm
      rw [if_neg hne, hnone level (hfirst next hmem).le]
      exact ih hrest hmem

theorem Compaction.Ready.sortedBelow (h : c.Ready ucmp tables) : c.SortedBelow ucmp :=
  fun level hlevel => ⟨fun f hf => (h.tableOf level hlevel f hf).proper, h.apart level hlevel⟩

/-- A file of the deeper levels is in one of them. -/
theorem Compaction.mem_below {level : Level} {f : TableFile} :
    f ∈ c.below.files level ↔ c.level.val + 2 ≤ level.val ∧ f ∈ c.inputVersion.files level := by
  simp only [Compaction.below]
  split
  · rename_i hlevel
    exact (and_iff_right hlevel).symm
  · rename_i hlevel
    exact ⟨(fun h => nomatch h), fun h => absurd h.1 hlevel⟩

theorem Compaction.Ready.tableOf_below (h : c.Ready ucmp tables) (level : Level) :
    ∀ f ∈ c.below.files level, Version.TableOf ucmp tables f := by
  intro f hf
  obtain ⟨hlevel, hf⟩ := Compaction.mem_below.mp hf
  exact h.tableOf level hlevel f hf

theorem Compaction.Ready.sortedLevel_below (h : c.Ready ucmp tables) (level : Level) :
    SortedLevel ucmp (c.below.files level) := by
  refine ⟨fun f hf => (h.tableOf_below level f hf).proper, ?_⟩
  simp only [Compaction.below]
  split
  · rename_i hlevel
    exact h.apart level hlevel
  · exact List.Pairwise.nil

/-- A read of the deeper levels. -/
theorem Compaction.Ready.get_below (h : c.Ready ucmp tables)
    (hsequence : sequence ≤ kMaxSequenceNumber) (userKey : Bytes) :
    ((c.below.get ucmp tables userKey sequence).status,
        (c.below.get ucmp tables userKey sequence).value) =
      answer ((levelsFrom 1).findSome? fun level => (c.below.files level).findSome? fun f =>
        newestSeen ucmp userKey sequence (tables f.number).2) :=
  get_deeper rfl h.tableOf_below (fun level _ => h.sortedLevel_below level) hsequence userKey

/-- A read of files above the deeper levels. -/
theorem Compaction.Ready.get_above (h : c.Ready ucmp tables)
    (htable : ∀ f ∈ files, Version.TableOf ucmp tables f) (hsorted : SortedLevel ucmp files)
    (hsequence : sequence ≤ kMaxSequenceNumber) (userKey : Bytes) :
    (((c.above files).get ucmp tables userKey sequence).status,
        ((c.above files).get ucmp tables userKey sequence).value) =
      answer ((files.findSome? fun f => newestSeen ucmp userKey sequence (tables f.number).2).or
        ((levelsFrom 1).findSome? fun level => (c.below.files level).findSome? fun f =>
          newestSeen ucmp userKey sequence (tables f.number).2)) := by
  have hnext := nextLevel_val h.level
  have hfiles : ∀ level, (c.above files).files level =
      if level = nextLevel c.level then files else c.below.files level := fun _ => rfl
  have hzero : (c.above files).files 0 = [] := if_neg (nextLevel_ne_zero h.level).symm
  have hnone : ∀ level, level ≤ nextLevel c.level →
      ((c.below.files level).findSome? fun f =>
        newestSeen ucmp userKey sequence (tables f.number).2) = none := by
    intro level hlevel
    have hempty : c.below.files level = [] := if_neg (by rw [Fin.le_def] at hlevel; omega)
    rw [hempty]
    rfl
  have hfill := findSome?_fill (pairwise_levelsFrom 1)
    (mem_levelsFrom.mpr (show 1 ≤ (nextLevel c.level).val by omega)) hnone
    (files.findSome? fun f => newestSeen ucmp userKey sequence (tables f.number).2)
  rw [← hfill, get_deeper hzero ?_ ?_ hsequence]
  · refine congrArg answer (findSome?_congr_of_mem fun level _ => ?_)
    rw [hfiles]
    split
    · rfl
    · rfl
  · intro level f hf
    rw [hfiles] at hf
    split at hf
    · exact htable f hf
    · exact h.tableOf_below level f hf
  · intro level _
    rw [hfiles]
    split
    · exact hsorted
    · exact h.sortedLevel_below level

/-- No deeper level has a version of the user key. -/
theorem Compaction.Ready.below_none (h : c.Ready ucmp tables) (hbase : c.IsBaseLevel ucmp userKey) :
    ((levelsFrom 1).findSome? fun level => (c.below.files level).findSome? fun f =>
      newestSeen ucmp userKey sequence (tables f.number).2) = none := by
  refine List.findSome?_eq_none_iff.mpr fun level _ => List.findSome?_eq_none_iff.mpr fun f hf =>
    newestSeen_eq_none.mpr fun e he hseen => ?_
  obtain ⟨hlevel, hf⟩ := Compaction.mem_below.mp hf
  have htable := h.tableOf level hlevel f hf
  have heq := ofKey_iff.mp (isSeen_iff_ofKey.mp hseen).1
  refine hbase level hlevel f hf ⟨?_, ?_⟩
  · refine not_gt_trans (user_not_gt_of_internal (htable.smallest_le he)) ?_
    rw [heq]
    exact Ordering.noConfusion
  · refine not_gt_trans ?_ (user_not_gt_of_internal (htable.le_largest he))
    rw [Std.OrientedCmp.eq_symm heq]
    exact Ordering.noConfusion

/-- A lookup in the merged input ends in it, or goes on in the deeper levels. -/
theorem Compaction.Ready.lookupMerged_eq (h : c.Ready ucmp tables)
    (hinput : InternalStream ucmp input) (hsequence : sequence ≤ kMaxSequenceNumber)
    (userKey : Bytes) :
    lookupMerged ucmp tables c input userKey sequence =
      answer ((newestSeen ucmp userKey sequence input).or
        ((levelsFrom 1).findSome? fun level => (c.below.files level).findSome? fun f =>
          newestSeen ucmp userKey sequence (tables f.number).2)) := by
  have hsorted : SortedStream ucmp input :=
    hinput.increasing.imp fun hlt => by rw [hlt]; exact Ordering.noConfusion
  rw [lookupMerged, saveValue_newestSeen hsequence hsorted hinput.parsed]
  cases hnewest : newestSeen ucmp userKey sequence input with
  | none => exact h.get_below hsequence userKey
  | some e =>
    obtain ⟨⟨user, seq, type⟩, hparse⟩ :=
      Option.isSome_iff_exists.mp (hinput.parsed e (mem_of_newestSeen hnewest))
    simp only [saved, hparse, Option.some_or, answer]
    cases type with
    | deletion => rfl
    | value => rfl

end Levels

section Outputs

variable {outputs : List (Output × List TableEntry)}

/-- The outputs of an increasing stream are apart. -/
theorem outputs_apart (hdescribes : ∀ p ∈ outputs, p.1.Describes p.2)
    (hincreasing : (outputs.flatMap Prod.snd).Pairwise fun a b =>
      ucmp.internalCompare a.key b.key = .lt) :
    outputs.Pairwise fun p q => ucmp.internalCompare p.1.largest q.1.smallest = .lt := by
  refine (List.pairwise_flatMap.mp hincreasing).2.imp_of_mem fun {p q} hp hq hlt => ?_
  obtain ⟨last, hlast, hlargest⟩ := Option.map_eq_some_iff.mp (hdescribes p hp).2
  obtain ⟨first, hfirst, hsmallest⟩ := Option.map_eq_some_iff.mp (hdescribes q hq).1
  rw [← hlargest, ← hsmallest]
  exact hlt last (List.mem_of_getLast? hlast) first (List.mem_of_head? hfirst)

/-- The file of an output has its table. -/
theorem tableOf_output (hstored : st.Stored tables)
    (hdescribes : ∀ p ∈ st.outputs, p.1.Describes p.2)
    (hstream : InternalStream ucmp (st.outputs.flatMap Prod.snd)) :
    ∀ f ∈ st.outputFiles, Version.TableOf ucmp tables f := by
  intro f hf
  obtain ⟨p, hp, rfl⟩ := List.mem_map.mp hf
  have hentries : (tables p.1.number).2 = p.2 := congrArg Prod.snd (hstored p hp)
  refine ⟨congrArg Prod.fst (hstored p hp), ?_, ?_, ?_, ?_⟩
  · rw [hentries]
    exact fun e he => hstream.parsed e (List.mem_flatMap.mpr ⟨p, hp, he⟩)
  · rw [hentries]
    exact (List.pairwise_flatMap.mp hstream.increasing).1 p hp
  · rw [hentries]
    exact (hdescribes p hp).1
  · rw [hentries]
    exact (hdescribes p hp).2

/-- A search in the outputs is one in what was written. -/
theorem findSome?_outputFiles (hstored : st.Stored tables) (userKey : Bytes) (sequence : Nat) :
    (st.outputFiles.findSome? fun f => newestSeen ucmp userKey sequence (tables f.number).2) =
      newestSeen ucmp userKey sequence (st.outputs.flatMap Prod.snd) := by
  rw [CompactionState.outputFiles, List.findSome?_map, newestSeen, List.find?_flatMap]
  refine findSome?_congr_of_mem fun p hp => ?_
  simp only [Function.comp_apply]
  rw [hstored p hp]
  rfl

end Outputs

/-- A compaction whose results are installed keeps what readers see. -/
theorem doCompactionWork_keepsLookups {env : WorkEnv} (hready : c.Ready ucmp tables)
    (hinput : InternalStream ucmp env.input) (hsnapshot : smallestSnapshot < kMaxSequenceNumber)
    (hinstall : (doCompactionWork ucmp maxFileSize env c smallestSnapshot).install.isSome)
    (hstored : (doCompactionWork ucmp maxFileSize env c smallestSnapshot).state.Stored tables) :
    KeepsLookups ucmp tables c smallestSnapshot env.input
      (doCompactionWork ucmp maxFileSize env c smallestSnapshot).state := by
  obtain ⟨hok, hbuilder⟩ := doCompactionWork_written.1 hinstall
  generalize (doCompactionWork ucmp maxFileSize env c smallestSnapshot).state = st at *
  have hwritten : st.outputs.flatMap Prod.snd =
      survivors ucmp smallestSnapshot .init c env.input := by
    have hw := hok.written
    rw [CompactionState.written, hbuilder] at hw
    simpa using hw
  have hsublist : (st.outputs.flatMap Prod.snd).Sublist env.input :=
    hwritten ▸ survivors_sublist env.input
  have hstream : InternalStream ucmp (st.outputs.flatMap Prod.snd) :=
    ⟨hinput.increasing.sublist hsublist, fun e he => hinput.parsed e (hsublist.subset he)⟩
  have htable := tableOf_output hstored hok.outputs hstream
  have hapart : st.outputFiles.Pairwise fun f g => f.range.Before ucmp.internalCompare g.range :=
    List.pairwise_map.mpr (outputs_apart hok.outputs hstream.increasing)
  refine ⟨fun userKey sequence hreader hsequence => ?_, hsublist, hstream.increasing, hok.outputs,
    hapart⟩
  simp only
  rw [hready.get_above htable ⟨fun f hf => (htable f hf).proper, hapart⟩ hsequence,
    hready.lookupMerged_eq hinput hsequence, findSome?_outputFiles hstored, hwritten]
  rcases newestSeen_survivors hsnapshot hreader hready.sortedBelow hinput.increasing hinput.parsed
    (fun e _ => passed_zero hready.start) KeyState.not_hides_init with
    hsame | ⟨hnone, hbase, e, ikey, hnewest, hparse, hdeletion⟩
  · rw [hsame]
  · -- the deletion had nothing left to hide
    rw [hnone, hnewest, Option.none_or, hready.below_none hbase]
    obtain ⟨user, seq, type⟩ := ikey
    obtain rfl : type = .deletion := hdeletion
    simp only [Option.some_or, answer, hparse]

section Examples

/-- The work on entries where nothing fails and nothing else happens. -/
def quietWork (entries : List TableEntry) : WorkEnv :=
  ⟨entries.map fun e => (e, ⟨false, none, goodFinish, 6, .ok, 0, goodFinish⟩), false, goodFinish,
    .ok, .ok⟩

/-- A compaction of the one file of level 1, with nothing below it. -/
def oneFileCompaction (file : TableFile) : Compaction :=
  .new (2 ^ 21) 1 ⟨fun level => if level = 1 then [file] else []⟩ [file]

/-- The tables after that compaction has kept entries. -/
def keptTables (kept : List TableEntry) : Tables := fun number =>
  if number = 6 then (.ok, kept) else (.ok, [])

theorem ready_oneFileCompaction (file : TableFile) :
    (oneFileCompaction file).Ready bytewiseComparator tables := by
  have hempty : ∀ level : Level, (oneFileCompaction file).level.val + 2 ≤ level.val →
      (oneFileCompaction file).inputVersion.files level = [] := by
    intro level hlevel
    refine if_neg fun hone => ?_
    rw [hone] at hlevel
    exact absurd hlevel (by decide : ¬ (1 : Level).val + 2 ≤ (1 : Level).val)
  have hlevel : (1 : Level).val + 1 < kNumLevels := by decide
  refine ⟨hlevel, fun _ => rfl, fun level hlevel f hf => ?_, fun level hlevel => ?_⟩
  · rw [hempty level hlevel] at hf
    exact nomatch hf
  · rw [hempty level hlevel]
    exact List.Pairwise.nil

/-- A deletion, a version that it hides, and another user key. -/
def hiddenEntries : List TableEntry :=
  [⟨appendInternalKey ⟨[1], 5, .deletion⟩, []⟩, ⟨appendInternalKey ⟨[1], 3, .value⟩, [30]⟩,
    ⟨appendInternalKey ⟨[2], 4, .value⟩, [40]⟩]

theorem doCompactionWork_keepsLookups_hidden : ∃ file tables,
    KeepsLookups bytewiseComparator tables (oneFileCompaction file) 5 hiddenEntries
      (doCompactionWork bytewiseComparator (2 ^ 21) (quietWork hiddenEntries)
        (oneFileCompaction file) 5).state := by
  refine ⟨⟨5, 4096, appendInternalKey ⟨[1], 5, .deletion⟩, appendInternalKey ⟨[2], 4, .value⟩⟩,
    keptTables [⟨appendInternalKey ⟨[2], 4, .value⟩, [40]⟩], ?_⟩
  have hinput : InternalStream bytewiseComparator (quietWork hiddenEntries).input :=
    ⟨by decide +kernel, by decide +kernel⟩
  exact doCompactionWork_keepsLookups (ready_oneFileCompaction _) hinput (by decide) rfl
    (by unfold CompactionState.Stored; decide +kernel)

/-- A compaction of one file with a sorted stream of keys, and nothing in the deeper levels, that
does not keep what readers see. -/
def LosesLookups (smallestSnapshot : Nat) (input kept : List TableEntry) : Prop :=
  SortedStream bytewiseComparator input ∧ ∃ file,
    let r := doCompactionWork bytewiseComparator (2 ^ 21) (quietWork input) (oneFileCompaction file)
      smallestSnapshot
    r.install = some .ok ∧ r.state.Stored (keptTables kept) ∧
      ¬ KeepsLookups bytewiseComparator (keptTables kept) (oneFileCompaction file) smallestSnapshot
        input r.state

/-- A key that cannot be decoded comes into sight behind a deletion that is dropped. Where the
oldest snapshot is the highest sequence number, every version is dropped. And a key that occurs
twice stays twice. -/
theorem doCompactionWork_losesLookups :
    LosesLookups 5
      [⟨appendInternalKey ⟨[1], 5, .deletion⟩, []⟩, ⟨[1] ++ encodeFixed64 (4 * 256 + 7), []⟩]
      [⟨[1] ++ encodeFixed64 (4 * 256 + 7), []⟩] ∧
    LosesLookups kMaxSequenceNumber [⟨appendInternalKey ⟨[1], 5, .value⟩, [50]⟩] [] ∧
    LosesLookups 3
      [⟨appendInternalKey ⟨[1], 5, .value⟩, [50]⟩, ⟨appendInternalKey ⟨[1], 5, .value⟩, [50]⟩]
      [⟨appendInternalKey ⟨[1], 5, .value⟩, [50]⟩, ⟨appendInternalKey ⟨[1], 5, .value⟩, [50]⟩] := by
  refine ⟨⟨by unfold SortedStream; decide +kernel, ⟨5, 4096, appendInternalKey ⟨[1], 5, .deletion⟩,
      [1] ++ encodeFixed64 (4 * 256 + 7)⟩, rfl, ?_, fun h => ?_⟩,
    ⟨by unfold SortedStream; decide +kernel, ⟨5, 4096, appendInternalKey ⟨[1], 5, .value⟩,
      appendInternalKey ⟨[1], 5, .value⟩⟩, rfl, ?_, fun h => ?_⟩,
    by unfold SortedStream; decide +kernel, ⟨5, 4096, appendInternalKey ⟨[1], 5, .value⟩,
      appendInternalKey ⟨[1], 5, .value⟩⟩, rfl, ?_, fun h => ?_⟩
  · unfold CompactionState.Stored
    decide +kernel
  · exact absurd (h.lookup [1] 5 (by decide) (by decide)) (by decide +kernel)
  · unfold CompactionState.Stored
    decide +kernel
  · exact absurd (h.lookup [1] kMaxSequenceNumber le_rfl le_rfl) (by decide +kernel)
  · unfold CompactionState.Stored
    decide +kernel
  · exact absurd h.increasing (by decide +kernel)

end Examples

end WiscKey
