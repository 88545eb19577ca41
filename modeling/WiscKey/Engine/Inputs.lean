import WiscKey.Compaction.SelectionSpec
import WiscKey.Engine.Agreement
import WiscKey.Version.OverlapClosure

/-!
# The inputs that a job begins with

A compaction takes in all files of the next level that its inputs meet, and in level 0 all files
that have user keys between those of its inputs. Where it was picked, and not asked for by a user,
its inputs have no gap. A job has the version that it began with: the files of this version are still
there, and a file that was flushed since is newer than all of them and, at the level of the outputs
and below it, apart from the inputs.
-/

namespace WiscKey

variable {ucmp : Comparator} {maxFileSize : Nat} {v : Version Bytes} {c : Compaction}
  {level : Level} {inputs0 : List TableFile}

/-- The files of level 0 that are left out meet none of the inputs. -/
def ClosedInputs (ucmp : Comparator) (v : Version Bytes) (level : Level)
    (inputs0 : List TableFile) : Prop :=
  level = 0 → ∀ f ∈ v.files 0, f ∉ inputs0 → ∀ g ∈ inputs0,
    ¬ f.userRange.Meets ucmp.compare g.userRange

/-- What holds of the inputs of every compaction of a version. -/
structure Compaction.TakesFrom (ucmp : Comparator) (c : Compaction) (v : Version Bytes) :
    Prop where
  level : c.level.val + 1 < kNumLevels
  version : c.inputVersion = v
  start : ∀ level, c.levelPtrs level = 0
  selected : Selected ucmp v c.level c.inputs0 c.inputs1
  closed : ClosedInputs ucmp v c.level c.inputs0
  noDeleted : c.edit.deletedFiles = .empty _
  noNew : c.edit.newFiles = []

/-- The files found in level 0 meet no other ones. -/
theorem closedInputs_getOverlappingInputs (first last : Option Bytes) :
    ClosedInputs ucmp v level (v.getOverlappingInputs ucmp level first last) := by
  rintro rfl f hf hout g hg hmeets
  obtain ⟨closure, hclosure, heq⟩ := @Version.getOverlappingInputs_isClosure ucmp v first last
  rw [heq, List.mem_filter, not_and, decide_eq_true_iff] at hout
  rw [heq, List.mem_filter, decide_eq_true_iff] at hg
  obtain ⟨hg, hmeetsG⟩ := hg
  have hcovers := hclosure.absorbs g.userRange (List.mem_map_of_mem hg) hmeetsG
  refine hout hf ⟨fun a ha => ?_, fun b hb => ?_⟩
  · -- the first key of the other file is not in front of the closure
    have hle := KeyRange.not_before_iff.mp hmeets.1
    exact not_gt_iff_not_lt.mp (not_gt_trans (not_gt_iff_not_lt.mpr (hcovers.1 a ha)) hle)
  · exact not_gt_trans (KeyRange.not_before_iff.mp hmeets.2) (hcovers.2 b hb)

theorem closedInputs_inputsBetween (r : Bytes × Bytes) :
    ClosedInputs ucmp v level (v.inputsBetween ucmp level r) :=
  closedInputs_getOverlappingInputs _ _

theorem closedInputs_expandInputs (h : ClosedInputs ucmp v level inputs0) :
    ClosedInputs ucmp v level (v.expandInputs ucmp maxFileSize level inputs0).1 := by
  rw [Version.expandInputs]
  split
  · exact h
  · simp only
    split
    · split
      · exact closedInputs_inputsBetween _
      · exact h
    · exact h

/-- A new compaction with more inputs. -/
theorem takesFrom_setupOtherInputs (hlevel : level.val + 1 < kNumLevels) (hne : inputs0 ≠ [])
    (hsub : inputs0.Sublist (v.files level)) (hclosed : ClosedInputs ucmp v level inputs0) :
    (v.setupOtherInputs ucmp maxFileSize (.new maxFileSize level v inputs0)).TakesFrom ucmp v :=
  ⟨hlevel, rfl, fun _ => rfl, selected_expandInputs hlevel hne hsub,
    closedInputs_expandInputs hclosed, rfl, rfl⟩

/-- A file alone has no gap. -/
theorem gapFree_singleton (f : TableFile) : GapFree ucmp [f] :=
  fun _ hk => ⟨f.userRange, List.mem_singleton_self _, hk⟩

/-- Nor have the files of level 0 around one. -/
theorem gapFree_inputsBetween {f : TableFile} (hf : f ∈ v.files level)
    (hproper : f.range.Proper ucmp.internalCompare) :
    f ∈ v.inputsBetween ucmp level (getRange ucmp [f]) ∧
      GapFree ucmp (v.inputsBetween ucmp level (getRange ucmp [f])) := by
  obtain ⟨q, hfills, hmeets, heq⟩ := @inputsBetween_spec ucmp v level (userRanges (v.files level))
    (getRange ucmp [f]) (fun g hg => mem_userRanges hg)
    ((gapFree_singleton f).mono fun x hx => by
      obtain ⟨g, hg, rfl⟩ := List.mem_map.mp hx
      rw [List.mem_singleton.mp hg]
      exact mem_userRanges hf)
  have hin : f ∈ v.inputsBetween ucmp level (getRange ucmp [f]) := by
    rw [heq]
    refine List.mem_filter.mpr ⟨hf, overlaps_iff_meets.mpr (hmeets _ ?_)⟩
    exact meets_userHull (List.mem_singleton_self f) hproper
  refine ⟨hin, ?_⟩
  have hfilled := @fills_filter ucmp _ [] q ((List.append_nil (userRanges _)).symm ▸ hfills)
  rw [List.append_nil, ← heq] at hfilled
  refine gapFree_of_meets hfilled (List.ne_nil_of_mem hin) fun g hg => ?_
  rw [heq] at hg
  exact overlaps_iff_meets.mp (List.mem_filter.mp hg).2

theorem Version.level_of_triggers {t : Version.Trigger} (h : v.Triggers t) :
    t.level.val + 1 < kNumLevels := by
  cases t with
  | size level => exact h.1
  | seek level file => exact h.1

theorem Version.mem_pickedFile {t : Version.Trigger} (h : v.Triggers t)
    {compactPointer : Level → Bytes} {f : TableFile}
    (hf : v.pickedFile ucmp compactPointer t = some f) : f ∈ v.files t.level := by
  cases t with
  | size level =>
    rw [Version.pickedFile] at hf
    rcases Option.or_eq_some_iff.mp hf with hf | ⟨-, hf⟩
    · exact List.mem_of_find?_eq_some hf
    · exact List.mem_of_mem_head? hf
  | seek level file =>
    obtain rfl := Option.some.inj hf
    exact h.2

/-- A compaction that is picked takes in what it meets, and has no gap. -/
theorem takesFrom_pickCompaction {compactPointer : Level → Bytes} {t : Version.Trigger}
    (hproper : ∀ l, ∀ f ∈ v.files l, f.range.Proper ucmp.internalCompare) (h : v.Triggers t)
    (hpick : v.pickCompaction ucmp maxFileSize compactPointer t = some c) :
    c.TakesFrom ucmp v ∧ GapFree ucmp (c.inputs0 ++ c.inputs1) := by
  obtain ⟨f, hf, rfl⟩ := Option.map_eq_some_iff.mp hpick
  have hmem := Version.mem_pickedFile h hf
  have hlevel := Version.level_of_triggers h
  simp only
  split
  · rename_i hzero
    obtain ⟨hin, hgap⟩ := gapFree_inputsBetween hmem (hproper _ f hmem)
    rw [hzero] at hin hgap hlevel ⊢
    have hsub := @inputsBetween_sublist ucmp v 0 (getRange ucmp [f])
    exact ⟨takesFrom_setupOtherInputs hlevel (List.ne_nil_of_mem hin) hsub
      (closedInputs_inputsBetween _),
      gapFree_expandInputs hlevel (List.ne_nil_of_mem hin) hsub hproper hgap⟩
  · rename_i hzero
    have hsub := List.singleton_sublist.mpr hmem
    exact ⟨takesFrom_setupOtherInputs hlevel (List.cons_ne_nil f []) hsub
      fun heq => absurd heq hzero,
      gapFree_expandInputs hlevel (List.cons_ne_nil f []) hsub hproper (gapFree_singleton f)⟩

/-- The files that a manual compaction is cut down to. -/
theorem truncateInputs_isPrefixOf {limit total : Nat} (files : List TableFile) :
    Version.truncateInputs limit total files <+: files := by
  induction files generalizing total with
  | nil => exact List.prefix_rfl
  | cons f files ih =>
    rw [Version.truncateInputs]
    split
    · exact ⟨files, rfl⟩
    · exact (List.prefix_cons_inj f).mpr ih

theorem truncateInputs_ne_nil {limit total : Nat} {files : List TableFile} (h : files ≠ []) :
    Version.truncateInputs limit total files ≠ [] := by
  cases files with
  | nil => exact absurd rfl h
  | cons f files =>
    rw [Version.truncateInputs]
    split
    · exact List.cons_ne_nil _ _
    · exact List.cons_ne_nil _ _

/-- A manual compaction takes in what it meets. -/
theorem takesFrom_compactRange {first last : Option Bytes} (hlevel : level.val + 1 < kNumLevels)
    (hrange : v.compactRange ucmp maxFileSize level first last = some c) :
    c.TakesFrom ucmp v := by
  rw [Version.compactRange] at hrange
  simp only at hrange
  split at hrange
  · cases hrange
  · rename_i hsome
    obtain rfl := Option.some.inj hrange
    have hne : v.getOverlappingInputs ucmp level first last ≠ [] := by simpa using hsome
    have hsub := @getOverlappingInputs_sublist ucmp v level first last
    split
    · rename_i hpos
      refine takesFrom_setupOtherInputs hlevel (truncateInputs_ne_nil hne)
        ((truncateInputs_isPrefixOf _).sublist.trans hsub) fun hzero => ?_
      rw [hzero] at hpos
      exact absurd hpos (by decide)
    · exact takesFrom_setupOtherInputs hlevel hne hsub (closedInputs_getOverlappingInputs _ _)

section Jobs

open Version

variable {db db' : Database} {job : Job} {kept : Level → TableFile → Prop} {target : Level}
  {outs : List TableFile} {n' : Nat}

/-- A file of the current version that the version of a compaction has not. -/
structure Compaction.Later (ucmp : Comparator) (tables : Tables) (c : Compaction) (level : Level)
    (g : TableFile) : Prop where
  newer : ∀ level', ∀ f ∈ c.inputVersion.files level',
    NewerThan ucmp (tables g.number).2 (tables f.number).2
  apart : c.level < level → ∀ f ∈ c.inputs0 ++ c.inputs1,
    ¬ g.userRange.Meets ucmp.compare f.userRange
  beside : level = nextLevel c.level →
    ¬ (userHull ucmp (c.inputs0 ++ c.inputs1)).Meets ucmp.compare g.userRange

/-- What holds of a job however old the levels are. -/
structure Job.Ranged (ucmp : Comparator) (db : Database) (job : Job) : Prop where
  takes : job.compaction.TakesFrom ucmp job.compaction.inputVersion
  base : job.compaction.inputVersion.Ranged ucmp db.tables db.nextFileNumber
  stays : ∀ level, ∀ f ∈ job.compaction.inputVersion.files level, f ∈ db.current.files level
  beside : ∀ g ∈ db.current.files (nextLevel job.compaction.level),
    g ∉ job.compaction.inputVersion.files (nextLevel job.compaction.level) →
      ¬ (userHull ucmp (job.compaction.inputs0 ++ job.compaction.inputs1)).Meets ucmp.compare
        g.userRange
  numbers : ∀ number ∈ job.numbers, number < db.nextFileNumber ∧
    ∀ level, ∀ f ∈ db.current.files level, f.number ≠ number
  nodup : job.numbers.Nodup

/-- The ages of the files that a job knows and of those that came later: what it leaves in its level
is newer than what it takes from there. -/
structure Job.Aged (ucmp : Comparator) (db : Database) (job : Job) : Prop where
  base : job.compaction.inputVersion.Aged ucmp db.tables
  later : ∀ level, ∀ g ∈ db.current.files level,
    g ∉ job.compaction.inputVersion.files level → job.compaction.Later ucmp db.tables level g
  left : ∀ g ∈ job.compaction.inputVersion.files job.compaction.level, g ∉ job.compaction.inputs0 →
    ∀ f ∈ job.compaction.inputs0, NewerThan ucmp (db.tables g.number).2 (db.tables f.number).2

/-- A job stays as it is in steps that leave the version alone. -/
theorem Job.Ranged.congr (h : job.Ranged ucmp db) (hcurrent : db'.current = db.current)
    (htables : db'.tables = db.tables) (hnext : db.nextFileNumber ≤ db'.nextFileNumber) :
    job.Ranged ucmp db' := by
  obtain ⟨takes, base, stays, beside, numbers, nodup⟩ := h
  rw [← htables] at base
  rw [← hcurrent] at stays beside numbers
  exact ⟨takes, base.mono hnext fun _ _ => rfl, stays, beside,
    fun number hnumber => ⟨(numbers number hnumber).1.trans_le hnext, (numbers number hnumber).2⟩,
    nodup⟩

theorem Job.Aged.congr (h : job.Aged ucmp db) (hcurrent : db'.current = db.current)
    (htables : db'.tables = db.tables) : job.Aged ucmp db' := by
  obtain ⟨base, later, left⟩ := h
  rw [← htables] at base later left
  rw [← hcurrent] at later
  exact ⟨base, later, left⟩

/-- The entries of files that an edit puts into a version: they were in the immutable memtable
that is gone now, or in files of the version. -/
structure Database.Takes (db db' : Database) (outs : List TableFile) : Prop where
  mem : db'.mem = db.mem
  imm : ∀ imm ∈ db'.imm, db.imm = some imm
  outs : ∀ f ∈ outs, ∀ e ∈ (db'.tables f.number).2,
    (db'.imm = none ∧ ∃ imm ∈ db.imm, e ∈ imm) ∨
      ∃ level, ∃ g ∈ db.current.files level, e ∈ (db.tables g.number).2

theorem Database.takes_nil (hmem : db'.mem = db.mem) (himm : ∀ imm ∈ db'.imm, db.imm = some imm) :
    db.Takes db' [] := ⟨hmem, himm, fun f hf => (by cases hf)⟩

/-- Nothing is held that was not held before. -/
theorem Database.Takes.holds (h : db.Takes db' outs)
    (hc : Edited ucmp db.tables db'.tables db.current db'.current n' kept target outs)
    {e : TableEntry} (he : db'.readState.Holds e) : db.readState.Holds e := by
  rcases he with he | ⟨imm, himm, he⟩ | ⟨level, f, hf, he⟩
  · rw [show db'.readState.mem = db.mem from h.mem] at he
    exact .inl he
  · exact .inr (.inl ⟨imm, h.imm imm himm, he⟩)
  · rcases (hc.mem level f).mp hf with ⟨hf, hkept⟩ | ⟨-, hf⟩
    · rw [show db'.readState.tables f.number = db.tables f.number from
        hc.tables level f hf hkept] at he
      exact .inr (.inr ⟨level, f, hf, he⟩)
    · rcases h.outs f hf e he with ⟨-, himm⟩ | ⟨level, g, hg, he⟩
      · exact .inr (.inl himm)
      · exact .inr (.inr ⟨level, g, hg, he⟩)

/-- What is newer than the sources of the files is newer than all files afterwards. -/
theorem Database.Takes.newerThan (h : db.Takes db' outs)
    (hc : Edited ucmp db.tables db'.tables db.current db'.current n' kept target outs)
    {entries : List TableEntry} (himm : db'.imm = none → ∀ imm ∈ db.imm, NewerThan ucmp entries imm)
    (hold : ∀ level, ∀ f ∈ db.current.files level, NewerThan ucmp entries (db.tables f.number).2)
    (level : Level) (f : TableFile) (hf : f ∈ db'.current.files level) :
    NewerThan ucmp entries (db'.tables f.number).2 := by
  rcases (hc.mem level f).mp hf with ⟨hf, hkept⟩ | ⟨-, hf⟩
  · rw [hc.tables level f hf hkept]
    exact hold level f hf
  · intro e he e' he'
    rcases h.outs f hf e' he' with ⟨hnone, imm, himm', he'⟩ | ⟨level, g, hg, he'⟩
    · exact himm hnone imm himm' e he e' he'
    · exact hold level g hg e he e' he'

end Jobs

end WiscKey
