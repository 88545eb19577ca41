import WiscKey.Engine.Inputs
import WiscKey.Library.SortedUnion

/-!
# The inputs of a compaction, merged

The inputs of a compaction have no entries in common, so that the merged input has the entries of
each. Whatever else a reader comes across with a user key of the inputs is newer, or it is in the
levels below the outputs.
-/

namespace WiscKey

open Version

variable {ucmp : Comparator} {history : List Op} {db : Database} {job : Job} {tables : Tables}
  {v : Version Bytes} {n : Nat} {c : Compaction} {level level' : Level} {f g : TableFile}
  {entries entries' : List TableEntry} {e e' : TableEntry}

/-- The file is an input of the compaction. -/
def Compaction.IsInput (c : Compaction) (level : Level) (f : TableFile) : Prop :=
  (level = c.level ∧ f ∈ c.inputs0) ∨ (level = nextLevel c.level ∧ f ∈ c.inputs1)

theorem Compaction.IsInput.mem (h : c.IsInput level f) : f ∈ c.inputs0 ++ c.inputs1 :=
  List.mem_append.mpr (h.imp And.right And.right)

theorem Compaction.exists_isInput (hf : f ∈ c.inputs0 ++ c.inputs1) :
    ∃ level, c.IsInput level f := by
  rcases List.mem_append.mp hf with hf | hf
  · exact ⟨c.level, .inl ⟨rfl, hf⟩⟩
  · exact ⟨nextLevel c.level, .inr ⟨rfl, hf⟩⟩

/-- The inputs are files of their levels. -/
theorem Compaction.TakesFrom.mem_files (h : c.TakesFrom ucmp v) (hf : c.IsInput level f) :
    f ∈ v.files level := by
  rcases hf with ⟨rfl, hf⟩ | ⟨rfl, hf⟩
  · exact h.selected.sublist.subset hf
  · rw [h.selected.next] at hf
    exact (List.mem_filter.mp hf).1

/-- An input is in the level of the compaction or in the next. -/
theorem Compaction.IsInput.le_level (h : c.IsInput level f)
    (hlevel : c.level.val + 1 < kNumLevels) : c.level.val ≤ level.val ∧ level.val ≤ c.level.val + 1 := by
  rcases h with ⟨rfl, -⟩ | ⟨rfl, -⟩
  · exact ⟨le_rfl, Nat.le_succ _⟩
  · rw [nextLevel_val hlevel]
    exact ⟨Nat.le_succ _, le_rfl⟩

section Merge

/-- No file is an input twice. -/
theorem Compaction.TakesFrom.nodup (h : c.TakesFrom ucmp v) (hranged : v.Ranged ucmp tables n) :
    (c.inputs0 ++ c.inputs1).Nodup := by
  refine List.nodup_append.mpr ⟨hranged.nodup.sublist h.selected.sublist, ?_,
    fun f hf g hg heq => ?_⟩
  · rw [h.selected.next]
    exact hranged.nodup.filter _
  · subst heq
    have hlevels := (hranged.unique _ _ f f (h.mem_files (.inl ⟨rfl, hf⟩))
      (h.mem_files (.inr ⟨rfl, hg⟩)) rfl).1
    have hval := congrArg Fin.val hlevels
    rw [nextLevel_val h.level] at hval
    exact absurd hval.symm (Nat.succ_ne_self _)

/-- The merged input has the entries of the inputs in order. -/
theorem Compaction.TakesFrom.isSortedUnion (h : c.TakesFrom ucmp v)
    (hranged : v.Ranged ucmp tables n) : IsSortedUnion (compareKeys ucmp)
      ((c.inputs0 ++ c.inputs1).map fun f => (tables f.number).2) (c.mergedInput ucmp tables) := by
  have hmem : ∀ f ∈ c.inputs0 ++ c.inputs1, ∃ level, f ∈ v.files level := fun f hf =>
    (Compaction.exists_isInput hf).imp fun level hinput => h.mem_files hinput
  have hfold : c.mergedInput ucmp tables = ((c.inputs0 ++ c.inputs1).map fun f =>
      (tables f.number).2).foldl (mergeOrdered (compareKeys ucmp)) [] := List.foldl_map.symm
  rw [hfold]
  refine isSortedUnion_foldl (fun l hl => ?_) ?_
  · obtain ⟨f, hf, rfl⟩ := List.mem_map.mp hl
    obtain ⟨level, hf⟩ := hmem f hf
    exact (hranged.tableOf level f hf).increasing
  · refine List.pairwise_map.mpr ((h.nodup hranged).imp_of_mem fun {f g} hf hg hne => ?_)
    obtain ⟨level, hf⟩ := hmem f hf
    obtain ⟨level', hg⟩ := hmem g hg
    exact hranged.disjoint level level' f g hf hg hne

theorem Compaction.TakesFrom.internalStream (h : c.TakesFrom ucmp v)
    (hranged : v.Ranged ucmp tables n) : InternalStream ucmp (c.mergedInput ucmp tables) := by
  have hunion := h.isSortedUnion hranged
  refine ⟨hunion.increasing, fun e he => ?_⟩
  obtain ⟨l, hl, he⟩ := (hunion.mem e).mp he
  obtain ⟨f, hf, rfl⟩ := List.mem_map.mp hl
  obtain ⟨level, hinput⟩ := Compaction.exists_isInput hf
  exact (hranged.tableOf level f (h.mem_files hinput)).parsed e he

theorem Compaction.TakesFrom.mem_mergedInput (h : c.TakesFrom ucmp v)
    (hranged : v.Ranged ucmp tables n) :
    e ∈ c.mergedInput ucmp tables ↔ ∃ level f, c.IsInput level f ∧ e ∈ (tables f.number).2 := by
  rw [(h.isSortedUnion hranged).mem e]
  constructor
  · rintro ⟨l, hl, he⟩
    obtain ⟨f, hf, rfl⟩ := List.mem_map.mp hl
    obtain ⟨level, hinput⟩ := Compaction.exists_isInput hf
    exact ⟨level, f, hinput, he⟩
  · rintro ⟨level, f, hinput, he⟩
    exact ⟨_, List.mem_map_of_mem hinput.mem, he⟩

end Merge

section Rest

/-- A file behind all that fills a range is behind the range, and one in front is in front. -/
theorem not_meets_of_sides {files : List TableFile} {r : KeyRange Bytes} (hne : files ≠ [])
    (h : (∀ f ∈ files, f.userRange.Before ucmp.compare r) ∨
      ∀ f ∈ files, r.Before ucmp.compare f.userRange) :
    ¬ (userHull ucmp files).Meets ucmp.compare r := by
  obtain ⟨⟨a, ha, hfirst⟩, ⟨b, hb, hlast⟩, -, -⟩ := @isRange_getRange ucmp files hne
  rintro ⟨hbefore, hbehind⟩
  rcases h with h | h
  · have hlt := h b hb
    rw [KeyRange.Before, FileMetaData.userRange, hlast] at hlt
    exact hbefore hlt
  · have hlt := h a ha
    rw [KeyRange.Before, FileMetaData.userRange, hfirst] at hlt
    exact hbehind hlt

/-- A file of the next level that is no input is on one side of the inputs of the level. -/
theorem Compaction.TakesFrom.hull_sides (h : c.TakesFrom ucmp v)
    (hg : g ∈ v.files (nextLevel c.level)) (hnot : g ∉ c.inputs1) :
    (userHull ucmp c.inputs0).Before ucmp.compare g.userRange ∨
      g.userRange.Before ucmp.compare (userHull ucmp c.inputs0) := by
  by_contra hneither
  rw [not_or] at hneither
  rw [h.selected.next] at hnot
  exact hnot (List.mem_filter.mpr ⟨hg, overlaps_iff_meets.mpr hneither⟩)

/-- The inputs of the next level meet those of the level. -/
theorem Compaction.TakesFrom.meets_hull (h : c.TakesFrom ucmp v) (hf : f ∈ c.inputs1) :
    (userHull ucmp c.inputs0).Meets ucmp.compare f.userRange := by
  rw [h.selected.next] at hf
  exact overlaps_iff_meets.mp (List.mem_filter.mp hf).2

/-- A file of the next level that is no input is on one side of all inputs. -/
theorem Compaction.TakesFrom.sides (h : c.TakesFrom ucmp v) (hranged : v.Ranged ucmp tables n)
    (hg : g ∈ v.files (nextLevel c.level)) (hnot : g ∉ c.inputs1) :
    (∀ f ∈ c.inputs0 ++ c.inputs1, f.range.Before ucmp.internalCompare g.range) ∨
      ∀ f ∈ c.inputs0 ++ c.inputs1, g.range.Before ucmp.internalCompare f.range := by
  have hnext := nextLevel_ne_zero h.level
  have hapart : ∀ f ∈ c.inputs1, ¬ f.range.Meets ucmp.internalCompare g.range := fun f hf =>
    hranged.not_meets hnext (h.mem_files (.inr ⟨rfl, hf⟩)) hg fun heq => hnot (heq ▸ hf)
  have hg' := userRange_proper (hranged.tableOf _ g hg).proper
  obtain ⟨-, -, hle, hge⟩ := @isRange_getRange ucmp c.inputs0 h.selected.nonempty
  rcases h.hull_sides hg hnot with hside | hside
  · refine .inl fun f hf => ?_
    rcases List.mem_append.mp hf with hf | hf
    · exact before_of_userRange (lt_of_not_gt_of_lt (user_not_gt_of_internal (hge f hf)) hside)
    · by_contra hbefore
      -- a file behind the other one would be behind the inputs of the level too
      refine hapart f hf ⟨hbefore, fun hbehind => ?_⟩
      have hle' := user_not_gt_of_before hbehind
      exact (h.meets_hull hf).1 (lt_of_lt_of_not_gt hside (not_gt_trans hg' hle'))
  · refine .inr fun f hf => ?_
    rcases List.mem_append.mp hf with hf | hf
    · exact before_of_userRange (lt_of_lt_of_not_gt hside (user_not_gt_of_internal (hle f hf)))
    · by_contra hbehind
      refine hapart f hf ⟨fun hbefore => ?_, hbehind⟩
      have hle' := user_not_gt_of_before hbefore
      exact (h.meets_hull hf).2 (lt_of_not_gt_of_lt (not_gt_trans hle' hg') hside)

/-- A file of the next level that is no input is beside the inputs. -/
theorem Compaction.TakesFrom.not_meets_hull (h : c.TakesFrom ucmp v)
    (hranged : v.Ranged ucmp tables n) (hapartFiles : v.Apart ucmp)
    (hg : g ∈ v.files (nextLevel c.level)) (hnot : g ∉ c.inputs1) :
    ¬ (userHull ucmp (c.inputs0 ++ c.inputs1)).Meets ucmp.compare g.userRange := by
  have hapart : ∀ f ∈ c.inputs1, ¬ f.userRange.Meets ucmp.compare g.userRange := fun f hf =>
    hapartFiles.not_meets (nextLevel_ne_zero h.level) (h.mem_files (.inr ⟨rfl, hf⟩)) hg
      fun heq => hnot (heq ▸ hf)
  have hg' := (hranged.tableOf _ g hg).userRange_proper
  obtain ⟨-, -, hle, hge⟩ := @isRange_getRange ucmp c.inputs0 h.selected.nonempty
  refine not_meets_of_sides (by simp [h.selected.nonempty]) ?_
  rcases h.hull_sides hg hnot with hside | hside
  · refine .inl fun f hf => ?_
    rcases List.mem_append.mp hf with hf | hf
    · exact lt_of_not_gt_of_lt (user_not_gt_of_internal (hge f hf)) hside
    · exact hside.of_meets (h.meets_hull hf) hg' (hapart f hf)
  · refine .inr fun f hf => ?_
    rcases List.mem_append.mp hf with hf | hf
    · exact lt_of_lt_of_not_gt hside (user_not_gt_of_internal (hle f hf))
    · exact hside.of_meets_behind (h.meets_hull hf) hg' (hapart f hf)

/-- The range of files is around each of them. -/
theorem hull_around {files : List TableFile} (hf : f ∈ files) :
    ucmp.compare (userHull ucmp files).first f.userRange.first ≠ .gt ∧
      ucmp.compare f.userRange.last (userHull ucmp files).last ≠ .gt := by
  obtain ⟨-, -, hle, hge⟩ := @isRange_getRange ucmp files (List.ne_nil_of_mem hf)
  exact ⟨user_not_gt_of_internal (hle f hf), user_not_gt_of_internal (hge f hf)⟩

/-- At the level of the outputs, the files that are no inputs are beside them. -/
theorem Job.Ranged.not_meets_hull (hjob : job.Ranged ucmp db)
    (hapart : job.compaction.inputVersion.Apart ucmp)
    (hg : g ∈ db.current.files (nextLevel job.compaction.level))
    (hnot : ¬ job.compaction.IsInput (nextLevel job.compaction.level) g) :
    ¬ (userHull ucmp (job.compaction.inputs0 ++ job.compaction.inputs1)).Meets ucmp.compare
      g.userRange := by
  by_cases hold : g ∈ job.compaction.inputVersion.files (nextLevel job.compaction.level)
  · exact hjob.takes.not_meets_hull hjob.base hapart hold fun hinput => hnot (.inr ⟨rfl, hinput⟩)
  · exact hjob.beside g hg hold

/-- A file that is no input is newer than the inputs, down to their level. -/
theorem Job.Aged.newer_above (haged : job.Aged ucmp db) (hjob : job.Ranged ucmp db)
    (hg : g ∈ db.current.files level) (hnot : ¬ job.compaction.IsInput level g)
    (hle : level ≤ job.compaction.level) (hf : job.compaction.IsInput level' f) :
    NewerThan ucmp (db.tables g.number).2 (db.tables f.number).2 := by
  have hbase := hjob.takes.mem_files hf
  by_cases hold : g ∈ job.compaction.inputVersion.files level
  · rcases lt_or_ge level level' with habove | hge
    · exact haged.base.deeper level level' habove g hold f hbase
    · -- both are in the level of the compaction
      obtain ⟨hfirst, -⟩ := hf.le_level hjob.takes.level
      have hval : level = level' := le_antisymm (hle.trans (Fin.le_def.mpr hfirst)) hge
      have hsame : level = job.compaction.level := le_antisymm hle (hval ▸ Fin.le_def.mpr hfirst)
      subst hval
      have hf0 : f ∈ job.compaction.inputs0 := by
        rcases hf with ⟨-, hf⟩ | ⟨hlevel, -⟩
        · exact hf
        · have hval := congrArg Fin.val (hsame.symm.trans hlevel)
          rw [nextLevel_val hjob.takes.level] at hval
          omega
      exact haged.left g (hsame ▸ hold) (fun hg0 => hnot (.inl ⟨hsame, hg0⟩)) f hf0
  · exact (haged.later level g hg hold).newer level' f hbase

/-- A file that is no input is newer than the inputs, or below the outputs. -/
theorem Job.Aged.newer_or_below (haged : job.Aged ucmp db) (hjob : job.Ranged ucmp db)
    (h : db.current.Ranged ucmp db.tables db.nextFileNumber)
    (hapart : job.compaction.inputVersion.Apart ucmp)
    (hg : g ∈ db.current.files level) (hnot : ¬ job.compaction.IsInput level g)
    (hf : job.compaction.IsInput level' f) :
    NewerThan ucmp (db.tables g.number).2 (db.tables f.number).2 ∨
      (job.compaction.level.val + 2 ≤ level.val ∧
        g ∈ job.compaction.inputVersion.files level) := by
  have hbase := hjob.takes.mem_files hf
  by_cases hold : g ∈ job.compaction.inputVersion.files level
  · rcases Nat.lt_trichotomy level.val (job.compaction.level.val + 1) with hlt | heq | hgt
    · have hle := Fin.le_def.mpr (Nat.le_of_lt_succ hlt)
      exact .inl (haged.newer_above hjob hg hnot hle hf)
    · have hnext : level = nextLevel job.compaction.level :=
        Fin.ext (by rw [heq, nextLevel_val hjob.takes.level])
      subst hnext
      refine .inl (newerThan_of_not_meets (h.tableOf _ g hg) (hjob.base.tableOf level' f hbase)
        fun hmeets => hjob.not_meets_hull hapart hg hnot ?_)
      exact hmeets.symm.widen (hull_around hf.mem).1 (hull_around hf.mem).2
    · exact .inr ⟨hgt, hold⟩
  · exact .inl ((haged.later level g hg hold).newer level' f hbase)

/-- The inputs are newer than what is below the outputs. -/
theorem Job.Aged.newer_below (haged : job.Aged ucmp db) (hjob : job.Ranged ucmp db)
    (h : db.current.Ranged ucmp db.tables db.nextFileNumber)
    (hg : g ∈ db.current.files level) (hlt : nextLevel job.compaction.level < level)
    (hf : job.compaction.IsInput level' f) :
    NewerThan ucmp (db.tables f.number).2 (db.tables g.number).2 := by
  have hbase := hjob.takes.mem_files hf
  obtain ⟨-, hlast⟩ := hf.le_level hjob.takes.level
  rw [Fin.lt_def, nextLevel_val hjob.takes.level] at hlt
  by_cases hold : g ∈ job.compaction.inputVersion.files level
  · exact haged.base.deeper level' level (Fin.lt_def.mpr (by omega)) f hbase g hold
  · refine newerThan_of_not_meets (hjob.base.tableOf level' f hbase)
      (h.tableOf level g hg) fun hmeets => ?_
    exact (haged.later level g hg hold).apart (Fin.lt_def.mpr (by omega)) f hf.mem hmeets.symm

end Rest

end WiscKey
