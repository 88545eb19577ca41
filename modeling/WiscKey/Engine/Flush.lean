import WiscKey.Engine.Inputs

/-!
# Flushes and trivial moves

A memtable goes to a level where it meets no file, nor any above, so that its table fits there and
is newer than what it meets below. While a compaction runs it must not get between the inputs, at
the level of the outputs. A file that is moved down alone meets nothing on its way.
-/

namespace WiscKey

open Version

variable {ucmp : Comparator} {maxFileSize fileSize : Nat} {history : List Op} {db : Database}
  {job : Job} {tables tables' : Tables} {v : Version Bytes} {n : Nat} {level : Level}
  {imm : List TableEntry} {first last : TableEntry} {f : TableFile} {c : Compaction}

section Flush

/-- The last key of a table is decoded. -/
theorem Version.TableOf.decoded (h : TableOf ucmp tables f) : Decoded f := by
  obtain ⟨e, he, hkey⟩ := h.exists_largest
  rw [Decoded, ← hkey]
  exact h.parsed e he

/-- The level that a memtable with these first and last entries is flushed to. -/
def flushLevel (ucmp : Comparator) (maxFileSize : Nat) (v : Version Bytes)
    (first last : TableEntry) : Level :=
  v.pickLevelForMemTableOutput ucmp maxFileSize (extractUserKey first.key)
    (extractUserKey last.key)

/-- The file that a memtable is flushed to. -/
def flushedFile (n fileSize : Nat) (first last : TableEntry) : TableFile :=
  ⟨n, fileSize, first.key, last.key⟩

/-- The edit of a flush. -/
def flushEdit (ucmp : Comparator) (maxFileSize fileSize : Nat) (v : Version Bytes) (n : Nat)
    (first last : TableEntry) : VersionEdit Bytes :=
  VersionEdit.empty.addFile (flushLevel ucmp maxFileSize v first last)
    (flushedFile n fileSize first last)

/-- A memtable that is flushed below level 0 meets no file of its level, nor any above. -/
theorem Version.Ranged.not_meets_flushed (h : v.Ranged ucmp tables n)
    (hpos : flushLevel ucmp maxFileSize v first last ≠ 0)
    (hle : level ≤ flushLevel ucmp maxFileSize v first last) (hf : f ∈ v.files level) :
    ¬ f.userRange.Meets ucmp.compare ⟨extractUserKey first.key, extractUserKey last.key⟩ :=
  pickLevel_spec (fun _ hlevel => h.sortedLevel hlevel)
    (fun l g hg => (h.tableOf l g hg).decoded) hpos hle hf

/-- The tables with one of a new number. -/
theorem Version.Ranged.tables_update (h : v.Ranged ucmp tables n) (hf : f ∈ v.files level) :
    Function.update tables n (.ok, imm) f.number = tables f.number :=
  Function.update_of_ne (h.below level f hf).ne _ _

/-- How a flush changes the version. -/
theorem Version.Ranged.edited_flush (maxFileSize fileSize : Nat) (h : v.Ranged ucmp tables n)
    (himm : InternalStream ucmp imm) (hfirst : imm.head? = some first)
    (hlast : imm.getLast? = some last) :
    Edited ucmp tables (Function.update tables n (.ok, imm)) v
      (v.logAndApply ucmp (flushEdit ucmp maxFileSize fileSize v n first last)) (n + 1)
      (fun _ _ => True) (flushLevel ucmp maxFileSize v first last) [flushedFile n fileSize first last] := by
  have hself : Function.update tables n (.ok, imm) n = (.ok, imm) := Function.update_self ..
  have hnumber : (flushedFile n fileSize first last).number = n := rfl
  have htable : TableOf ucmp (Function.update tables n (.ok, imm))
      (flushedFile n fileSize first last) := tableOf_stream himm hself hfirst hlast rfl rfl
  have hone : ∀ level f, (level, f) ∈
      (flushEdit ucmp maxFileSize fileSize v n first last).newFiles ↔
        level = flushLevel ucmp maxFileSize v first last ∧
          f = flushedFile n fileSize first last := by
    intro level f
    rw [flushEdit, VersionEdit.addFile, VersionEdit.empty, List.nil_append, List.mem_singleton,
      Prod.mk.injEq]
  have hdistinct : ∀ level f g,
      (level, f) ∈ (flushEdit ucmp maxFileSize fileSize v n first last).newFiles →
      (level, g) ∈ (flushEdit ucmp maxFileSize fileSize v n first last).newFiles →
      f.number = g.number → f = g :=
    fun level f g hf hg _ => ((hone level f).mp hf).2.trans ((hone level g).mp hg).2.symm
  have hfresh : ∀ level f,
      (level, f) ∈ (flushEdit ucmp maxFileSize fileSize v n first last).newFiles →
      ∀ g ∈ v.files level, g.number ≠ f.number := by
    intro level f hf g hg
    rw [((hone level f).mp hf).2]
    exact (h.below level g hg).ne
  refine ⟨fun level f => ?_, fun level => increasing_logAndApply h.ordered hdistinct hfresh,
    fun level f hf _ => h.tables_update hf, ?_, ?_, ?_, ?_⟩
  · rw [mem_logAndApply hdistinct hfresh, hone, List.mem_singleton, and_true]
    refine or_congr_left (and_iff_left ?_)
    exact List.not_mem_nil
  · simpa using htable
  · simp only [List.mem_singleton, forall_eq, hnumber]
    exact Nat.lt_succ_self n
  · simp only [List.mem_singleton, forall_eq, hnumber]
    exact fun level g hg _ => (h.below level g hg).ne
  · intro f hf g hg _
    rw [List.mem_singleton.mp hf, List.mem_singleton.mp hg]

/-- The files of its level are apart from the flushed one. -/
theorem Version.Ranged.rearranges_flush (maxFileSize fileSize : Nat) (h : v.Ranged ucmp tables n)
    (himm : InternalStream ucmp imm) (hfirst : imm.head? = some first)
    (hlast : imm.getLast? = some last)
    (hnewer : ∀ level, ∀ f ∈ v.files level, NewerThan ucmp imm (tables f.number).2) :
    Rearranges ucmp tables (Function.update tables n (.ok, imm)) v
      (v.logAndApply ucmp (flushEdit ucmp maxFileSize fileSize v n first last)) (n + 1)
      (fun _ _ => True) (flushLevel ucmp maxFileSize v first last) [flushedFile n fileSize first last] := by
  have hself : Function.update tables n (.ok, imm) n = (.ok, imm) := Function.update_self ..
  refine ⟨h.edited_flush maxFileSize fileSize himm hfirst hlast, fun hpos f hf => ?_,
    fun f hf g hg hne => ?_, fun f hf level g hg _ a ha b hb => ?_⟩
  · rw [List.mem_singleton.mp hf]
    refine ⟨fun g hg hne => absurd (List.mem_singleton.mp hg).symm hne, fun g hg _ hmeets => ?_⟩
    exact h.not_meets_flushed hpos le_rfl hg (meets_userRange hmeets).symm
  · exact absurd ((List.mem_singleton.mp hf).trans (List.mem_singleton.mp hg).symm) hne
  · rw [List.mem_singleton.mp hf, flushedFile, hself] at ha
    rw [h.tables_update hg] at hb
    exact (hnewer level g hg).compareKeys_ne ha hb (himm.parsed a ha)
      ((h.tableOf level g hg).parsed b hb)

/-- The flushed file is newer than those below it, and has no user keys of those above. -/
theorem Version.Ranged.ages_flush (maxFileSize fileSize : Nat) (h : v.Ranged ucmp tables n)
    (himm : InternalStream ucmp imm) (hfirst : imm.head? = some first)
    (hlast : imm.getLast? = some last)
    (hnewer : ∀ level, ∀ f ∈ v.files level, NewerThan ucmp imm (tables f.number).2) :
    Ages ucmp tables (Function.update tables n (.ok, imm)) v
      (v.logAndApply ucmp (flushEdit ucmp maxFileSize fileSize v n first last)) (n + 1)
      (fun _ _ => True) (flushLevel ucmp maxFileSize v first last) [flushedFile n fileSize first last] := by
  have hself : Function.update tables n (.ok, imm) n = (.ok, imm) := Function.update_self ..
  have hedited := h.edited_flush maxFileSize fileSize himm hfirst hlast
  have hnumber : (flushedFile n fileSize first last).number = n := rfl
  have htable := hedited.tableOf _ (List.mem_singleton_self _)
  have hbelow : ∀ level, ∀ g ∈ v.files level, NewerThan ucmp
      (Function.update tables n (.ok, imm) (flushedFile n fileSize first last).number).2
      (Function.update tables n (.ok, imm) g.number).2 := by
    intro level g hg
    rw [h.tables_update hg, hnumber, hself]
    exact hnewer level g hg
  refine ⟨hedited, fun hzero f hf => ?_, fun level hlt g hg _ f hf => ?_,
    fun level _ g hg _ f hf => ?_⟩
  · rw [List.mem_singleton.mp hf]
    refine ⟨fun g hg => (List.mem_singleton.mp hg).symm, fun g hg _ => ?_⟩
    exact ⟨h.below 0 g hg, hbelow 0 g hg⟩
  · have hpos : flushLevel ucmp maxFileSize v first last ≠ 0 := by
      rintro hzero
      rw [hzero] at hlt
      exact absurd hlt (Fin.not_lt_zero level)
    rw [List.mem_singleton.mp hf]
    have hg' := (h.tableOf level g hg).congr (hedited.tables level g hg trivial)
    exact newerThan_of_not_meets hg' htable (h.not_meets_flushed hpos hlt.le hg)
  · rw [List.mem_singleton.mp hf]
    exact hbelow level g hg

/-- The flushed file has no user keys of others of its level. -/
theorem Version.Ranged.apart_flush (maxFileSize fileSize : Nat) (h : v.Ranged ucmp tables n)
    (hapart : v.Apart ucmp) (himm : InternalStream ucmp imm) (hfirst : imm.head? = some first)
    (hlast : imm.getLast? = some last)
    (hnewer : ∀ level, ∀ f ∈ v.files level, NewerThan ucmp imm (tables f.number).2) :
    (v.logAndApply ucmp (flushEdit ucmp maxFileSize fileSize v n first last)).Apart ucmp := by
  have hc := h.rearranges_flush maxFileSize fileSize himm hfirst hlast hnewer
  refine hapart.change hc.toEdited (h.change (Nat.le_succ n) hc) fun hpos f hf => ?_
  rw [List.mem_singleton.mp hf]
  exact ⟨fun g hg hne => absurd (List.mem_singleton.mp hg).symm hne,
    fun g hg _ hmeets => h.not_meets_flushed hpos le_rfl hg hmeets.symm⟩

/-- The range of files is proper where one of them is. -/
theorem userHull_proper {files : List TableFile} (hf : f ∈ files)
    (hproper : f.range.Proper ucmp.internalCompare) :
    (userHull ucmp files).Proper ucmp.compare := by
  obtain ⟨-, -, hle, hge⟩ := @isRange_getRange ucmp files (List.ne_nil_of_mem hf)
  exact user_not_gt_of_internal (not_gt_trans (hle f hf) (not_gt_trans hproper (hge f hf)))

/-- A flush does not get between the inputs of the job, at the level of its outputs. -/
def Job.ClearOf (ucmp : Comparator) (maxFileSize : Nat) (job : Job) (v : Version Bytes)
    (imm : List TableEntry) : Prop :=
  ∀ first ∈ imm.head?, ∀ last ∈ imm.getLast?,
    flushLevel ucmp maxFileSize v first last = nextLevel job.compaction.level →
      ¬ (userHull ucmp (job.compaction.inputs0 ++ job.compaction.inputs1)).Meets ucmp.compare
        ⟨extractUserKey first.key, extractUserKey last.key⟩

/-- A memtable that is flushed to the level of the outputs, or below it, meets none of the
inputs. -/
theorem Job.Ranged.not_meets_flushed (h : db.current.Ranged ucmp db.tables db.nextFileNumber)
    (hjob : job.Ranged ucmp db)
    (hlt : job.compaction.level < flushLevel ucmp maxFileSize db.current first last)
    (hf : f ∈ job.compaction.inputs0 ++ job.compaction.inputs1) :
    ¬ f.userRange.Meets ucmp.compare ⟨extractUserKey first.key, extractUserKey last.key⟩ := by
  have hpos : flushLevel ucmp maxFileSize db.current first last ≠ 0 := by
    intro hzero
    rw [hzero] at hlt
    exact absurd hlt (Fin.not_lt_zero _)
  rcases List.mem_append.mp hf with hf | hf
  · exact h.not_meets_flushed hpos hlt.le
      (hjob.stays _ f (hjob.takes.selected.sublist.subset hf))
  · have hle : nextLevel job.compaction.level ≤
        flushLevel ucmp maxFileSize db.current first last := by
      rw [Fin.le_def, nextLevel_val hjob.takes.level]
      exact hlt
    rw [hjob.takes.selected.next] at hf
    exact h.not_meets_flushed hpos hle (hjob.stays _ f (List.mem_filter.mp hf).1)

/-- Nothing gets between inputs that have no gap. -/
theorem Job.Ranged.clearOf (h : db.current.Ranged ucmp db.tables db.nextFileNumber)
    (hjob : job.Ranged ucmp db) (himm : InternalStream ucmp imm)
    (hgap : GapFree ucmp (job.compaction.inputs0 ++ job.compaction.inputs1)) :
    job.ClearOf ucmp maxFileSize db.current imm := by
  intro first hfirst last hlast hlevel
  have hlt : job.compaction.level < flushLevel ucmp maxFileSize db.current first last := by
    rw [hlevel, Fin.lt_def, nextLevel_val hjob.takes.level]
    exact Nat.lt_succ_self _
  obtain ⟨f, hf⟩ := List.exists_mem_of_ne_nil _ hjob.takes.selected.nonempty
  have hmem := List.mem_append_left job.compaction.inputs1 hf
  have hproper := (hjob.base.tableOf _ f (hjob.takes.selected.sublist.subset hf)).proper
  have htable : TableOf ucmp (fun _ => (.ok, imm)) (flushedFile 0 0 first last) :=
    tableOf_stream himm rfl hfirst hlast rfl rfl
  refine hgap.not_meets (userHull_proper hmem hproper) htable.userRange_proper fun r hr => ?_
  obtain ⟨g, hg, rfl⟩ := List.mem_map.mp hr
  exact hjob.not_meets_flushed h hlt hg

/-- The database with a memtable as a table of a level. -/
def Database.flushTo (db : Database) (ucmp : Comparator) (level : Level) (f : TableFile)
    (imm : List TableEntry) : Database :=
  { db with
    imm := none
    nextFileNumber := db.nextFileNumber + 1
    current := db.current.logAndApply ucmp (VersionEdit.empty.addFile level f)
    tables := Function.update db.tables db.nextFileNumber (.ok, imm) }

theorem Database.compactMemTable_eq (hfirst : imm.head? = some first)
    (hlast : imm.getLast? = some last) : db.compactMemTable ucmp maxFileSize fileSize imm =
      db.flushTo ucmp (flushLevel ucmp maxFileSize db.current first last)
        (flushedFile db.nextFileNumber fileSize first last) imm := by
  rw [Database.compactMemTable, hfirst, hlast]
  rfl

/-- The tables of other files stay. -/
theorem Database.tables_flushTo {m : Nat} (hm : m < db.nextFileNumber) :
    (db.flushTo ucmp level f imm).tables m = db.tables m := Function.update_of_ne hm.ne _ _

/-- The entries of the new table were in the immutable memtable. -/
theorem Database.takes_flushTo (himm : db.imm = some imm) (hnumber : f.number = db.nextFileNumber) :
    db.Takes (db.flushTo ucmp level f imm) [f] := by
  refine ⟨rfl, fun imm himm' => (by cases himm'), fun g hg e he => .inl ⟨rfl, imm, himm, ?_⟩⟩
  obtain rfl := List.mem_singleton.mp hg
  change e ∈ (Function.update db.tables db.nextFileNumber (.ok, imm) g.number).2 at he
  rwa [hnumber, Function.update_self] at he

/-- The files of a job are still there after a flush, and the numbers of its outputs are free. -/
theorem Job.Ranged.flush (h : db.current.Ranged ucmp db.tables db.nextFileNumber)
    (himm : InternalStream ucmp imm) (hfirst : imm.head? = some first)
    (hlast : imm.getLast? = some last) (hjob : job.Ranged ucmp db)
    (hclear : job.ClearOf ucmp maxFileSize db.current imm) :
    job.Ranged ucmp (db.flushTo ucmp (flushLevel ucmp maxFileSize db.current first last)
      (flushedFile db.nextFileNumber fileSize first last) imm) := by
  have he := h.edited_flush maxFileSize fileSize himm hfirst hlast
  refine ⟨hjob.takes, hjob.base.mono (Nat.le_succ _) fun m hm => Function.update_of_ne hm.ne _ _,
    fun level f hf => (he.mem level f).mpr (.inl ⟨hjob.stays level f hf, trivial⟩),
    fun g hg hnot => ?_, fun number hnumber => ?_, hjob.nodup⟩
  · rcases (he.mem _ g).mp hg with ⟨hg, -⟩ | ⟨hlevel, hg⟩
    · exact hjob.beside g hg hnot
    · rw [List.mem_singleton.mp hg]
      exact hclear first hfirst last hlast hlevel.symm
  · obtain ⟨hlt, hne⟩ := hjob.numbers number hnumber
    refine ⟨hlt.trans (Nat.lt_succ_self _), fun level f hf => ?_⟩
    rcases (he.mem level f).mp hf with ⟨hf, -⟩ | ⟨-, hf⟩
    · exact hne level f hf
    · rw [List.mem_singleton.mp hf]
      exact hlt.ne'

/-- And the files that it does not know are newer, and clear of its inputs. -/
theorem Job.Ranged.later_flush (h : db.current.Ranged ucmp db.tables db.nextFileNumber)
    (himm : InternalStream ucmp imm) (hfirst : imm.head? = some first)
    (hlast : imm.getLast? = some last)
    (hnewer : ∀ level, ∀ f ∈ db.current.files level, NewerThan ucmp imm (db.tables f.number).2)
    (hjob : job.Ranged ucmp db) (hclear : job.ClearOf ucmp maxFileSize db.current imm)
    (hlater : ∀ level, ∀ g ∈ db.current.files level,
      g ∉ job.compaction.inputVersion.files level → job.compaction.Later ucmp db.tables level g) :
    let db' := db.flushTo ucmp (flushLevel ucmp maxFileSize db.current first last)
      (flushedFile db.nextFileNumber fileSize first last) imm
    ∀ level, ∀ g ∈ db'.current.files level, g ∉ job.compaction.inputVersion.files level →
      job.compaction.Later ucmp db'.tables level g := by
  have he := h.edited_flush maxFileSize fileSize himm hfirst hlast
  intro db' level g hg hnot
  have hold : ∀ level, ∀ f ∈ job.compaction.inputVersion.files level,
      db'.tables f.number = db.tables f.number :=
    fun level f hf => Database.tables_flushTo (hjob.base.below level f hf)
  rcases (he.mem level g).mp hg with ⟨hg, -⟩ | ⟨hlevel, hg⟩
  · obtain ⟨hnewer, hapart, hbeside⟩ := hlater level g hg hnot
    refine ⟨fun level' f hf => ?_, hapart, hbeside⟩
    have hsame : db'.tables g.number = db.tables g.number :=
      Database.tables_flushTo (h.below level g hg)
    rw [hold level' f hf, hsame]
    exact hnewer level' f hf
  · obtain rfl := List.mem_singleton.mp hg
    refine ⟨fun level' f hf => ?_, fun hlt f hf hmeets => ?_, fun hnext hmeets => ?_⟩
    · have hself : db'.tables db.nextFileNumber = (.ok, imm) := Function.update_self ..
      rw [hold level' f hf, flushedFile, hself]
      exact hnewer level' f (hjob.stays level' f hf)
    · rw [hlevel] at hlt
      exact hjob.not_meets_flushed h hlt hf hmeets.symm
    · exact hclear first hfirst last hlast (hlevel ▸ hnext) hmeets

end Flush

section Move

/-- The user keys of a file alone. -/
theorem userHull_singleton (f : TableFile) : userHull ucmp [f] = f.userRange := rfl

/-- The edit of a trivial move. -/
def moveEdit (c : Compaction) (f : TableFile) : VersionEdit Bytes :=
  (c.edit.deleteFile c.level f.number).addFile (nextLevel c.level) f

/-- How a file that is moved alone changes the version. -/
theorem Version.Ranged.edited_move (h : v.Ranged ucmp tables n) (htakes : c.TakesFrom ucmp v)
    (hfile : c.inputs0 = [f]) :
    Edited ucmp tables tables v (v.logAndApply ucmp (moveEdit c f)) n
      (fun level g => ¬ (level = c.level ∧ g.number = f.number)) (nextLevel c.level) [f] := by
  have hnext := nextLevel_val htakes.level
  have hf : f ∈ v.files c.level := htakes.selected.sublist.subset (by rw [hfile]; simp)
  have hother : ∀ level, ∀ g ∈ v.files level, ¬ (level = c.level ∧ g.number = f.number) →
      g.number ≠ f.number := by
    intro level g hg hnot heq
    exact hnot ⟨(h.unique level c.level g f hg hf heq).1, heq⟩
  have hnew : ∀ level g, (level, g) ∈ (moveEdit c f).newFiles ↔
      level = nextLevel c.level ∧ g = f := by
    intro level g
    rw [moveEdit, VersionEdit.addFile, VersionEdit.deleteFile, htakes.noNew, List.nil_append,
      List.mem_singleton, Prod.mk.injEq]
  have hdeleted : ∀ level g, (level, g) ∈ (moveEdit c f).deletedFiles.toList ↔
      level = c.level ∧ g = f.number := by
    intro level g
    rw [moveEdit, VersionEdit.addFile, VersionEdit.deleteFile, htakes.noDeleted]
    simp [OrderedSet.insert, OrderedSet.empty, insertOrdered]
  have hdistinct : ∀ level g g', (level, g) ∈ (moveEdit c f).newFiles →
      (level, g') ∈ (moveEdit c f).newFiles → g.number = g'.number → g = g' :=
    fun level g g' hg hg' _ => ((hnew level g).mp hg).2.trans ((hnew level g').mp hg').2.symm
  have hfresh : ∀ level g, (level, g) ∈ (moveEdit c f).newFiles →
      ∀ g' ∈ v.files level, g'.number ≠ g.number := by
    intro level g hg g' hg' heq
    obtain ⟨rfl, rfl⟩ := (hnew level g).mp hg
    have hlevel := congrArg Fin.val (h.unique _ _ g' g hg' hf heq).1
    rw [hnext] at hlevel
    exact absurd hlevel (Nat.succ_ne_self _)
  refine ⟨fun level g => ?_, fun level => increasing_logAndApply h.ordered hdistinct hfresh,
    fun _ _ _ _ => rfl, ?_, ?_, ?_, ?_⟩
  · rw [mem_logAndApply hdistinct hfresh, hnew, hdeleted, List.mem_singleton]
  · simpa using h.tableOf c.level f hf
  · simpa using h.below c.level f hf
  · simpa using hother
  · intro g hg g' hg' _
    rw [List.mem_singleton.mp hg, List.mem_singleton.mp hg']

/-- A file that is moved alone meets none of the next level. -/
theorem Compaction.TakesFrom.not_meets_moved (htakes : c.TakesFrom ucmp v)
    (hmove : c.isTrivialMove maxFileSize = true) (hfile : c.inputs0 = [f]) {g : TableFile}
    (hg : g ∈ v.files (nextLevel c.level)) : ¬ f.userRange.Meets ucmp.compare g.userRange := by
  intro hmeets
  have hnone : c.inputs1 = [] := by
    rw [Compaction.isTrivialMove, decide_eq_true_iff] at hmove
    exact List.length_eq_zero_iff.mp hmove.2.1
  have hmem : g ∈ c.inputs1 := by
    rw [htakes.selected.next, hfile, userHull_singleton]
    exact List.mem_filter.mpr ⟨hg, overlaps_iff_meets.mpr hmeets⟩
  rw [hnone] at hmem
  cases hmem

theorem Version.Ranged.rearranges_move (h : v.Ranged ucmp tables n) (htakes : c.TakesFrom ucmp v)
    (hmove : c.isTrivialMove maxFileSize = true) (hfile : c.inputs0 = [f]) :
    Rearranges ucmp tables tables v (v.logAndApply ucmp (moveEdit c f)) n
      (fun level g => ¬ (level = c.level ∧ g.number = f.number)) (nextLevel c.level) [f] := by
  have hf : f ∈ v.files c.level := htakes.selected.sublist.subset (by rw [hfile]; simp)
  refine ⟨h.edited_move htakes hfile, fun _ g hg => ?_, fun g hg g' hg' hne => ?_,
    fun g hg level g' hg' hkept => ?_⟩
  · rw [List.mem_singleton.mp hg]
    refine ⟨fun g' hg' hne => absurd (List.mem_singleton.mp hg').symm hne,
      fun g' hg' _ hmeets => ?_⟩
    exact htakes.not_meets_moved hmove hfile hg' (meets_userRange hmeets)
  · exact absurd ((List.mem_singleton.mp hg).trans (List.mem_singleton.mp hg').symm) hne
  · rw [List.mem_singleton.mp hg]
    refine h.disjoint c.level level f g' hf hg' fun heq => hkept ?_
    exact ⟨(h.unique level c.level g' f hg' hf (congrArg _ heq.symm)).1, congrArg _ heq.symm⟩

/-- The moved file is newer than those below it, and older than those that it leaves. -/
theorem Version.Ranged.ages_move (h : v.Ranged ucmp tables n) (haged : v.Aged ucmp tables)
    (htakes : c.TakesFrom ucmp v) (hfile : c.inputs0 = [f])
    (hleft : ∀ g ∈ v.files c.level, g ∉ c.inputs0 →
      NewerThan ucmp (tables g.number).2 (tables f.number).2) :
    Ages ucmp tables tables v (v.logAndApply ucmp (moveEdit c f)) n
      (fun level g => ¬ (level = c.level ∧ g.number = f.number)) (nextLevel c.level) [f] := by
  have hnext := nextLevel_val htakes.level
  have hf : f ∈ v.files c.level := htakes.selected.sublist.subset (by rw [hfile]; simp)
  refine ⟨h.edited_move htakes hfile, fun hzero => ?_, fun level hlt g hg hkept g' hg' => ?_,
    fun level hlt g hg _ g' hg' => ?_⟩
  · exact absurd hzero (nextLevel_ne_zero htakes.level)
  · rw [List.mem_singleton.mp hg']
    have hle : level ≤ c.level := by
      rw [Fin.lt_def, hnext] at hlt
      exact Fin.le_def.mpr (Nat.le_of_lt_succ hlt)
    rcases lt_or_eq_of_le hle with hlt' | rfl
    · exact haged.deeper level c.level hlt' g hg f hf
    · refine hleft g hg fun hmem => hkept ⟨rfl, ?_⟩
      rw [hfile, List.mem_singleton] at hmem
      rw [hmem]
  · rw [List.mem_singleton.mp hg']
    refine haged.deeper c.level level ?_ f hf g hg
    rw [Fin.lt_def, hnext] at hlt
    exact Fin.lt_def.mpr (Nat.lt_of_succ_lt hlt)

theorem Version.Ranged.apart_move (h : v.Ranged ucmp tables n) (hapart : v.Apart ucmp)
    (htakes : c.TakesFrom ucmp v) (hmove : c.isTrivialMove maxFileSize = true)
    (hfile : c.inputs0 = [f]) : (v.logAndApply ucmp (moveEdit c f)).Apart ucmp := by
  have hc := h.rearranges_move htakes hmove hfile
  refine hapart.change hc.toEdited (h.change le_rfl hc) fun _ g hg => ?_
  rw [List.mem_singleton.mp hg]
  exact ⟨fun g' hg' hne => absurd (List.mem_singleton.mp hg').symm hne,
    fun g' hg' _ => htakes.not_meets_moved hmove hfile hg'⟩

/-- The entries of a file that is moved stay. -/
theorem Database.takes_moveFile (hf : f ∈ db.current.files c.level) :
    db.Takes (db.moveFile ucmp c f) [f] := by
  refine ⟨rfl, fun _ himm => himm, fun g hg e he => .inr ⟨c.level, f, hf, ?_⟩⟩
  rwa [List.mem_singleton.mp hg] at he

end Move

end WiscKey
