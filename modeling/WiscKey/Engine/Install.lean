import WiscKey.Engine.Flush
import WiscKey.Engine.Merging
import WiscKey.Engine.Results

/-!
# Results that are installed

The outputs of a compaction take the place of its inputs, in the next level. They fit there if no
user key is in two of them. A reader of the key of an input finds the same version in the outputs,
or a deletion is gone and there is nothing left that it could hide.
-/

namespace WiscKey

open Version

variable {ucmp : Comparator} {maxFileSize : Nat} {history : List Op} {db : Database} {job : Job}
  {tables : Tables} {st : CompactionState} {level level' : Level} {f g : TableFile}
  {e e' : TableEntry}

/-- No user key is in two of the outputs. -/
def CompactionState.Uncut (ucmp : Comparator) (st : CompactionState) : Prop :=
  st.outputFiles.Pairwise fun f g => f.userRange.Before ucmp.compare g.userRange

/-- What a job ends with. -/
structure Job.Written (ucmp : Comparator) (db : Database) (job : Job) (st : CompactionState) :
    Prop where
  results : st.HasResults ucmp job.compaction job.smallestSnapshot
    (job.compaction.mergedInput ucmp db.tables)
  numbers : st.outputs.map (fun o => o.1.number) = job.numbers

/-- What a job ends with that cuts no user key. -/
structure Job.Done (ucmp : Comparator) (db : Database) (job : Job) (st : CompactionState) : Prop
    extends job.Written ucmp db st where
  uncut : st.Uncut ucmp

section Tables

/-- The tables with those of outputs that have different numbers. -/
theorem storeOutputs_spec {outputs : List (Output × List TableEntry)}
    (hnodup : (outputs.map fun o => o.1.number).Nodup) :
    (∀ p ∈ outputs, storeOutputs tables outputs p.1.number = (.ok, p.2)) ∧
      ∀ m, m ∉ outputs.map (fun o => o.1.number) → storeOutputs tables outputs m = tables m := by
  induction outputs generalizing tables with
  | nil => exact ⟨fun p hp => absurd hp List.not_mem_nil, fun m _ => rfl⟩
  | cons o outputs ih =>
    obtain ⟨hfirst, hrest⟩ := List.nodup_cons.mp hnodup
    obtain ⟨hin, hout⟩ := @ih (Function.update tables o.1.number (.ok, o.2)) hrest
    refine ⟨fun p hp => ?_, fun m hm => ?_⟩
    · rcases List.mem_cons.mp hp with rfl | hp
      · rw [storeOutputs, List.foldl_cons]
        exact (hout _ hfirst).trans (Function.update_self ..)
      · exact hin p hp
    · rw [List.map_cons, List.mem_cons, not_or] at hm
      rw [storeOutputs, List.foldl_cons]
      exact (hout m hm.2).trans (Function.update_of_ne hm.1 _ _)

theorem Job.Written.stored (hwritten : job.Written ucmp db st) (hjob : job.Ranged ucmp db) :
    st.Stored (db.install ucmp st).tables :=
  (storeOutputs_spec (hwritten.numbers ▸ hjob.nodup)).1

/-- The tables of other numbers stay. -/
theorem Job.Written.tables_eq (hwritten : job.Written ucmp db st) (hjob : job.Ranged ucmp db) {m : Nat}
    (hm : m ∉ job.numbers) : (db.install ucmp st).tables m = db.tables m :=
  (storeOutputs_spec (hwritten.numbers ▸ hjob.nodup)).2 m (hwritten.numbers ▸ hm)

theorem Job.Written.tables_kept (hwritten : job.Written ucmp db st) (hjob : job.Ranged ucmp db)
    (hf : f ∈ db.current.files level) :
    (db.install ucmp st).tables f.number = db.tables f.number :=
  hwritten.tables_eq hjob fun hnumber => (hjob.numbers _ hnumber).2 level f hf rfl

/-- The numbers of the outputs are those that the job was given. -/
theorem Job.Written.number_mem (hwritten : job.Written ucmp db st) (hf : f ∈ st.outputFiles) :
    f.number ∈ job.numbers := by
  obtain ⟨p, hp, rfl⟩ := List.mem_map.mp hf
  rw [← hwritten.numbers]
  exact List.mem_map_of_mem hp

theorem Job.Written.eq_of_number (hwritten : job.Written ucmp db st) (hjob : job.Ranged ucmp db)
    (hf : f ∈ st.outputFiles) (hg : g ∈ st.outputFiles) (heq : f.number = g.number) : f = g := by
  obtain ⟨p, hp, rfl⟩ := List.mem_map.mp hf
  obtain ⟨q, hq, rfl⟩ := List.mem_map.mp hg
  have hnodup : (st.outputs.map fun o => o.1.number).Nodup := hwritten.numbers ▸ hjob.nodup
  rw [List.inj_on_of_nodup_map hnodup hp hq heq]

end Tables

section Outputs

/-- What was written is in the inputs, in order. -/
theorem Job.Written.sublist (hwritten : job.Written ucmp db st) :
    (st.outputs.flatMap Prod.snd).Sublist (job.compaction.mergedInput ucmp db.tables) := by
  rw [hwritten.results.written]
  exact survivors_sublist _

theorem Job.Written.tableOf (hwritten : job.Written ucmp db st) (hjob : job.Ranged ucmp db)
    (hf : f ∈ st.outputFiles) : TableOf ucmp (db.install ucmp st).tables f := by
  have hstream := hjob.takes.internalStream hjob.base
  refine tableOf_output (hwritten.stored hjob) hwritten.results.describes ?_ f hf
  exact ⟨hstream.increasing.sublist hwritten.sublist,
    fun e he => hstream.parsed e (hwritten.sublist.subset he)⟩

/-- The entries of an output are entries of inputs. -/
theorem Job.Written.exists_input (hwritten : job.Written ucmp db st) (hjob : job.Ranged ucmp db)
    (hf : f ∈ st.outputFiles) (he : e ∈ ((db.install ucmp st).tables f.number).2) :
    ∃ level g, job.compaction.IsInput level g ∧ e ∈ (db.tables g.number).2 := by
  obtain ⟨p, hp, rfl⟩ := List.mem_map.mp hf
  rw [hwritten.stored hjob p hp] at he
  refine (hjob.takes.mem_mergedInput hjob.base).mp (hwritten.sublist.subset ?_)
  exact List.mem_flatMap.mpr ⟨p, hp, he⟩

/-- What is newer than the inputs is newer than the outputs. -/
theorem Job.Written.newerThan (hwritten : job.Written ucmp db st) (hjob : job.Ranged ucmp db)
    {entries : List TableEntry}
    (hnewer : ∀ level g, job.compaction.IsInput level g →
      NewerThan ucmp entries (db.tables g.number).2) (hf : f ∈ st.outputFiles) :
    NewerThan ucmp entries ((db.install ucmp st).tables f.number).2 := by
  intro e he e' he'
  obtain ⟨level, g, hg, he'⟩ := hwritten.exists_input hjob hf he'
  exact hnewer level g hg e he e' he'

/-- What the inputs are newer than the outputs are newer than. -/
theorem Job.Written.newerThan_of (hwritten : job.Written ucmp db st) (hjob : job.Ranged ucmp db)
    {entries : List TableEntry}
    (hnewer : ∀ level g, job.compaction.IsInput level g →
      NewerThan ucmp (db.tables g.number).2 entries) (hf : f ∈ st.outputFiles) :
    NewerThan ucmp ((db.install ucmp st).tables f.number).2 entries := by
  intro e he e' he'
  obtain ⟨level, g, hg, he⟩ := hwritten.exists_input hjob hf he
  exact hnewer level g hg e he e' he'

/-- An output has no user keys outside the range of the inputs. -/
theorem Job.Written.within (hwritten : job.Written ucmp db st) (hjob : job.Ranged ucmp db)
    (hf : f ∈ st.outputFiles) :
    let hull := userHull ucmp (job.compaction.inputs0 ++ job.compaction.inputs1)
    ucmp.compare hull.first f.userRange.first ≠ .gt ∧
      ucmp.compare f.userRange.last hull.last ≠ .gt := by
  have htable := hwritten.tableOf hjob hf
  have hentry : ∀ e ∈ ((db.install ucmp st).tables f.number).2,
      let hull := userHull ucmp (job.compaction.inputs0 ++ job.compaction.inputs1)
      ucmp.compare hull.first (extractUserKey e.key) ≠ .gt ∧
        ucmp.compare (extractUserKey e.key) hull.last ≠ .gt := by
    intro e he
    obtain ⟨level, g, hg, he⟩ := hwritten.exists_input hjob hf he
    have hinput := hjob.base.tableOf level g (hjob.takes.mem_files hg)
    have haround := @hull_around ucmp g _ hg.mem
    exact ⟨not_gt_trans haround.1 (user_not_gt_of_internal (hinput.smallest_le he)),
      not_gt_trans (user_not_gt_of_internal (hinput.le_largest he)) haround.2⟩
  obtain ⟨first, hfirst, hsmallest⟩ := Option.map_eq_some_iff.mp htable.smallest
  obtain ⟨last, hlast, hlargest⟩ := htable.exists_largest
  have hle := (hentry first (List.mem_of_head? hfirst)).1
  have hge := (hentry last hlast).2
  rw [hsmallest] at hle
  rw [hlargest] at hge
  exact ⟨hle, hge⟩

end Outputs

section Edit

/-- The inputs of a job are in the current version, and have their numbers for themselves. -/
theorem Job.Ranged.isInput_iff (h : db.current.Ranged ucmp db.tables db.nextFileNumber)
    (hjob : job.Ranged ucmp db) (hg : g ∈ db.current.files level) :
    job.compaction.IsInput level g ↔
      (level = job.compaction.level ∧ ∃ f ∈ job.compaction.inputs0, f.number = g.number) ∨
        (level = nextLevel job.compaction.level ∧
          ∃ f ∈ job.compaction.inputs1, f.number = g.number) := by
  have hsame : ∀ level' f, job.compaction.IsInput level' f → f.number = g.number →
      level' = level ∧ f = g := fun level' f hf heq =>
    h.unique level' level f g (hjob.stays _ f (hjob.takes.mem_files hf)) hg heq
  constructor
  · rintro (⟨hlevel, hg⟩ | ⟨hlevel, hg⟩)
    · exact .inl ⟨hlevel, g, hg, rfl⟩
    · exact .inr ⟨hlevel, g, hg, rfl⟩
  · rintro (⟨hlevel, f, hf, heq⟩ | ⟨hlevel, f, hf, heq⟩)
    · obtain ⟨-, rfl⟩ := hsame _ f (.inl ⟨rfl, hf⟩) heq
      exact .inl ⟨hlevel, hf⟩
    · obtain ⟨-, rfl⟩ := hsame _ f (.inr ⟨rfl, hf⟩) heq
      exact .inr ⟨hlevel, hf⟩

/-- How the results of a job change the version. -/
theorem Job.Written.edited (hwritten : job.Written ucmp db st)
    (h : db.current.Ranged ucmp db.tables db.nextFileNumber) (hjob : job.Ranged ucmp db) :
    Edited ucmp db.tables (db.install ucmp st).tables db.current (db.install ucmp st).current
      db.nextFileNumber (fun level g => ¬ job.compaction.IsInput level g)
      (nextLevel job.compaction.level) st.outputFiles := by
  obtain ⟨hlevel, hinputs0, hinputs1, hedit⟩ := hwritten.results.sameInputs
  obtain ⟨hnewFiles, hdeletedFiles⟩ := @installEdit_spec st
  rw [hlevel, hedit, hjob.takes.noNew, List.nil_append] at hnewFiles
  have hnew : ∀ level g, (level, g) ∈ st.installEdit.newFiles ↔
      level = nextLevel job.compaction.level ∧ g ∈ st.outputFiles := by
    intro level g
    rw [hnewFiles, List.mem_map]
    constructor
    · rintro ⟨f, hf, heq⟩
      obtain ⟨rfl, rfl⟩ := Prod.mk.inj heq
      exact ⟨rfl, hf⟩
    · rintro ⟨rfl, hg⟩
      exact ⟨g, hg, rfl⟩
  have hdeleted : ∀ level, ∀ g ∈ db.current.files level,
      ((level, g.number) ∈ st.installEdit.deletedFiles.toList ↔
        job.compaction.IsInput level g) := by
    intro level g hg
    rw [hdeletedFiles, mem_deletedFiles_addInputDeletions (hedit ▸ hjob.takes.noDeleted), hlevel,
      hinputs0, hinputs1]
    exact (hjob.isInput_iff h hg).symm
  have hdistinct : ∀ level f g, (level, f) ∈ st.installEdit.newFiles →
      (level, g) ∈ st.installEdit.newFiles → f.number = g.number → f = g := fun level f g hf hg =>
    hwritten.eq_of_number hjob ((hnew level f).mp hf).2 ((hnew level g).mp hg).2
  have hother : ∀ f ∈ st.outputFiles, ∀ level, ∀ g ∈ db.current.files level,
      g.number ≠ f.number := fun f hf level g hg =>
    (hjob.numbers _ (hwritten.number_mem hf)).2 level g hg
  have hfresh : ∀ level f, (level, f) ∈ st.installEdit.newFiles → ∀ g ∈ db.current.files level,
      g.number ≠ f.number := fun level f hf g hg => hother f ((hnew level f).mp hf).2 level g hg
  refine ⟨fun level f => ?_, fun level => increasing_logAndApply h.ordered hdistinct hfresh,
    fun level f hf _ => hwritten.tables_kept hjob hf, fun f hf => hwritten.tableOf hjob hf,
    fun f hf => (hjob.numbers _ (hwritten.number_mem hf)).1,
    fun f hf level g hg _ => hother f hf level g hg,
    fun f hf g hg => hwritten.eq_of_number hjob hf hg⟩
  rw [Database.install, mem_logAndApply hdistinct hfresh, hnew]
  exact or_congr_left (and_congr_right fun hf => not_congr (hdeleted level f hf))

/-- The outputs are older than what is above them, and newer than what is below. -/
theorem Job.Written.ages (hwritten : job.Written ucmp db st)
    (h : db.current.Ranged ucmp db.tables db.nextFileNumber) (hjob : job.Ranged ucmp db)
    (haged : job.Aged ucmp db) :
    Ages ucmp db.tables (db.install ucmp st).tables db.current (db.install ucmp st).current
      db.nextFileNumber (fun level g => ¬ job.compaction.IsInput level g)
      (nextLevel job.compaction.level) st.outputFiles := by
  refine ⟨hwritten.edited h hjob, fun hzero => ?_, fun level hlt g hg hkept f hf => ?_,
    fun level hlt g hg hkept f hf => ?_⟩
  · exact absurd hzero (nextLevel_ne_zero hjob.takes.level)
  · rw [Fin.lt_def, nextLevel_val hjob.takes.level] at hlt
    have hle := Fin.le_def.mpr (Nat.le_of_lt_succ hlt)
    rw [hwritten.tables_kept hjob hg]
    exact hwritten.newerThan hjob
      (fun level' f hf => haged.newer_above hjob hg hkept hle hf) hf
  · rw [hwritten.tables_kept hjob hg]
    exact hwritten.newerThan_of hjob (fun level' f hf => haged.newer_below hjob h hg hlt hf) hf

/-- An output is in front of a file that is behind all inputs, and behind one that is in front. -/
theorem Job.Written.sides (hwritten : job.Written ucmp db st) (hjob : job.Ranged ucmp db)
    (hf : f ∈ st.outputFiles)
    (h : (∀ f ∈ job.compaction.inputs0 ++ job.compaction.inputs1,
        f.range.Before ucmp.internalCompare g.range) ∨
      ∀ f ∈ job.compaction.inputs0 ++ job.compaction.inputs1,
        g.range.Before ucmp.internalCompare f.range) :
    ¬ f.range.Meets ucmp.internalCompare g.range := by
  have htable := hwritten.tableOf hjob hf
  rintro ⟨hbefore, hbehind⟩
  rcases h with h | h
  · obtain ⟨e, he, hlargest⟩ := htable.exists_largest
    obtain ⟨level, g', hg', he⟩ := hwritten.exists_input hjob hf he
    have hinput := hjob.base.tableOf level g' (hjob.takes.mem_files hg')
    have hlt := lt_of_not_gt_of_lt (hinput.le_largest he) (h g' hg'.mem)
    rw [hlargest] at hlt
    exact hbefore hlt
  · obtain ⟨e, he, hsmallest⟩ := Option.map_eq_some_iff.mp htable.smallest
    obtain ⟨level, g', hg', he⟩ := hwritten.exists_input hjob hf (List.mem_of_head? he)
    have hinput := hjob.base.tableOf level g' (hjob.takes.mem_files hg')
    have hlt := lt_of_lt_of_not_gt (h g' hg'.mem) (hinput.smallest_le he)
    rw [hsmallest] at hlt
    exact hbehind hlt

/-- The outputs are in order, and so are their entries. -/
theorem Job.Written.pairwise (hwritten : job.Written ucmp db st) (hjob : job.Ranged ucmp db) :
    (st.outputFiles.Pairwise fun f g => f.range.Before ucmp.internalCompare g.range) ∧
      st.outputs.Pairwise fun p q => ∀ a ∈ p.2, ∀ b ∈ q.2, compareKeys ucmp a b = .lt := by
  have hincreasing := (hjob.takes.internalStream hjob.base).increasing.sublist hwritten.sublist
  exact ⟨List.pairwise_map.mpr (outputs_apart hwritten.results.describes hincreasing),
    (List.pairwise_flatMap.mp hincreasing).2⟩

/-- How the results of a job rearrange the version. -/
theorem Job.Written.rearranges (hwritten : job.Written ucmp db st)
    (h : db.current.Ranged ucmp db.tables db.nextFileNumber) (hjob : job.Ranged ucmp db) :
    Rearranges ucmp db.tables (db.install ucmp st).tables db.current (db.install ucmp st).current
      db.nextFileNumber (fun level g => ¬ job.compaction.IsInput level g)
      (nextLevel job.compaction.level) st.outputFiles := by
  obtain ⟨hfiles, hentries⟩ := hwritten.pairwise hjob
  refine ⟨hwritten.edited h hjob, fun _ f hf => ⟨fun g hg hne => ?_, fun g hg hkept => ?_⟩,
    fun f hf g hg hne a ha b hb => ?_, fun f hf level g hg hkept a ha b hb => ?_⟩
  · exact not_meets_of_pairwise hfiles hf hg hne
  · by_cases hold : g ∈ job.compaction.inputVersion.files (nextLevel job.compaction.level)
    · exact hwritten.sides hjob hf
        (hjob.takes.sides hjob.base hold fun hinput => hkept (.inr ⟨rfl, hinput⟩))
    · intro hmeets
      obtain ⟨hfirst, hlast⟩ := hwritten.within hjob hf
      exact hjob.beside g hg hold ((meets_userRange hmeets).widen hfirst hlast)
  · -- the entries of one output are all in front of those of the other
    obtain ⟨p, hp, rfl⟩ := List.mem_map.mp hf
    obtain ⟨q, hq, rfl⟩ := List.mem_map.mp hg
    rw [hwritten.stored hjob p hp] at ha
    rw [hwritten.stored hjob q hq] at hb
    have hsymm : Std.Symm fun p q : Output × List TableEntry =>
        ∀ a ∈ p.2, ∀ b ∈ q.2, compareKeys ucmp a b ≠ .eq :=
      ⟨fun p q hne b hb a ha heq => hne a ha b hb (Std.OrientedCmp.eq_symm heq)⟩
    have hapart := hentries.imp (S := fun p q : Output × List TableEntry =>
      ∀ a ∈ p.2, ∀ b ∈ q.2, compareKeys ucmp a b ≠ .eq) fun hlt a ha b hb => by
        rw [hlt a ha b hb]
        exact Ordering.noConfusion
    exact hapart.forall hp hq (fun heq => hne (heq ▸ rfl)) a ha b hb
  · obtain ⟨level', g', hg', ha⟩ := hwritten.exists_input hjob hf ha
    rw [hwritten.tables_kept hjob hg] at hb
    have hmem := hjob.stays level' g' (hjob.takes.mem_files hg')
    refine h.disjoint level' level g' g hmem hg (fun heq => hkept ?_) a ha b hb
    subst heq
    rwa [← (h.unique level' level g' g' hmem hg rfl).1]

/-- Outputs that cut no user key have none of others of their level. -/
theorem Job.Done.apart (hdone : job.Done ucmp db st)
    (h : db.current.Ranged ucmp db.tables db.nextFileNumber) (hjob : job.Ranged ucmp db)
    (hapart : db.current.Apart ucmp) (hbase : job.compaction.inputVersion.Apart ucmp) :
    (db.install ucmp st).current.Apart ucmp := by
  have hc := hdone.rearranges h hjob
  refine hapart.change hc.toEdited (h.change le_rfl hc) fun _ f hf =>
    ⟨fun g hg hne => not_meets_of_pairwise hdone.uncut hf hg hne, fun g hg hkept hmeets => ?_⟩
  obtain ⟨hfirst, hlast⟩ := hdone.within hjob hf
  exact hjob.not_meets_hull hbase hg hkept (hmeets.widen hfirst hlast)

/-- The entries of the outputs were in the inputs. -/
theorem Job.Written.takes (hwritten : job.Written ucmp db st) (hjob : job.Ranged ucmp db) :
    db.Takes (db.install ucmp st) st.outputFiles := by
  refine ⟨rfl, fun _ himm => himm, fun f hf e he => ?_⟩
  obtain ⟨level, g, hg, he⟩ := hwritten.exists_input hjob hf he
  exact .inr ⟨level, g, hjob.stays level g (hjob.takes.mem_files hg), he⟩

end Edit

end WiscKey
