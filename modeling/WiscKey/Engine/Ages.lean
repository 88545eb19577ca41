import WiscKey.Engine.Ranges

/-!
# Ages of the levels

A level stays newer than those below it, as long as flushes are clear of the job and no compaction
leaves out a file that goes on with the user key that an input ends with. Where one does, the newer
versions of this key come below the older ones, and a read ends at an older one.
-/

namespace WiscKey

open Version

variable {ucmp : Comparator} {maxFileSize fileSize n : Nat} {db db' : Database} {job : Job} {op : Op}
  {c : Compaction} {st : CompactionState} {f g : TableFile} {imm : List TableEntry}
  {tables : Tables} {v : Version Bytes} {actions : List DbAction} {action : DbAction}
  {holds holds' : TableEntry → Prop}

/-- No file that is left out in the level goes on with the user key that an input ends with. -/
def Compaction.Whole (ucmp : Comparator) (v : Version Bytes) (c : Compaction) : Prop :=
  c.level ≠ 0 → ∀ f ∈ c.inputs0, ∀ g ∈ v.files c.level, g ∉ c.inputs0 →
    f.range.Before ucmp.internalCompare g.range →
      ucmp.compare f.userRange.last g.userRange.first ≠ .eq

instance (v : Version Bytes) (c : Compaction) : Decidable (c.Whole ucmp v) :=
  inferInstanceAs (Decidable (c.level ≠ 0 → ∀ f ∈ c.inputs0, ∀ g ∈ v.files c.level,
    g ∉ c.inputs0 → f.range.Before ucmp.internalCompare g.range →
      ucmp.compare f.userRange.last g.userRange.first ≠ .eq))

/-- The steps that keep the levels in the order of their ages. -/
def Database.Whole (ucmp : Comparator) (maxFileSize : Nat) (db : Database) : DbAction → Prop
  | .compactMemTable fileSize => db.Clear ucmp maxFileSize (.compactMemTable fileSize)
  | .moveFile compactPointer t | .pickCompaction compactPointer t =>
    ∀ c ∈ db.current.pickCompaction ucmp maxFileSize compactPointer t, c.Whole ucmp db.current
  | .compactRange level first last =>
    ∀ c ∈ db.current.compactRange ucmp maxFileSize level first last, c.Whole ucmp db.current
  | _ => True

theorem Database.Whole.clear (h : db.Whole ucmp maxFileSize action) :
    db.Clear ucmp maxFileSize action := by
  cases action with
  | compactMemTable fileSize => exact h
  | _ => trivial

/-- Entries of one sequence number are the same entry. -/
def Numbered (holds : TableEntry → Prop) : Prop :=
  ∀ e e', holds e → holds e' → ∀ ikey ikey', parseInternalKey e.key = some ikey →
    parseInternalKey e'.key = some ikey' → ikey.sequence = ikey'.sequence → e = e'

theorem Numbered.mono (h : Numbered holds) (hsub : ∀ e, holds' e → holds e) : Numbered holds' :=
  fun e e' he he' => h e e' (hsub e he) (hsub e' he')

/-- What holds of a database whose levels are in the order of their ages. -/
structure Database.Aged (ucmp : Comparator) (db : Database) : Prop where
  numbered : Numbered db.readState.Holds
  version : db.current.Aged ucmp db.tables
  job : ∀ job ∈ db.job, job.Aged ucmp db

section Left

/-- Of two versions of a user key the first in order is the newer one. -/
theorem sequence_lt_of_internal_lt {e e' : TableEntry} {ikey ikey' : ParsedInternalKey}
    (hlt : ucmp.internalCompare e.key e'.key = .lt) (hparse : parseInternalKey e.key = some ikey)
    (hparse' : parseInternalKey e'.key = some ikey')
    (huser : ucmp.compare ikey.userKey ikey'.userKey = .eq)
    (hne : ikey.sequence ≠ ikey'.sequence) : ikey'.sequence < ikey.sequence := by
  obtain ⟨hkey, htag⟩ := parseInternalKey_spec hparse
  obtain ⟨hkey', htag'⟩ := parseInternalKey_spec hparse'
  rw [hkey, hkey'] at huser
  rw [Comparator.internalCompare, huser, Ordering.eq_then, Nat.compare_eq_lt, htag, htag'] at hlt
  have hcode : ikey.type.code ≤ 1 := by cases ikey.type <;> decide
  have hcode' : ikey'.type.code ≤ 1 := by cases ikey'.type <;> decide
  omega

/-- What a compaction leaves in its level is newer than its inputs there. -/
theorem Compaction.Whole.newerThan (hwhole : c.Whole ucmp v) (hranged : v.Ranged ucmp tables n)
    (htakes : c.TakesFrom ucmp v) (hnumbered : Numbered holds)
    (hholds : ∀ level, ∀ f ∈ v.files level, ∀ e ∈ (tables f.number).2, holds e)
    (hg : g ∈ v.files c.level) (hnot : g ∉ c.inputs0) (hf : f ∈ c.inputs0) :
    NewerThan ucmp (tables g.number).2 (tables f.number).2 := by
  have hmem := htakes.selected.sublist.subset hf
  have htable := hranged.tableOf c.level f hmem
  have htable' := hranged.tableOf c.level g hg
  have hne : g ≠ f := fun heq => hnot (heq ▸ hf)
  by_cases hzero : c.level = 0
  · exact newerThan_of_not_meets htable' htable (htakes.closed hzero g (hzero ▸ hg) hnot f hf)
  by_cases hbefore : g.range.Before ucmp.internalCompare f.range
  · -- the file in front has the newer versions
    intro e he e' he' ikey ikey' hparse hparse' huser
    have hlt := htable'.lt_of_before htable hbefore he he'
    refine sequence_lt_of_internal_lt hlt hparse hparse' huser fun hsequence => ?_
    have hsame := hnumbered e e' (hholds _ g hg e he) (hholds _ f hmem e' he') ikey ikey' hparse
      hparse' hsequence
    have hself : ucmp.internalCompare e'.key e'.key = .eq := Std.ReflCmp.compare_self
    rw [hsame, hself] at hlt
    cases hlt
  · -- the file behind begins with another user key
    have hbehind : f.range.Before ucmp.internalCompare g.range := by
      by_contra hnot'
      exact hranged.not_meets hzero hg hmem hne ⟨hbefore, hnot'⟩
    have hlt := lt_of_not_gt_of_ne (user_not_gt_of_before hbehind)
      (hwhole hzero f hf g hg hnot hbehind)
    exact newerThan_of_not_meets htable' htable fun hmeets => hmeets.2 hlt

end Left

section Steps

/-- The ages of what a job knows stay when a memtable is flushed that is clear of it. -/
theorem Job.Aged.flush {first last : TableEntry} (haged : job.Aged ucmp db) (h : db.Ranged ucmp)
    (himm : db.imm = some imm) (hfirst : imm.head? = some first) (hlast : imm.getLast? = some last)
    (hjob : job.Ranged ucmp db)
    (hclear : job.ClearOf ucmp maxFileSize db.current imm) :
    job.Aged ucmp (db.flushTo ucmp (flushLevel ucmp maxFileSize db.current first last)
      (flushedFile db.nextFileNumber fileSize first last) imm) := by
  have hlater := @Job.Ranged.later_flush _ _ fileSize _ _ _ _ _ h.version (h.imm imm himm) hfirst
    hlast (h.immTable imm himm) hjob hclear haged.later
  have hsame : ∀ level, ∀ f ∈ job.compaction.inputVersion.files level,
      (db.flushTo ucmp (flushLevel ucmp maxFileSize db.current first last)
        (flushedFile db.nextFileNumber fileSize first last) imm).tables f.number =
          db.tables f.number :=
    fun level f hf => Database.tables_flushTo (hjob.base.below level f hf)
  refine ⟨⟨fun f hf g hg => ?_, fun level level' hlt f hf g hg => ?_⟩, hlater,
    fun g hg hnot f hf => ?_⟩
  · rw [hsame 0 f hf, hsame 0 g hg]
    exact haged.base.levelZero f hf g hg
  · rw [hsame level f hf, hsame level' g hg]
    exact haged.base.deeper level level' hlt f hf g hg
  · rw [hsame _ f (hjob.takes.selected.sublist.subset hf), hsame _ g hg]
    exact haged.left g hg hnot f hf

namespace Database.Aged

theorem new : Database.new.Aged ucmp := by
  have hnone : ∀ level, ∀ f ∈ Database.new.current.files level, False := fun level f hf => by
    cases hf
  refine ⟨?_, ⟨fun f hf => (hnone 0 f hf).elim, fun level _ _ f hf => (hnone level f hf).elim⟩,
    fun job hjob => (by cases hjob)⟩
  rintro e e' (he | ⟨imm, himm, -⟩ | ⟨level, f, hf, -⟩)
  · cases he
  · cases himm
  · exact (hnone level f hf).elim

/-- A step that changes neither the memtables nor the version. -/
theorem frame (h : db.Aged ucmp) (hmem : db'.mem = db.mem) (himm : db'.imm = db.imm)
    (hcurrent : db'.current = db.current) (htables : db'.tables = db.tables)
    (hjob : ∀ job ∈ db'.job, job.Aged ucmp db') : db'.Aged ucmp := by
  refine ⟨h.numbered.mono fun e he => ?_, ?_, hjob⟩
  · rwa [ReadState.Holds, readState, hmem, himm, hcurrent, htables] at he
  · rw [hcurrent, htables]
    exact h.version

theorem frame_job (h : db.Aged ucmp) (hmem : db'.mem = db.mem) (himm : db'.imm = db.imm)
    (hcurrent : db'.current = db.current) (htables : db'.tables = db.tables)
    (hjob : db'.job = db.job) : db'.Aged ucmp :=
  h.frame hmem himm hcurrent htables
    fun job hmem => (h.job job (hjob ▸ hmem)).congr hcurrent htables

theorem insert (h : db.Aged ucmp) (hranged : db.Ranged ucmp)
    (hfits : (op.entry (db.inserted + 1)).Fits) : (db.insert ucmp op).Aged ucmp := by
  have hholds : ∀ e, (db.insert ucmp op).readState.Holds e →
      e = (op.entry (db.inserted + 1)).entry ∨ db.readState.Holds e := by
    rintro e (he | he)
    · exact (mem_of_mem_insertOrdered he).imp_right .inl
    · exact .inr (.inr he)
  have hparse := Op.parse_entry hfits
  refine ⟨fun e e' he he' ikey ikey' hikey hikey' heq => ?_, h.version,
    fun job hjob => (h.job job hjob).congr rfl rfl⟩
  -- the new number is larger than all others
  rcases hholds e he with rfl | he
  · rcases hholds e' he' with rfl | he'
    · rfl
    · have hle := hranged.reached e' he' ikey' hikey'
      rw [hparse] at hikey
      obtain rfl := Option.some.inj hikey
      exact absurd hle (Nat.not_le.mpr (heq ▸ Nat.lt_succ_self _))
  · rcases hholds e' he' with rfl | he'
    · have hle := hranged.reached e he ikey hikey
      rw [hparse] at hikey'
      obtain rfl := Option.some.inj hikey'
      exact absurd hle (Nat.not_le.mpr (heq ▸ Nat.lt_succ_self _))
    · exact h.numbered e e' he he' ikey ikey' hikey hikey' heq

theorem switchMemTable (h : db.Aged ucmp) : db.switchMemTable.Aged ucmp := by
  refine ⟨h.numbered.mono fun e he => ?_, h.version, fun job hjob => (h.job job hjob).congr rfl rfl⟩
  rcases he with he | ⟨imm, himm, he⟩ | he
  · cases he
  · obtain rfl := Option.some.inj himm
    exact .inl he
  · exact .inr (.inr he)

theorem openOutput (h : db.Aged ucmp) (hjob : db.job = some job) :
    (db.openOutput job).Aged ucmp := by
  refine h.frame rfl rfl rfl rfl fun job' hjob' => ?_
  obtain rfl := Option.some.inj hjob'
  obtain ⟨base, later, left⟩ := h.job job hjob
  exact ⟨base, later, left⟩

theorem beginCompaction (h : db.Aged ucmp) (hranged : db.Ranged ucmp)
    (htakes : c.TakesFrom ucmp db.current) (hwhole : c.Whole ucmp db.current) :
    (db.beginCompaction c).Aged ucmp := by
  refine h.frame rfl rfl rfl rfl fun job hjob => ?_
  obtain rfl := Option.some.inj hjob
  have hversion := htakes.version
  refine ⟨?_, fun level g hg hnot => ?_, fun g hg hnot f hf => ?_⟩
  · rw [hversion]
    exact h.version
  · rw [hversion] at hnot
    exact absurd hg hnot
  · rw [hversion] at hg
    exact hwhole.newerThan hranged.version htakes h.numbered
      (fun level f hf e he => .inr (.inr ⟨level, f, hf, he⟩)) hg hnot hf

/-- A version that is edited. -/
theorem edit {kept : Level → TableFile → Prop} {target : Level} {outs : List TableFile}
    (h : db.Aged ucmp) (htakes : db.Takes db' outs)
    (ha : Ages ucmp db.tables db'.tables db.current db'.current db'.nextFileNumber kept target outs)
    (hjob : ∀ job ∈ db'.job, job.Aged ucmp db') : db'.Aged ucmp :=
  ⟨h.numbered.mono fun _ he => htakes.holds ha.toEdited he, h.version.change ha, hjob⟩

theorem compactMemTable (h : db.Aged ucmp) (hranged : db.Ranged ucmp) (himm : db.imm = some imm)
    (hclear : ∀ job ∈ db.job, job.ClearOf ucmp maxFileSize db.current imm) :
    (db.compactMemTable ucmp maxFileSize fileSize imm).Aged ucmp := by
  have hstream := hranged.imm imm himm
  have hnewer := hranged.immTable imm himm
  cases hfirst : imm.head? with
  | none =>
    rw [Database.compactMemTable, hfirst]
    exact h.edit (Database.takes_nil rfl fun imm himm => (by cases himm))
      (.refl (hranged.version.mono (Nat.le_succ _) fun _ _ => rfl))
      fun job hjob => (h.job job hjob).congr rfl rfl
  | some first =>
    have hne : imm ≠ [] := List.ne_nil_of_mem (List.mem_of_head? hfirst)
    have hlast := List.getLast?_eq_some_getLast hne
    rw [Database.compactMemTable_eq hfirst hlast]
    exact h.edit (takes_flushTo himm rfl) (hranged.version.ages_flush maxFileSize fileSize hstream
      hfirst hlast hnewer) fun job hjob => (h.job job hjob).flush hranged himm hfirst hlast
        (hranged.job job hjob) (hclear job hjob)

theorem moveFile (h : db.Aged ucmp) (hranged : db.Ranged ucmp) (hidle : db.job = none)
    (htakes : c.TakesFrom ucmp db.current) (hfile : c.inputs0 = [f])
    (hwhole : c.Whole ucmp db.current) : (db.moveFile ucmp c f).Aged ucmp := by
  have hf : f ∈ c.inputs0 := hfile ▸ List.mem_singleton_self f
  refine h.edit (takes_moveFile (htakes.selected.sublist.subset hf))
    (hranged.version.ages_move h.version htakes hfile fun g hg hnot => ?_)
    fun job hjob => absurd (hidle.symm.trans hjob) (by simp)
  exact hwhole.newerThan hranged.version htakes h.numbered
    (fun level f hf e he => .inr (.inr ⟨level, f, hf, he⟩)) hg hnot hf

theorem install (h : db.Aged ucmp) (hranged : db.Ranged ucmp) (hjob : db.job = some job)
    (hwritten : job.Written ucmp db st) : (db.install ucmp st).Aged ucmp := by
  have hjobRanged := hranged.job job hjob
  exact h.edit (hwritten.takes hjobRanged)
    (hwritten.ages hranged.version hjobRanged (h.job job hjob)) fun job hjob => (by cases hjob)

/-- Every step keeps the ages whose flushes are clear of the job and whose compactions are whole. -/
theorem step (h : db.Aged ucmp) (hranged : db.Ranged ucmp)
    (hstep : Database.Step ucmp maxFileSize db action db')
    (hwhole : db.Whole ucmp maxFileSize action) : db'.Aged ucmp := by
  cases hstep with
  | insert op hfits hmax => exact h.insert hranged hfits
  | publish => exact h.frame_job rfl rfl rfl rfl rfl
  | switchMemTable himm hall hnumber => exact h.switchMemTable
  | getSnapshot => exact h.frame_job rfl rfl rfl rfl rfl
  | releaseSnapshot number hmem => exact h.frame_job rfl rfl rfl rfl rfl
  | newFileNumber hnumber => exact h.frame_job rfl rfl rfl rfl rfl
  | compactMemTable himm fileSize hsize hnumber =>
    exact h.compactMemTable hranged himm (hwhole _ himm)
  | moveFile hidle himm compactPointer t htrigger hpick hmove hfile =>
    exact h.moveFile hranged hidle (hranged.takesFrom htrigger hpick) hfile (hwhole _ hpick)
  | pickCompaction hidle himm compactPointer t htrigger hpick hmove =>
    exact h.beginCompaction hranged (hranged.takesFrom htrigger hpick) (hwhole _ hpick)
  | compactRange hidle himm level first last hlevel hrange =>
    exact h.beginCompaction hranged (takesFrom_compactRange hlevel hrange) (hwhole _ hrange)
  | openOutput hjob hnumber => exact h.openOutput hjob
  | install hjob env hinput hinstall hnumbers =>
    exact h.install hranged hjob (hranged.written hjob hinput hinstall hnumbers).2
  | abandon hjob => exact h.frame rfl rfl rfl rfl fun job hjob => (by cases hjob)

/-- So do all runs of such steps. -/
theorem run (hrun : Run (StepWhen (Database.Step ucmp maxFileSize)
    (Database.Whole ucmp maxFileSize)) .new actions db) : db.Ranged ucmp ∧ db.Aged ucmp :=
  hrun.invariant (fun db => db.Ranged ucmp ∧ db.Aged ucmp) ⟨.new, .new⟩
    fun _ _ _ h hstep => ⟨h.1.step hstep.2 hstep.1.clear, h.2.step h.1 hstep.2 hstep.1⟩

end Database.Aged

end Steps

section Levels

/-- In every run whose flushes are clear of the job and whose compactions are whole, a level is newer
than those below it, and a read of the version ends at the newest entry that the snapshot sees. -/
theorem Database.layered_of_whole (hrun : Run (StepWhen (Database.Step ucmp maxFileSize)
    (Database.Whole ucmp maxFileSize)) .new actions db) :
    db.current.Layered ucmp db.tables ∧ ∀ snapshot ≤ kMaxSequenceNumber, ∀ userKey, ∃ newest,
      Highest (fun e => internalTag e.key)
        {e | ∃ level, e ∈ seenAt ucmp db.tables db.current userKey snapshot level} newest ∧
      ((db.current.get ucmp db.tables userKey snapshot).status,
        (db.current.get ucmp db.tables userKey snapshot).value) = answer newest := by
  obtain ⟨hranged, haged⟩ := Database.Aged.run hrun
  have hlayered : db.current.Layered ucmp db.tables :=
    ⟨hranged.version.tableOf, haged.version.levelZero, hranged.version.apart, haged.version.deeper⟩
  exact ⟨hlayered, fun snapshot hsnapshot userKey => hlayered.get_highest hsnapshot userKey⟩

/-- A value as long as an output. -/
@[irreducible] def largeValue : Bytes := List.replicate (2 ^ 21) 0

/-- The work on two entries where the first one fills an output. -/
def splitWork (first second : TableEntry) : WorkEnv :=
  ⟨[(first, ⟨false, none, goodFinish, 6, .ok, 2 ^ 21, { goodFinish with fileSize := 2 ^ 21 }⟩),
    (second, ⟨false, none, goodFinish, 7, .ok, 4096, goodFinish⟩)], false, goodFinish, .ok, .ok⟩

/-- A key is written again while a snapshot is held, and a compaction puts its versions into two
files. -/
def splitKey : List DbAction :=
  [.insert (.put [1] [10]), .publish, .getSnapshot, .insert (.put [1] largeValue), .publish,
    .switchMemTable, .compactMemTable (2 ^ 21 + 4096), .compactRange 2 none none, .openOutput,
    .openOutput, .install (splitWork ((Op.put [1] largeValue).entry 2).entry
      ((Op.put [1] [10]).entry 1).entry)]

/-- Then the first of these files is compacted, which is as large as the limit. -/
def compactFirst : List DbAction :=
  [.compactRange 3 none none, .openOutput,
    .install (oneOutputWork 8 [((Op.put [1] largeValue).entry 2).entry])]

/-- Or the second one is moved. -/
def moveSecond : List DbAction :=
  [.moveFile (fun _ => []) (.seek 3 ⟨7, 4096, appendInternalKey ⟨[1], 1, .value⟩,
    appendInternalKey ⟨[1], 1, .value⟩⟩)]

theorem run_splitKey : ∃ db, Run (StepWhen (Database.Step bytewiseComparator (2 ^ 21))
    (Database.Whole bytewiseComparator (2 ^ 21))) .new splitKey db ∧
      (∃ db', Run (Database.Step bytewiseComparator (2 ^ 21)) db compactFirst db' ∧
        db'.current.files 3 = [⟨7, 4096, appendInternalKey ⟨[1], 1, .value⟩,
          appendInternalKey ⟨[1], 1, .value⟩⟩] ∧
        db'.current.files 4 = [⟨8, 4096, appendInternalKey ⟨[1], 2, .value⟩,
          appendInternalKey ⟨[1], 2, .value⟩⟩] ∧
        (db'.tables 7).2 = [((Op.put [1] [10]).entry 1).entry] ∧
        (db'.tables 8).2 = [((Op.put [1] largeValue).entry 2).entry] ∧
        (db'.readState.lookup bytewiseComparator none [1]).value = some [10]) ∧
      ∃ db', Run (StepWhen (Database.Step bytewiseComparator (2 ^ 21))
        (Database.Whole bytewiseComparator (2 ^ 21))) db moveSecond db' ∧
          (db'.current.files 3).map FileMetaData.number = [6] ∧
          (db'.current.files 4).map FileMetaData.number = [7] := by
  have hlarge : largeValue.length < 2 ^ 32 := by
    rw [largeValue, List.length_replicate]
    decide
  refine exists_run_cons ⟨trivial, .insert _ ⟨by decide, by decide, by decide⟩ (by decide)⟩ ?_
  refine exists_run_cons ⟨trivial, .publish⟩ ?_
  refine exists_run_cons ⟨trivial, .getSnapshot⟩ ?_
  refine exists_run_cons ⟨trivial, .insert _ ⟨by decide, hlarge, by decide⟩ (by decide)⟩ ?_
  refine exists_run_cons ⟨trivial, .publish⟩ ?_
  refine exists_run_cons ⟨trivial, .switchMemTable rfl rfl (by decide)⟩ ?_
  refine exists_run_cons ⟨fun _ _ job hjob => (by cases hjob),
    .compactMemTable rfl _ (by decide) (by decide)⟩ ?_
  refine exists_run_cons ⟨?_, .compactRange rfl rfl _ _ _ (by decide) rfl⟩ ?_
  · intro c hc
    obtain rfl := Option.some.inj hc
    decide +kernel
  refine exists_run_cons ⟨trivial, .openOutput rfl (by decide)⟩ ?_
  refine exists_run_cons ⟨trivial, .openOutput rfl (by decide)⟩ ?_
  refine exists_run_cons ⟨trivial, .install rfl _ rfl (by decide +kernel) (by decide +kernel)⟩
    ⟨_, .nil _, ?_, ?_⟩
  · refine exists_run_cons (.compactRange rfl rfl _ _ _ (by decide) rfl) ?_
    refine exists_run_cons (.openOutput rfl (by decide)) ?_
    refine exists_run_cons (.install rfl _ rfl (by decide +kernel) (by decide +kernel))
      ⟨_, .nil _, by decide +kernel, by decide +kernel, rfl, rfl, ?_⟩
    rfl
  · refine exists_run_cons ⟨?_, .moveFile rfl rfl _ _ (by decide +kernel) rfl (by decide +kernel)
      rfl⟩ ⟨_, .nil _, by decide +kernel, by decide +kernel⟩
    intro c hc
    obtain rfl := Option.some.inj hc
    decide +kernel

/-- The version of a level can be older than one below it. -/
theorem Database.compactFirst_agesReversed : ¬ ∀ (ucmp : Comparator) (maxFileSize : Nat)
    (actions : List DbAction) (db : Database),
    Run (Database.Step ucmp maxFileSize) .new actions db →
      ∀ level level', level < level' → ∀ f ∈ db.current.files level, ∀ g ∈ db.current.files level',
        NewerThan ucmp (db.tables f.number).2 (db.tables g.number).2 := by
  intro h
  obtain ⟨db, hrun, ⟨db', hrest, hfiles, hfiles', htable, htable', -⟩, -⟩ := run_splitKey
  have hall := (hrun.mono fun _ _ _ hstep => hstep.2).append hrest
  have hnewer := h _ _ _ db' hall 3 4 (by decide) ⟨7, 4096, appendInternalKey ⟨[1], 1, .value⟩,
    appendInternalKey ⟨[1], 1, .value⟩⟩ (hfiles ▸ List.mem_singleton_self _)
      ⟨8, 4096, appendInternalKey ⟨[1], 2, .value⟩, appendInternalKey ⟨[1], 2, .value⟩⟩
      (hfiles' ▸ List.mem_singleton_self _)
  rw [htable, htable'] at hnewer
  have hlt := hnewer _ (List.mem_singleton_self _) _ (List.mem_singleton_self _) ⟨[1], 1, .value⟩
    ⟨[1], 2, .value⟩ (by decide) (by decide) (by decide)
  exact absurd hlt (by decide)

theorem Database.layered_of_whole_moveSecond : ∃ db : Database,
    (db.current.files 3).map FileMetaData.number = [6] ∧
      (db.current.files 4).map FileMetaData.number = [7] ∧
    db.current.Layered bytewiseComparator db.tables ∧
    ∀ snapshot ≤ kMaxSequenceNumber, ∀ userKey, ∃ newest,
      Highest (fun e => internalTag e.key) {e | ∃ level,
        e ∈ seenAt bytewiseComparator db.tables db.current userKey snapshot level} newest ∧
      ((db.current.get bytewiseComparator db.tables userKey snapshot).status,
        (db.current.get bytewiseComparator db.tables userKey snapshot).value) = answer newest := by
  obtain ⟨db, hrun, -, db', hrest, hfiles, hfiles'⟩ := run_splitKey
  exact ⟨db', hfiles, hfiles', Database.layered_of_whole (hrun.append hrest)⟩

end Levels

end WiscKey
