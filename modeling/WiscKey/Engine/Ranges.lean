import WiscKey.Engine.Install

/-!
# Ranges that stay apart

However compactions are picked and wherever their outputs end, the files of a level above the lowest
have ranges of internal keys that are apart, as long as no flush gets between the inputs of a
compaction at the level of its outputs. A flush that does can be in the range of an output.
-/

namespace WiscKey

open Version

variable {ucmp : Comparator} {maxFileSize fileSize : Nat} {db db' : Database} {job : Job} {op : Op}
  {c : Compaction} {st : CompactionState} {level : Level} {f g : TableFile}
  {imm : List TableEntry} {actions : List DbAction} {action : DbAction}

/-- What holds of a database however old the levels of its version are. -/
structure Database.Ranged (ucmp : Comparator) (db : Database) : Prop where
  mem : InternalStream ucmp db.mem
  imm : ∀ imm ∈ db.imm, InternalStream ucmp imm
  memImm : ∀ imm ∈ db.imm, NewerThan ucmp db.mem imm
  memTable : ∀ level, ∀ f ∈ db.current.files level, NewerThan ucmp db.mem (db.tables f.number).2
  immTable : ∀ imm ∈ db.imm, ∀ level, ∀ f ∈ db.current.files level,
    NewerThan ucmp imm (db.tables f.number).2
  reached : ∀ e, db.readState.Holds e → ∀ ikey, parseInternalKey e.key = some ikey →
    ikey.sequence ≤ db.inserted
  version : db.current.Ranged ucmp db.tables db.nextFileNumber
  job : ∀ job ∈ db.job, job.Ranged ucmp db

/-- The flushes that keep the ranges of a version apart. -/
def Database.Clear (ucmp : Comparator) (maxFileSize : Nat) (db : Database) : DbAction → Prop
  | .compactMemTable _ => ∀ imm ∈ db.imm, ∀ job ∈ db.job,
      job.ClearOf ucmp maxFileSize db.current imm
  | _ => True

section Steps

/-- With the entry of a new update, entries in order are in order. -/
theorem InternalStream.insert {entries : List TableEntry} (h : InternalStream ucmp entries)
    {sequence : Nat} (hfits : (op.entry sequence).Fits) :
    InternalStream ucmp (insertOrdered (compareKeys ucmp) (op.entry sequence).entry entries) := by
  have hincreasing : Increasing (compareKeys ucmp) entries := h.increasing
  have hinserted : Increasing (compareKeys ucmp)
    (insertOrdered (compareKeys ucmp) (op.entry sequence).entry entries) :=
      increasing_insertOrdered hincreasing
  refine ⟨hinserted, fun e he => ?_⟩
  rcases mem_of_mem_insertOrdered he with rfl | he
  · rw [Op.parse_entry hfits]
    rfl
  · exact h.parsed e he

/-- The entry of a new update is newer than others. -/
theorem Version.NewerThan.insert {mem entries : List TableEntry} (h : NewerThan ucmp mem entries)
    {last : Nat} (hfits : (op.entry (last + 1)).Fits)
    (hreached : ∀ e ∈ entries, ∀ ikey, parseInternalKey e.key = some ikey → ikey.sequence ≤ last) :
    NewerThan ucmp (insertOrdered (compareKeys ucmp) (op.entry (last + 1)).entry mem) entries := by
  intro e he e' he' ikey ikey' hparse hparse' heq
  rcases mem_of_mem_insertOrdered he with rfl | he
  · rw [Op.parse_entry hfits] at hparse
    obtain rfl := Option.some.inj hparse
    exact Nat.lt_succ_of_le (hreached e' he' ikey' hparse')
  · exact h e he e' he' ikey ikey' hparse hparse' heq

namespace Database.Ranged

theorem new : Database.new.Ranged ucmp := by
  have hnone : ∀ level, ∀ f ∈ Database.new.current.files level, False := fun level f hf => by
    cases hf
  refine ⟨⟨List.Pairwise.nil, fun e he => (by cases he)⟩, fun imm himm => (by cases himm),
    fun imm himm => (by cases himm), fun level f hf => (hnone level f hf).elim,
    fun imm himm => (by cases himm), ?_, ?_, fun job hjob => (by cases hjob)⟩
  · rintro e (he | ⟨imm, himm, -⟩ | ⟨level, f, hf, -⟩)
    · cases he
    · cases himm
    · exact (hnone level f hf).elim
  · exact ⟨fun level f hf => (hnone level f hf).elim, fun _ _ => List.Pairwise.nil,
      fun _ => List.Pairwise.nil, fun level f hf => (hnone level f hf).elim,
      fun level _ f _ hf => (hnone level f hf).elim, fun level _ f _ hf => (hnone level f hf).elim⟩

/-- A step that changes neither the memtables nor the version. -/
theorem frame (h : db.Ranged ucmp) (hmem : db'.mem = db.mem) (himm : db'.imm = db.imm)
    (hcurrent : db'.current = db.current) (htables : db'.tables = db.tables)
    (hnext : db.nextFileNumber ≤ db'.nextFileNumber) (hinserted : db'.inserted = db.inserted)
    (hjob : ∀ job ∈ db'.job, job.Ranged ucmp db') : db'.Ranged ucmp := by
  refine ⟨hmem ▸ h.mem, himm ▸ h.imm, ?_, ?_, ?_, fun e he => ?_, ?_, hjob⟩
  · rw [hmem, himm]
    exact h.memImm
  · rw [hmem, hcurrent, htables]
    exact h.memTable
  · rw [himm, hcurrent, htables]
    exact h.immTable
  · rw [hinserted]
    refine h.reached e ?_
    rwa [ReadState.Holds, readState, hmem, himm, hcurrent, htables] at he
  · rw [hcurrent, htables]
    exact h.version.mono hnext fun _ _ => rfl

/-- With the same job, it goes on. -/
theorem frame_job (h : db.Ranged ucmp) (hmem : db'.mem = db.mem) (himm : db'.imm = db.imm)
    (hcurrent : db'.current = db.current) (htables : db'.tables = db.tables)
    (hnext : db.nextFileNumber ≤ db'.nextFileNumber) (hinserted : db'.inserted = db.inserted)
    (hjob : db'.job = db.job) : db'.Ranged ucmp :=
  h.frame hmem himm hcurrent htables hnext hinserted
    fun job hmem => (h.job job (hjob ▸ hmem)).congr hcurrent htables hnext

theorem insert (h : db.Ranged ucmp) (hfits : (op.entry (db.inserted + 1)).Fits) :
    (db.insert ucmp op).Ranged ucmp := by
  refine ⟨h.mem.insert hfits, h.imm, fun imm himm => ?_, fun level f hf => ?_, h.immTable,
    fun e he ikey hparse => ?_, h.version,
    fun job hjob => (h.job job hjob).congr rfl rfl le_rfl⟩
  · exact (h.memImm imm himm).insert hfits fun e he => h.reached e (.inr (.inl ⟨imm, himm, he⟩))
  · exact (h.memTable level f hf).insert hfits
      fun e he => h.reached e (.inr (.inr ⟨level, f, hf, he⟩))
  · have hold : db.readState.Holds e → ikey.sequence ≤ db.inserted + 1 := fun he =>
      (h.reached e he ikey hparse).trans (Nat.le_succ _)
    rcases he with he | he
    · rcases mem_of_mem_insertOrdered he with rfl | he
      · rw [Op.parse_entry hfits] at hparse
        obtain rfl := Option.some.inj hparse
        exact le_rfl
      · exact hold (.inl he)
    · exact hold (.inr he)

theorem switchMemTable (h : db.Ranged ucmp) : db.switchMemTable.Ranged ucmp := by
  refine ⟨⟨List.Pairwise.nil, fun e he => (by cases he)⟩, fun imm himm => ?_,
    fun imm _ e he => (by cases he), fun level f _ e he => (by cases he), fun imm himm => ?_,
    fun e he => h.reached e ?_, h.version.mono (Nat.le_succ _) fun _ _ => rfl,
    fun job hjob => (h.job job hjob).congr rfl rfl (Nat.le_succ _)⟩
  · obtain rfl := Option.some.inj himm
    exact h.mem
  · obtain rfl := Option.some.inj himm
    exact h.memTable
  · rcases he with he | ⟨imm, himm, he⟩ | he
    · cases he
    · obtain rfl := Option.some.inj himm
      exact .inl he
    · exact .inr (.inr he)

theorem openOutput (h : db.Ranged ucmp) (hjob : db.job = some job) :
    (db.openOutput job).Ranged ucmp := by
  refine h.frame rfl rfl rfl rfl (Nat.le_succ _) rfl fun job' hjob' => ?_
  obtain rfl := Option.some.inj hjob'
  obtain ⟨takes, base, stays, beside, numbers, nodup⟩ := h.job job hjob
  refine ⟨takes, base.mono (Nat.le_succ _) fun _ _ => rfl, stays, beside, fun number hnumber => ?_,
    ?_⟩
  · rcases List.mem_append.mp hnumber with hnumber | hnumber
    · exact ⟨(numbers number hnumber).1.trans (Nat.lt_succ_self _), (numbers number hnumber).2⟩
    · rw [List.mem_singleton.mp hnumber]
      exact ⟨Nat.lt_succ_self _, fun level f hf => (h.version.below level f hf).ne⟩
  · refine List.nodup_append.mpr ⟨nodup, List.nodup_singleton _, fun a ha b hb => ?_⟩
    rw [List.mem_singleton.mp hb]
    exact (numbers a ha).1.ne

theorem takesFrom (h : db.Ranged ucmp) {compactPointer : Level → Bytes} {t : Version.Trigger}
    (htrigger : db.current.Triggers t)
    (hpick : db.current.pickCompaction ucmp maxFileSize compactPointer t = some c) :
    c.TakesFrom ucmp db.current :=
  (takesFrom_pickCompaction (fun l f hf => (h.version.tableOf l f hf).proper) htrigger hpick).1

theorem beginCompaction (h : db.Ranged ucmp) (htakes : c.TakesFrom ucmp db.current) :
    (db.beginCompaction c).Ranged ucmp := by
  refine h.frame rfl rfl rfl rfl le_rfl rfl fun job hjob => ?_
  obtain rfl := Option.some.inj hjob
  have hversion := htakes.version
  refine ⟨?_, ?_, fun level f hf => ?_, fun g hg hnot => ?_,
    fun number hnumber => (by cases hnumber), List.nodup_nil⟩
  · rw [hversion]
    exact htakes
  · rw [hversion]
    exact h.version
  · rw [hversion] at hf
    exact hf
  · rw [hversion] at hnot
    exact absurd hg hnot

/-- A version that is rearranged. -/
theorem edit {kept : Level → TableFile → Prop} {target : Level} {outs : List TableFile}
    (h : db.Ranged ucmp) (htakes : db.Takes db' outs)
    (hc : Rearranges ucmp db.tables db'.tables db.current db'.current db'.nextFileNumber kept target
      outs) (hnext : db.nextFileNumber ≤ db'.nextFileNumber) (hinserted : db'.inserted = db.inserted)
    (hjob : ∀ job ∈ db'.job, job.Ranged ucmp db') : db'.Ranged ucmp := by
  have hmem := htakes.mem
  refine ⟨hmem ▸ h.mem, fun imm himm => h.imm imm (htakes.imm imm himm),
    fun imm himm => hmem ▸ h.memImm imm (htakes.imm imm himm), fun level f hf => ?_,
    fun imm himm level f hf => ?_, fun e he => ?_, h.version.change hnext hc, hjob⟩
  · rw [hmem]
    exact htakes.newerThan hc.toEdited (fun _ imm himm => h.memImm imm himm) h.memTable level f hf
  · refine htakes.newerThan hc.toEdited (fun hnone => ?_)
      (h.immTable imm (htakes.imm imm himm)) level f hf
    rw [show db'.imm = some imm from himm] at hnone
    cases hnone
  · rw [hinserted]
    exact h.reached e (htakes.holds hc.toEdited he)

theorem compactMemTable (h : db.Ranged ucmp) (himm : db.imm = some imm)
    (hclear : ∀ job ∈ db.job, job.ClearOf ucmp maxFileSize db.current imm) :
    (db.compactMemTable ucmp maxFileSize fileSize imm).Ranged ucmp := by
  have hstream := h.imm imm himm
  cases hfirst : imm.head? with
  | none =>
    -- an empty memtable only goes away
    rw [Database.compactMemTable, hfirst]
    refine h.edit (Database.takes_nil rfl fun imm himm => (by cases himm))
      (.refl (h.version.mono (Nat.le_succ _) fun _ _ => rfl)) (Nat.le_succ _) rfl
      fun job hjob => (h.job job hjob).congr rfl rfl (Nat.le_succ _)
  | some first =>
    have hne : imm ≠ [] := List.ne_nil_of_mem (List.mem_of_head? hfirst)
    have hlast := List.getLast?_eq_some_getLast hne
    rw [Database.compactMemTable_eq hfirst hlast]
    refine h.edit (takes_flushTo himm rfl) (h.version.rearranges_flush maxFileSize fileSize hstream
      hfirst hlast (h.immTable imm himm)) (Nat.le_succ _) rfl fun job hjob => ?_
    exact (h.job job hjob).flush h.version hstream hfirst hlast (hclear job hjob)

theorem moveFile (h : db.Ranged ucmp) (hidle : db.job = none)
    (htakes : c.TakesFrom ucmp db.current) (hmove : c.isTrivialMove maxFileSize = true)
    (hfile : c.inputs0 = [f]) : (db.moveFile ucmp c f).Ranged ucmp := by
  have hf : f ∈ db.current.files c.level := htakes.selected.sublist.subset (by rw [hfile]; simp)
  exact h.edit (takes_moveFile hf) (h.version.rearranges_move htakes hmove hfile) le_rfl rfl
    fun job hjob => absurd (hidle.symm.trans hjob) (by simp)

theorem install (h : db.Ranged ucmp) (hjob : job.Ranged ucmp db)
    (hwritten : job.Written ucmp db st) : (db.install ucmp st).Ranged ucmp :=
  h.edit (hwritten.takes hjob) (hwritten.rearranges h.version hjob) le_rfl rfl
    fun job hjob => (by cases hjob)

/-- What a job ends with when its results are installed. -/
theorem written (h : db.Ranged ucmp) (hjob : db.job = some job) {env : WorkEnv}
    (hinput : env.rounds.map Prod.fst = job.compaction.mergedInput ucmp db.tables)
    (hinstall : (doCompactionWork ucmp maxFileSize env job.compaction
      job.smallestSnapshot).install = some .ok)
    (hnumbers : (doCompactionWork ucmp maxFileSize env job.compaction
      job.smallestSnapshot).state.outputs.map (fun o => o.1.number) = job.numbers) :
    job.Ranged ucmp db ∧ job.Written ucmp db
      (doCompactionWork ucmp maxFileSize env job.compaction job.smallestSnapshot).state := by
  refine ⟨h.job job hjob, ?_, hnumbers⟩
  rw [← hinput]
  exact hasResults_doCompactionWork (hinstall ▸ rfl)

/-- Every step keeps the ranges apart whose flushes are clear of the job. -/
theorem step (h : db.Ranged ucmp) (hstep : Database.Step ucmp maxFileSize db action db')
    (hclear : db.Clear ucmp maxFileSize action) : db'.Ranged ucmp := by
  cases hstep with
  | insert op hfits hmax => exact h.insert hfits
  | publish => exact h.frame_job rfl rfl rfl rfl le_rfl rfl rfl
  | switchMemTable himm hall hnumber => exact h.switchMemTable
  | getSnapshot => exact h.frame_job rfl rfl rfl rfl le_rfl rfl rfl
  | releaseSnapshot number hmem => exact h.frame_job rfl rfl rfl rfl le_rfl rfl rfl
  | newFileNumber hnumber => exact h.frame_job rfl rfl rfl rfl (Nat.le_succ _) rfl rfl
  | compactMemTable himm fileSize hsize hnumber => exact h.compactMemTable himm (hclear _ himm)
  | moveFile hidle himm compactPointer t htrigger hpick hmove hfile =>
    exact h.moveFile hidle (h.takesFrom htrigger hpick) hmove hfile
  | pickCompaction hidle himm compactPointer t htrigger hpick hmove =>
    exact h.beginCompaction (h.takesFrom htrigger hpick)
  | compactRange hidle himm level first last hlevel hrange =>
    exact h.beginCompaction (takesFrom_compactRange hlevel hrange)
  | openOutput hjob hnumber => exact h.openOutput hjob
  | install hjob env hinput hinstall hnumbers =>
    obtain ⟨hjob, hwritten⟩ := h.written hjob hinput hinstall hnumbers
    exact h.install hjob hwritten
  | abandon hjob =>
    exact h.frame rfl rfl rfl rfl le_rfl rfl fun job hjob => (by cases hjob)

/-- So do all runs of such steps. -/
theorem run (hrun : Run (StepWhen (Database.Step ucmp maxFileSize)
    (Database.Clear ucmp maxFileSize)) .new actions db) : db.Ranged ucmp :=
  hrun.invariant (Database.Ranged ucmp) .new fun _ _ _ h hstep => h.step hstep.2 hstep.1

end Database.Ranged

end Steps

section Levels

/-- In every run whose flushes are clear of the inputs of the job, the files of a level above the
lowest are in order and have ranges that are apart. The assertion of `MaybeAddFile` held when the
version was saved, and the search for a key in a level ends at the first file that ends behind it. -/
theorem Database.sortedLevel_of_clear (hrun : Run (StepWhen (Database.Step ucmp maxFileSize)
    (Database.Clear ucmp maxFileSize)) .new actions db) :
    (∀ level, level ≠ 0 → SortedLevel ucmp (db.current.files level)) ∧
    (∀ base edit, base.logAndApply ucmp edit = db.current → ∀ level,
      ((Builder.init ucmp.internalCompare).apply edit).saveLevel base level =
        some (db.current.files level)) ∧
    ∀ level, level ≠ 0 → ∀ key, Between ucmp (db.current.files level) key
      (findFile ucmp (db.current.files level) key) (findFile ucmp (db.current.files level) key) := by
  have hsorted : ∀ level, level ≠ 0 → SortedLevel ucmp (db.current.files level) :=
    fun level hlevel => (Database.Ranged.run hrun).version.sortedLevel hlevel
  refine ⟨hsorted, ?_, fun level hlevel key => findFile_between (hsorted level hlevel) key⟩
  rintro base edit hversion level
  rw [← hversion] at hsorted ⊢
  exact Builder.saveLevel_eq fun hlevel => (hsorted level hlevel).apart

/-- The work on entries that all go into one output of a number. -/
def oneOutputWork (number : Nat) (entries : List TableEntry) : WorkEnv :=
  ⟨entries.map fun e => (e, ⟨false, none, goodFinish, number, .ok, 0, goodFinish⟩), false,
    goodFinish, .ok, .ok⟩

/-- A run with a first step. -/
theorem exists_run_cons {step : Database → DbAction → Database → Prop} {db₁ : Database}
    {p : Database → Prop} (hstep : step db action db₁)
    (h : ∃ db', Run step db₁ actions db' ∧ p db') :
    ∃ db', Run step db (action :: actions) db' ∧ p db' := by
  obtain ⟨db', hrun, hp⟩ := h
  exact ⟨db', .cons hstep hrun, hp⟩

/-- A key is put, and flushed. -/
def putFlush (key value : Bytes) : List DbAction :=
  [.insert (.put key value), .publish, .switchMemTable, .compactMemTable 4096]

/-- While there is no job, this is clear. -/
theorem exists_run_putFlush {key value : Bytes} {p : Database → Prop} (hjob : db.job = none)
    (himm : db.imm = none) (hfits : ((Op.put key value).entry (db.inserted + 1)).Fits)
    (hmax : db.inserted + 1 < kMaxSequenceNumber) (hnumber : db.nextFileNumber + 2 < 2 ^ 64)
    (h : ∃ db', Run (StepWhen (Database.Step ucmp maxFileSize) (Database.Clear ucmp maxFileSize))
      ((db.insert ucmp (.put key value)).publish.switchMemTable.compactMemTable ucmp maxFileSize 4096
        (db.insert ucmp (.put key value)).mem) actions db' ∧ p db') :
    ∃ db', Run (StepWhen (Database.Step ucmp maxFileSize) (Database.Clear ucmp maxFileSize)) db
      (putFlush key value ++ actions) db' ∧ p db' := by
  refine exists_run_cons ⟨trivial, .insert _ hfits hmax⟩ ?_
  refine exists_run_cons ⟨trivial, .publish⟩ ?_
  refine exists_run_cons ⟨trivial, .switchMemTable himm rfl (Nat.lt_of_succ_lt hnumber)⟩ ?_
  refine exists_run_cons ⟨fun imm _ job hmem => ?_, .compactMemTable rfl _ (by decide) hnumber⟩ h
  exact absurd (hjob.symm.trans hmem) (by simp)

/-- Two keys are written twice, and the tables of both are compacted. -/
def twoKeys : List DbAction :=
  putFlush [1] [10] ++ (putFlush [3] [30] ++ (putFlush [1] [11] ++ (putFlush [3] [31] ++
    [.compactRange 1 none none, .openOutput])))

/-- Meanwhile another key is written and flushed, and the compaction ends. -/
def flushMeanwhile (key : Bytes) : List DbAction :=
  [.insert (.put key [20]), .publish, .switchMemTable, .compactMemTable 4096,
    .install (oneOutputWork 12
      [⟨appendInternalKey ⟨[1], 3, .value⟩, [11]⟩, ⟨appendInternalKey ⟨[1], 1, .value⟩, [10]⟩,
        ⟨appendInternalKey ⟨[3], 4, .value⟩, [31]⟩, ⟨appendInternalKey ⟨[3], 2, .value⟩, [30]⟩])]

theorem run_twoKeys : ∃ db, Run (StepWhen (Database.Step bytewiseComparator (2 ^ 21))
    (Database.Clear bytewiseComparator (2 ^ 21))) .new twoKeys db ∧
      (∃ db', Run (Database.Step bytewiseComparator (2 ^ 21)) db (flushMeanwhile [2]) db' ∧
        (db'.current.files 2).map FileMetaData.number = [12, 14] ∧
        ¬ (db'.current.files 2).Pairwise
          fun f g => f.range.Before bytewiseComparator.internalCompare g.range) ∧
      ∃ db', Run (StepWhen (Database.Step bytewiseComparator (2 ^ 21))
        (Database.Clear bytewiseComparator (2 ^ 21))) db (flushMeanwhile [4]) db' ∧
          (db'.current.files 2).map FileMetaData.number = [12, 14] := by
  refine exists_run_putFlush rfl rfl ⟨by decide, by decide, by decide⟩ (by decide) (by decide) ?_
  refine exists_run_putFlush rfl rfl ⟨by decide, by decide, by decide⟩ (by decide) (by decide) ?_
  refine exists_run_putFlush rfl rfl ⟨by decide, by decide, by decide⟩ (by decide) (by decide) ?_
  refine exists_run_putFlush rfl rfl ⟨by decide, by decide, by decide⟩ (by decide) (by decide) ?_
  refine exists_run_cons ⟨trivial, .compactRange rfl rfl _ _ _ (by decide) rfl⟩ ?_
  refine exists_run_cons ⟨trivial, .openOutput rfl (by decide)⟩ ⟨_, .nil _, ?_, ?_⟩
  · refine exists_run_cons (.insert _ ⟨by decide, by decide, by decide⟩ (by decide)) ?_
    refine exists_run_cons .publish ?_
    refine exists_run_cons (.switchMemTable rfl rfl (by decide)) ?_
    refine exists_run_cons (.compactMemTable rfl _ (by decide) (by decide)) ?_
    refine exists_run_cons (.install rfl _ (by decide +kernel) (by decide +kernel)
      (by decide +kernel)) ⟨_, .nil _, by decide +kernel, ?_⟩
    unfold KeyRange.Before
    decide +kernel
  · refine exists_run_cons ⟨trivial, .insert _ ⟨by decide, by decide, by decide⟩ (by decide)⟩ ?_
    refine exists_run_cons ⟨trivial, .publish⟩ ?_
    refine exists_run_cons ⟨trivial, .switchMemTable rfl rfl (by decide)⟩ ?_
    refine exists_run_cons ⟨?_, .compactMemTable rfl _ (by decide) (by decide)⟩ ?_
    · rintro imm himm job hjob first hfirst last hlast -
      obtain rfl := Option.some.inj himm
      obtain rfl := Option.some.inj hjob
      obtain rfl := Option.some.inj hfirst
      obtain rfl := Option.some.inj hlast
      unfold KeyRange.Meets
      decide +kernel
    refine exists_run_cons ⟨trivial, .install rfl _ (by decide +kernel) (by decide +kernel)
      (by decide +kernel)⟩ ⟨_, .nil _, by decide +kernel⟩

/-- A key that is flushed between the inputs is in the range of the output. -/
theorem Database.flushMeanwhile_overlaps : ¬ ∀ (ucmp : Comparator) (maxFileSize : Nat)
    (actions : List DbAction) (db : Database), Run (Database.Step ucmp maxFileSize) .new actions db →
      ∀ level, level ≠ 0 → SortedLevel ucmp (db.current.files level) := by
  intro h
  obtain ⟨db, hrun, ⟨db', hrest, -, hoverlaps⟩, -⟩ := run_twoKeys
  have hall := (hrun.mono fun _ _ _ hstep => hstep.2).append hrest
  exact hoverlaps (h _ _ _ db' hall 2 (by decide)).apart

theorem Database.sortedLevel_of_clear_flushMeanwhile : ∃ db : Database,
    (db.current.files 2).map FileMetaData.number = [12, 14] ∧
    (∀ level, level ≠ 0 → SortedLevel bytewiseComparator (db.current.files level)) ∧
    (∀ base edit, base.logAndApply bytewiseComparator edit = db.current → ∀ level,
      ((Builder.init bytewiseComparator.internalCompare).apply edit).saveLevel base level =
        some (db.current.files level)) ∧
    ∀ level, level ≠ 0 → ∀ key, Between bytewiseComparator (db.current.files level) key
      (findFile bytewiseComparator (db.current.files level) key)
      (findFile bytewiseComparator (db.current.files level) key) := by
  obtain ⟨db, hrun, -, db', hrest, hfiles⟩ := run_twoKeys
  exact ⟨db', hfiles, Database.sortedLevel_of_clear (hrun.append hrest)⟩

end Levels

end WiscKey
