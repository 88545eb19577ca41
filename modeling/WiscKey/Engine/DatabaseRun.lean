import WiscKey.Engine.Invariant

/-!
# Runs of a database

In every run from a new database, a reader at a snapshot gets what the last update of its key in
front of the snapshot says, as long as no user key is in two outputs of a compaction, and no flush
gets between the inputs of one. Where compactions are picked while no snapshot is held, both are so.
-/

namespace WiscKey

open Version

variable {ucmp : Comparator} {maxFileSize smallestSnapshot : Nat} {history : List Op}
  {db db' : Database} {job : Job} {keys : KeyState} {c : Compaction} {st : CompactionState}
  {entries : List TableEntry} {actions more : List DbAction} {action : DbAction}

/-- The steps that keep the levels of a version apart. -/
def Database.Orderly (ucmp : Comparator) (maxFileSize : Nat) (db : Database) : DbAction → Prop
  | .compactMemTable _ => ∀ imm ∈ db.imm, ∀ job ∈ db.job,
      job.ClearOf ucmp maxFileSize db.current imm
  | .install env => ∀ job ∈ db.job,
      (doCompactionWork ucmp maxFileSize env job.compaction job.smallestSnapshot).state.Uncut ucmp
  | _ => True

/-- The steps where compactions are picked only, and while no snapshot is held. -/
def Database.Plain (db : Database) : DbAction → Prop
  | .pickCompaction _ _ => db.snapshots = []
  | .compactRange _ _ _ => False
  | _ => True

section Step

/-- What a step adds to the history. -/
theorem updatesOf_append (actions more : List DbAction) :
    updatesOf (actions ++ more) = updatesOf actions ++ updatesOf more :=
  List.filterMap_append

/-- Where no user key is in two files of a level, no compaction leaves one behind. -/
theorem Version.Apart.whole {v : Version Bytes} (h : v.Apart ucmp) (htakes : c.TakesFrom ucmp v)
    (hproper : ∀ f ∈ v.files c.level, f.range.Proper ucmp.internalCompare) : c.Whole ucmp v := by
  intro hzero f hf g hg hnot hbefore heq
  have hmem := htakes.selected.sublist.subset hf
  refine h.not_meets hzero hmem hg (fun hsame => hnot (hsame ▸ hf)) ⟨fun hlt => ?_, fun hlt => ?_⟩
  · rw [show ucmp.compare f.userRange.last g.userRange.first = .lt from hlt] at heq
    cases heq
  · -- the file that is behind ends behind its beginning
    refine user_not_gt_of_before hbefore (Std.OrientedCmp.gt_of_lt ?_)
    exact lt_of_not_gt_of_lt (userRange_proper (hproper g hg))
      (lt_of_lt_of_not_gt hlt (userRange_proper (hproper f hmem)))

/-- Orderly steps are clear, and leave no file behind. -/
theorem Database.Ok.whole (h : db.Ok ucmp history)
    (hstep : Database.Step ucmp maxFileSize db action db')
    (horderly : db.Orderly ucmp maxFileSize action) : db.Whole ucmp maxFileSize action := by
  have hwhole : ∀ {c : Compaction}, c.TakesFrom ucmp db.current → c.Whole ucmp db.current :=
    fun htakes => h.apart.version.whole htakes fun f hf =>
      (h.ranged.version.tableOf _ f hf).proper
  cases hstep with
  | compactMemTable himm fileSize hsize hnumber => exact horderly
  | moveFile hidle himm compactPointer t htrigger hpick hmove hfile =>
    exact fun c hc => hwhole (h.ranged.takesFrom htrigger hc)
  | pickCompaction hidle himm compactPointer t htrigger hpick hmove =>
    exact fun c hc => hwhole (h.ranged.takesFrom htrigger hc)
  | compactRange hidle himm level first last hlevel hrange =>
    exact fun c hc => hwhole (takesFrom_compactRange hlevel hc)
  | insert | publish | switchMemTable | getSnapshot | releaseSnapshot | newFileNumber | openOutput
  | install | abandon => trivial

/-- Every orderly step keeps user keys apart. -/
theorem Database.Ok.apart_step (h : db.Ok ucmp history)
    (hstep : Database.Step ucmp maxFileSize db action db')
    (horderly : db.Orderly ucmp maxFileSize action) : db'.Apart ucmp := by
  cases hstep with
  | @compactMemTable imm himm fileSize hsize hnumber =>
    cases hfirst : imm.head? with
    | none =>
      rw [Database.compactMemTable, hfirst]
      exact ⟨h.apart.version, h.apart.job⟩
    | some first =>
      have hlast := List.getLast?_eq_some_getLast (List.ne_nil_of_mem (List.mem_of_head? hfirst))
      rw [Database.compactMemTable_eq hfirst hlast]
      exact ⟨h.ranged.version.apart_flush maxFileSize fileSize h.apart.version
        (h.ranged.imm imm himm) hfirst hlast (h.ranged.immTable imm himm), h.apart.job⟩
  | moveFile hidle himm compactPointer t htrigger hpick hmove hfile =>
    exact ⟨h.ranged.version.apart_move h.apart.version (h.ranged.takesFrom htrigger hpick) hmove
      hfile, h.apart.job⟩
  | pickCompaction hidle himm compactPointer t htrigger hpick hmove =>
    refine ⟨h.apart.version, fun job hjob => ?_⟩
    obtain rfl := Option.some.inj hjob
    exact (h.ranged.takesFrom htrigger hpick).version ▸ h.apart.version
  | compactRange hidle himm level first last hlevel hrange =>
    refine ⟨h.apart.version, fun job hjob => ?_⟩
    obtain rfl := Option.some.inj hjob
    exact (takesFrom_compactRange hlevel hrange).version ▸ h.apart.version
  | openOutput hjob hnumber =>
    have hbase := h.apart.job _ hjob
    refine ⟨h.apart.version, fun job' hjob' => ?_⟩
    obtain rfl := Option.some.inj hjob'
    exact hbase
  | install hjob env hinput hinstall hnumbers =>
    obtain ⟨hranged, hwritten⟩ := h.ranged.written hjob hinput hinstall hnumbers
    exact ⟨Job.Done.apart ⟨hwritten, horderly _ hjob⟩ h.ranged.version hranged h.apart.version
      (h.apart.job _ hjob), fun job hjob => (by cases hjob)⟩
  | abandon hjob => exact ⟨h.apart.version, fun job hjob => (by cases hjob)⟩
  | insert | publish | switchMemTable | getSnapshot | releaseSnapshot | newFileNumber =>
    exact ⟨h.apart.version, h.apart.job⟩

/-- Every step adds its update to what is recorded. -/
theorem Database.Ok.recorded_step (h : db.Ok ucmp history)
    (hstep : Database.Step ucmp maxFileSize db action db') :
    db'.Recorded ucmp (history ++ updatesOf [action]) := by
  have hsame : ∀ {db' : Database}, db'.Recorded ucmp history → db'.Recorded ucmp (history ++ []) :=
    fun h => (List.append_nil history).symm ▸ h
  have hrecorded := h.toRecorded
  cases hstep with
  | insert op hfits hmax => exact hrecorded.insert hfits hmax
  | publish => exact hsame hrecorded.publish
  | switchMemTable himm hall hnumber => exact hsame (hrecorded.switchMemTable himm hall)
  | getSnapshot => exact hsame hrecorded.getSnapshot
  | releaseSnapshot number hmem => exact hsame (hrecorded.releaseSnapshot number)
  | newFileNumber hnumber => exact hsame (hrecorded.frame_snapshots rfl rfl rfl h.readers)
  | compactMemTable himm fileSize hsize hnumber => exact hsame (h.compactMemTable himm)
  | moveFile hidle himm compactPointer t htrigger hpick hmove hfile =>
    exact hsame (h.moveFile hidle (h.ranged.takesFrom htrigger hpick) hfile)
  | pickCompaction hidle himm compactPointer t htrigger hpick hmove =>
    exact hsame (hrecorded.beginCompaction _)
  | compactRange hidle himm level first last hlevel hrange =>
    exact hsame (hrecorded.beginCompaction _)
  | openOutput hjob hnumber => exact hsame (hrecorded.openOutput hjob)
  | install hjob env hinput hinstall hnumbers =>
    exact hsame (h.install hjob (h.ranged.written hjob hinput hinstall hnumbers).2)
  | abandon hjob =>
    exact hsame (hrecorded.frame_snapshots rfl rfl rfl fun job hjob => (by cases hjob))

/-- Every orderly step keeps the invariant. -/
theorem Database.Ok.step (h : db.Ok ucmp history)
    (hstep : Database.Step ucmp maxFileSize db action db')
    (horderly : db.Orderly ucmp maxFileSize action) :
    db'.Ok ucmp (history ++ updatesOf [action]) :=
  have hwhole := h.whole hstep horderly
  ⟨h.recorded_step hstep, h.ranged.step hstep hwhole.clear, h.aged.step h.ranged hstep hwhole,
    h.apart_step hstep horderly⟩

/-- So do all orderly runs. -/
theorem Database.Ok.run (h : db.Ok ucmp history)
    (hrun : Run (StepWhen (Database.Step ucmp maxFileSize) (Database.Orderly ucmp maxFileSize)) db
      actions db') : db'.Ok ucmp (history ++ updatesOf actions) := by
  induction hrun generalizing history with
  | nil s => exact (List.append_nil history).symm ▸ h
  | @cons s s₁ s' a rest head tail ih =>
    have hrest := ih (h.step head.2 head.1)
    rwa [List.append_assoc, ← updatesOf_append, List.singleton_append] at hrest

/-- A flush takes one number, whether it has a table or not. -/
@[simp] theorem Database.nextFileNumber_compactMemTable {fileSize : Nat} {imm : List TableEntry} :
    (db.compactMemTable ucmp maxFileSize fileSize imm).nextFileNumber = db.nextFileNumber + 1 := by
  rw [Database.compactMemTable]
  split <;> rfl

/-- No step makes a file number of more than 64 bits. -/
theorem Database.Step.nextFileNumber_lt (hstep : Database.Step ucmp maxFileSize db action db')
    (h : db.nextFileNumber < 2 ^ 64) : db'.nextFileNumber < 2 ^ 64 := by
  cases hstep with
  | switchMemTable himm hall hnumber => exact hnumber
  | newFileNumber hnumber => exact hnumber
  | compactMemTable himm fileSize hsize hnumber =>
    rw [Database.nextFileNumber_compactMemTable]
    exact hnumber
  | openOutput hjob hnumber => exact hnumber
  | insert | publish | getSnapshot | releaseSnapshot | moveFile | pickCompaction | compactRange
  | install | abandon => exact h

/-- Nor does a run. -/
theorem Database.nextFileNumber_lt {cond : Database → DbAction → Prop}
    (hrun : Run (StepWhen (Database.Step ucmp maxFileSize) cond) .new actions db) :
    db.nextFileNumber < 2 ^ 64 :=
  hrun.invariant (fun db => db.nextFileNumber < 2 ^ 64) (by decide)
    fun _ _ _ h hstep => hstep.2.nextFileNumber_lt h

end Step

section Uncut

/-- Of a user key that all readers see, no more than one version is kept. -/
theorem pairwise_survivors (hsnapshot : smallestSnapshot < kMaxSequenceNumber)
    (hsorted : c.SortedBelow ucmp) (hstream : InternalStream ucmp entries)
    (hpassed : ∀ e ∈ entries, Passed ucmp c.inputVersion c.levelPtrs (extractUserKey e.key))
    (hold : ∀ e ∈ entries, ∀ ikey, parseInternalKey e.key = some ikey →
      ikey.sequence ≤ smallestSnapshot) :
    (survivors ucmp smallestSnapshot keys c entries).Pairwise fun a b =>
      ucmp.compare (extractUserKey a.key) (extractUserKey b.key) = .lt := by
  induction entries generalizing keys c with
  | nil => exact List.Pairwise.nil
  | cons e entries ih =>
    obtain ⟨hfirst, hrest⟩ := List.pairwise_cons.mp hstream.increasing
    obtain ⟨ikey, hparse⟩ := Option.isSome_iff_exists.mp (hstream.parsed e List.mem_cons_self)
    have huser := (parseInternalKey_spec hparse).1
    have hdrop := @dropEntry_spec _ _ keys c _ _ hsnapshot hparse hsorted
      (huser ▸ hpassed e List.mem_cons_self)
    rw [survivors_cons]
    generalize dropEntry ucmp smallestSnapshot keys c e.key = r at hdrop ⊢
    obtain ⟨drop, next, c'⟩ := r
    obtain ⟨-, hhas, hsame, hlast, hframe, hpassed'⟩ := hdrop
    simp only at hhas hsame hlast hframe hpassed' ⊢
    have hge : ∀ f ∈ entries, ucmp.compare ikey.userKey (extractUserKey f.key) ≠ .gt := by
      intro f hf
      rw [huser]
      exact user_not_gt_of_internal (by rw [hfirst f hf]; exact Ordering.noConfusion)
    have hparsed : ∀ f ∈ entries, (parseInternalKey f.key).isSome :=
      fun f hf => hstream.parsed f (List.mem_cons_of_mem _ hf)
    have hold' : ∀ f ∈ entries, ∀ ikey, parseInternalKey f.key = some ikey →
        ikey.sequence ≤ smallestSnapshot := fun f hf => hold f (List.mem_cons_of_mem _ hf)
    have hversion : c'.inputVersion = c.inputVersion := by rw [hframe]
    have hsorted' : c'.SortedBelow ucmp := by
      rw [hframe]
      exact hsorted
    have hpassedRest : ∀ f ∈ entries,
        Passed ucmp c'.inputVersion c'.levelPtrs (extractUserKey f.key) := by
      intro f hf
      rw [hversion]
      exact hpassed'.mono (hge f hf)
    have htail := @ih next c' hsorted' ⟨hrest, hparsed⟩ hpassedRest hold'
    split
    · exact htail
    · refine List.pairwise_cons.mpr ⟨fun f hf => ?_, htail⟩
      have hmem := (survivors_sublist _).subset hf
      rw [← huser]
      refine lt_of_not_gt_of_ne (hge f hmem) fun heq => ?_
      -- a second version would be behind one that every reader sees
      have hnone : newestSeen ucmp ikey.userKey smallestSnapshot
          (survivors ucmp smallestSnapshot next c' entries) = none :=
        newestSeen_survivors_hidden hsnapshot hsorted' hrest hparsed hpassedRest
          ⟨hhas, hsame, hlast.trans_le (hold e List.mem_cons_self ikey hparse)⟩ hge
          fun f hf ikey hikey _ => hold' f hf ikey hikey
      obtain ⟨ikey', hparse'⟩ := Option.isSome_iff_exists.mp (hparsed f hmem)
      refine newestSeen_eq_none.mp hnone f hf (isSeen_iff.mpr ⟨ikey', hparse', ?_,
        hold' f hmem ikey' hparse'⟩)
      rw [(parseInternalKey_spec hparse').1]
      exact Std.OrientedCmp.eq_symm heq

/-- Outputs with one version of each user key are uncut. -/
theorem CompactionState.uncut_of_pairwise (hdescribes : ∀ p ∈ st.outputs, p.1.Describes p.2)
    (h : (st.outputs.flatMap Prod.snd).Pairwise fun a b =>
      ucmp.compare (extractUserKey a.key) (extractUserKey b.key) = .lt) : st.Uncut ucmp := by
  refine List.pairwise_map.mpr ((List.pairwise_flatMap.mp h).2.imp_of_mem fun {p q} hp hq hlt => ?_)
  obtain ⟨last, hlast, hlargest⟩ := Option.map_eq_some_iff.mp (hdescribes p hp).2
  obtain ⟨first, hfirst, hsmallest⟩ := Option.map_eq_some_iff.mp (hdescribes q hq).1
  simp only [FileMetaData.userRange, KeyRange.Before]
  rw [← hlargest, ← hsmallest]
  exact hlt last (List.mem_of_getLast? hlast) first (List.mem_of_head? hfirst)

/-- Tables have published updates only. -/
theorem Database.Ok.sequence_le_last (h : db.Ok ucmp history) {level : Level} {f : TableFile}
    (hf : f ∈ db.current.files level) {e : TableEntry} (he : e ∈ (db.tables f.number).2)
    {ikey : ParsedInternalKey} (hparse : parseInternalKey e.key = some ikey) :
    ikey.sequence ≤ db.lastSequence := by
  obtain ⟨place, op, hat, rfl⟩ := h.wrote e (.inr (.inr ⟨level, f, hf, he⟩))
  have hparse' := Op.parse_entry (h.fit place op hat)
  obtain rfl := Option.some.inj (hparse'.symm.trans hparse)
  by_contra hlt
  -- an update that is not published is in the memtable, and so in no table
  have hmem := h.unpublished place op (Nat.le_of_lt_succ (Nat.lt_of_not_le hlt)) hat
  have hself : ucmp.compare op.userKey op.userKey = .eq := Std.ReflCmp.compare_self
  exact absurd (h.ranged.memTable level f hf _ hmem _ he _ _ hparse hparse hself)
    (Nat.lt_irrefl _)

/-- A job without a gap, of updates in front of its snapshot. -/
structure Job.Plain (ucmp : Comparator) (tables : Tables) (job : Job) : Prop where
  gapFree : GapFree ucmp (job.compaction.inputs0 ++ job.compaction.inputs1)
  old : ∀ level f, job.compaction.IsInput level f → ∀ e ∈ (tables f.number).2, ∀ ikey,
    parseInternalKey e.key = some ikey → ikey.sequence ≤ job.smallestSnapshot

/-- Such a job is orderly. -/
theorem Job.Plain.uncut (hplain : job.Plain ucmp db.tables) (h : db.Ok ucmp history)
    (hjob : db.job = some job) (hresults : st.HasResults ucmp job.compaction job.smallestSnapshot
      (job.compaction.mergedInput ucmp db.tables)) : st.Uncut ucmp := by
  have hranged := h.ranged.job job hjob
  refine CompactionState.uncut_of_pairwise hresults.describes ?_
  rw [hresults.written]
  refine pairwise_survivors (((h.readers job hjob).2.trans h.last).trans_lt h.small)
    hranged.sortedBelow (hranged.takes.internalStream hranged.base)
    (fun e _ => passed_zero hranged.takes.start) fun e he => ?_
  obtain ⟨level, f, hinput, he⟩ := (hranged.takes.mem_mergedInput hranged.base).mp he
  exact hplain.old level f hinput e he

/-- A flush writes a table of a new number, and leaves the job alone. -/
theorem Database.compactMemTable_frame {fileSize : Nat} {imm : List TableEntry} :
    (db.compactMemTable ucmp maxFileSize fileSize imm).job = db.job ∧
      ∀ m < db.nextFileNumber,
        (db.compactMemTable ucmp maxFileSize fileSize imm).tables m = db.tables m := by
  rw [Database.compactMemTable]
  split
  · exact ⟨rfl, fun m hm => Function.update_of_ne hm.ne _ _⟩
  · exact ⟨rfl, fun m hm => rfl⟩

/-- A plain step of a database with a plain job is orderly, and leaves it plain. -/
theorem Database.Ok.plain_step (h : db.Ok ucmp history)
    (hstep : Database.Step ucmp maxFileSize db action db') (hplain : db.Plain action)
    (hjobs : ∀ job ∈ db.job, job.Plain ucmp db.tables) :
    db.Orderly ucmp maxFileSize action ∧ ∀ job ∈ db'.job, job.Plain ucmp db'.tables := by
  cases hstep with
  | insert op hfits hmax => exact ⟨trivial, hjobs⟩
  | publish => exact ⟨trivial, hjobs⟩
  | switchMemTable himm hall hnumber => exact ⟨trivial, hjobs⟩
  | getSnapshot => exact ⟨trivial, hjobs⟩
  | releaseSnapshot number hmem => exact ⟨trivial, hjobs⟩
  | newFileNumber hnumber => exact ⟨trivial, hjobs⟩
  | @compactMemTable imm himm fileSize hsize hnumber =>
    obtain ⟨hsame, htables⟩ := @Database.compactMemTable_frame ucmp maxFileSize db fileSize imm
    refine ⟨fun imm' himm' job hjob => ?_, fun job hjob => ?_⟩
    · exact (h.ranged.job job hjob).clearOf h.ranged.version (h.ranged.imm imm' himm')
        (hjobs job hjob).gapFree
    · rw [hsame] at hjob
      refine ⟨(hjobs job hjob).gapFree, fun level f hinput e he => ?_⟩
      have hranged := h.ranged.job job hjob
      rw [htables _ (hranged.base.below level f (hranged.takes.mem_files hinput))] at he
      exact (hjobs job hjob).old level f hinput e he
  | moveFile hidle himm compactPointer t htrigger hpick hmove hfile =>
    exact ⟨trivial, fun job hjob => absurd (hidle.symm.trans hjob) (by simp)⟩
  | pickCompaction hidle himm compactPointer t htrigger hpick hmove =>
    obtain ⟨htakes, hgap⟩ := takesFrom_pickCompaction
      (fun l f hf => (h.ranged.version.tableOf l f hf).proper) htrigger hpick
    refine ⟨trivial, fun job hjob => ?_⟩
    obtain rfl := Option.some.inj hjob
    refine ⟨hgap, fun level f hinput e he ikey hparse => ?_⟩
    have hnone : smallestSnapshotOf db.lastSequence db.snapshots = db.lastSequence := by
      rw [show db.snapshots = [] from hplain]
      rfl
    rw [hnone]
    exact h.sequence_le_last (htakes.mem_files hinput) he hparse
  | compactRange hidle himm level first last hlevel hrange => exact hplain.elim
  | openOutput hjob hnumber =>
    refine ⟨trivial, fun job' hjob' => ?_⟩
    obtain rfl := Option.some.inj hjob'
    exact ⟨(hjobs _ hjob).gapFree, (hjobs _ hjob).old⟩
  | install hjob env hinput hinstall hnumbers =>
    refine ⟨fun job' hjob' => ?_, fun job hjob => (by cases hjob)⟩
    obtain rfl := Option.some.inj (hjob.symm.trans hjob')
    exact (hjobs _ hjob).uncut h hjob (h.ranged.written hjob hinput hinstall hnumbers).2.results
  | abandon hjob => exact ⟨trivial, fun job hjob => (by cases hjob)⟩

end Uncut

section Plain

/-- A plain run is orderly. -/
theorem Database.Ok.plain_run (h : db.Ok ucmp history)
    (hjobs : ∀ job ∈ db.job, job.Plain ucmp db.tables)
    (hrun : Run (StepWhen (Database.Step ucmp maxFileSize) Database.Plain) db actions db') :
    Run (StepWhen (Database.Step ucmp maxFileSize) (Database.Orderly ucmp maxFileSize)) db actions
      db' ∧ ∀ job ∈ db'.job, job.Plain ucmp db'.tables := by
  induction hrun generalizing history with
  | nil s => exact ⟨.nil s, hjobs⟩
  | cons head tail ih =>
    obtain ⟨horderly, hjobs'⟩ := h.plain_step head.2 head.1 hjobs
    obtain ⟨hrest, hjobs''⟩ := ih (h.step head.2 horderly) hjobs'
    exact ⟨.cons ⟨horderly, head.2⟩ hrest, hjobs''⟩

/-- And so is one from a new database. -/
theorem Database.orderly_of_plain
    (hrun : Run (StepWhen (Database.Step ucmp maxFileSize) Database.Plain) .new actions db) :
    Run (StepWhen (Database.Step ucmp maxFileSize) (Database.Orderly ucmp maxFileSize)) .new actions
      db ∧ ∀ job ∈ db.job, job.Plain ucmp db.tables :=
  Database.ok_new.plain_run (fun job hjob => (by cases hjob)) hrun

end Plain

section Sample

/-- A file from the search for a key that was written twice. -/
def sampleFile (number sequence : Nat) : TableFile :=
  ⟨number, 4096, appendInternalKey ⟨[1], sequence, .value⟩,
    appendInternalKey ⟨[1], sequence, .value⟩⟩

/-- A key is written twice, and a snapshot is taken while both tables are compacted. -/
def sampleStart : List DbAction :=
  [.insert (.put [1] [10]), .publish, .switchMemTable, .compactMemTable 4096,
    .moveFile (fun _ => []) (.seek 2 (sampleFile 5 1)), .insert (.put [1] [11]), .publish,
    .switchMemTable, .compactMemTable 4096,
    .pickCompaction (fun _ => []) (.seek 2 (sampleFile 7 2)), .openOutput, .getSnapshot]

/-- The key is deleted, and the compaction ends. -/
def sampleRest : List DbAction :=
  [.insert (.delete [1]), .publish, .install (oneOutputWork 8
    [⟨appendInternalKey ⟨[1], 2, .value⟩, [11]⟩, ⟨appendInternalKey ⟨[1], 1, .value⟩, [10]⟩])]

theorem plain_sampleStart : ∃ db, Run (StepWhen (Database.Step bytewiseComparator (2 ^ 21))
    Database.Plain) .new sampleStart db ∧ db.snapshots = [2] ∧
      ∃ db', Run (StepWhen (Database.Step bytewiseComparator (2 ^ 21)) Database.Plain) db
        sampleRest db' ∧ db'.snapshots = [2] ∧ db'.lastSequence = 3 ∧ db'.nextFileNumber = 9 := by
  refine exists_run_cons ⟨trivial, .insert _ ⟨by decide, by decide, by decide⟩ (by decide)⟩ ?_
  refine exists_run_cons ⟨trivial, .publish⟩ ?_
  refine exists_run_cons ⟨trivial, .switchMemTable rfl rfl (by decide)⟩ ?_
  refine exists_run_cons ⟨trivial, .compactMemTable rfl _ (by decide) (by decide)⟩ ?_
  refine exists_run_cons ⟨trivial, .moveFile rfl rfl _ _ (by decide +kernel) rfl
    (by decide +kernel) rfl⟩ ?_
  refine exists_run_cons ⟨trivial, .insert _ ⟨by decide, by decide, by decide⟩ (by decide)⟩ ?_
  refine exists_run_cons ⟨trivial, .publish⟩ ?_
  refine exists_run_cons ⟨trivial, .switchMemTable rfl rfl (by decide)⟩ ?_
  refine exists_run_cons ⟨trivial, .compactMemTable rfl _ (by decide) (by decide)⟩ ?_
  refine exists_run_cons ⟨rfl, .pickCompaction rfl rfl _ _ (by decide +kernel) rfl
    (by decide +kernel)⟩ ?_
  refine exists_run_cons ⟨trivial, .openOutput rfl (by decide)⟩ ?_
  refine exists_run_cons ⟨trivial, .getSnapshot⟩ ⟨_, .nil _, rfl, ?_⟩
  refine exists_run_cons ⟨trivial, .insert _ ⟨by decide, by decide, by decide⟩ (by decide)⟩ ?_
  refine exists_run_cons ⟨trivial, .publish⟩ ?_
  refine exists_run_cons ⟨trivial, .install rfl _ (by decide +kernel) (by decide +kernel)
    (by decide +kernel)⟩ ?_
  exact ⟨_, .nil _, rfl, rfl, rfl⟩

end Sample

section Levels

/-- In every run whose compactions are uncut and clear, the files of the version are in their levels
as reads need it: those of a level above the lowest have no user key in common, a deeper level is
older, and no two files have one number. Memtables are newer than files. -/
theorem Database.layered_of_orderly
    (hrun : Run (StepWhen (Database.Step ucmp maxFileSize) (Database.Orderly ucmp maxFileSize)) .new
      actions db) :
    db.current.Sound ucmp db.tables db.nextFileNumber ∧ db.readState.Stacked ucmp :=
  ⟨(Database.ok_new.run hrun).sound, (Database.ok_new.run hrun).stacked⟩

theorem Database.layered_of_orderly_sample : ∃ db : Database, db.nextFileNumber = 9 ∧
    db.current.Sound bytewiseComparator db.tables db.nextFileNumber ∧
      db.readState.Stacked bytewiseComparator := by
  obtain ⟨db, hrun, -, db', hrest, -, -, hnext⟩ := plain_sampleStart
  obtain ⟨horderly, -⟩ := Database.orderly_of_plain (hrun.append hrest)
  exact ⟨db', hnext, Database.layered_of_orderly horderly⟩

end Levels

section Reads

/-- In every run whose compactions are uncut and clear, a read gets what the last update of the key
in front of its snapshot says. -/
theorem Database.lookup_of_orderly
    (hrun : Run (StepWhen (Database.Step ucmp maxFileSize) (Database.Orderly ucmp maxFileSize)) .new
      actions db) {snapshot : Option Nat} (hsnapshot : ∀ s ∈ snapshot, s ∈ db.snapshots)
    (userKey : Bytes) : let r := db.readState.lookup ucmp snapshot userKey
      (r.status, r.value) =
        readAt ucmp (updatesOf actions) (snapshot.getD db.lastSequence) userKey :=
  (Database.ok_new.run hrun).lookup hsnapshot userKey

theorem Database.lookup_of_orderly_sample : ∃ db : Database,
    Run (StepWhen (Database.Step bytewiseComparator (2 ^ 21))
      (Database.Orderly bytewiseComparator (2 ^ 21))) .new (sampleStart ++ sampleRest) db ∧
    let r := db.readState.lookup bytewiseComparator none [1]
    (r.status, r.value) = (.notFound "", none) := by
  obtain ⟨db, hrun, -, db', hrest, -, hlast, -⟩ := plain_sampleStart
  obtain ⟨horderly, -⟩ := Database.orderly_of_plain (hrun.append hrest)
  have hnone : ∀ s ∈ (none : Option Nat), s ∈ db'.snapshots := fun s hs => (by cases hs)
  have hread := Database.lookup_of_orderly horderly hnone [1]
  rw [Option.getD_none, hlast] at hread
  exact ⟨db', horderly, hread.trans (by decide)⟩

/-- A reader with a snapshot gets the same answers as long as it holds it. -/
theorem Database.lookup_repeats
    (hrun : Run (StepWhen (Database.Step ucmp maxFileSize) (Database.Orderly ucmp maxFileSize)) .new
      actions db)
    (hmore : Run (StepWhen (Database.Step ucmp maxFileSize) (Database.Orderly ucmp maxFileSize)) db
      more db') {s : Nat} (hs : s ∈ db.snapshots) (hs' : s ∈ db'.snapshots) (userKey : Bytes) :
    let r := db.readState.lookup ucmp (some s) userKey
    let r' := db'.readState.lookup ucmp (some s) userKey
    (r'.status, r'.value) = (r.status, r.value) := by
  have hok := Database.ok_new.run hrun
  have hheld : ∀ t ∈ some s, t ∈ db.snapshots := fun t ht => (Option.some.inj ht) ▸ hs
  have hheld' : ∀ t ∈ some s, t ∈ db'.snapshots := fun t ht => (Option.some.inj ht) ▸ hs'
  refine ((hok.run hmore).lookup hheld' userKey).trans
    ((congrArg Op.answer ?_).trans (hok.lookup hheld userKey).symm)
  exact lastOf_append (hok.le_of_reads (.inl hs))

theorem Database.lookup_repeats_sample : ∃ db db' : Database,
    let r := db.readState.lookup bytewiseComparator (some 2) [1]
    let r' := db'.readState.lookup bytewiseComparator (some 2) [1]
    (r'.status, r'.value) = (r.status, r.value) := by
  obtain ⟨db, hrun, hsnapshots, db', hrest, hsnapshots', -⟩ := plain_sampleStart
  obtain ⟨horderly, hjobs⟩ := Database.orderly_of_plain hrun
  obtain ⟨hmore, -⟩ := (Database.ok_new.run horderly).plain_run hjobs hrest
  exact ⟨db, db', Database.lookup_repeats horderly hmore (hsnapshots ▸ List.mem_singleton_self 2)
    (hsnapshots' ▸ List.mem_singleton_self 2) [1]⟩

/-- In every run whose compactions are picked while no snapshot is held, a read gets what the last
update of the key in front of its snapshot says. -/
theorem Database.lookup_of_plain
    (hrun : Run (StepWhen (Database.Step ucmp maxFileSize) Database.Plain) .new actions db)
    {snapshot : Option Nat} (hsnapshot : ∀ s ∈ snapshot, s ∈ db.snapshots) (userKey : Bytes) :
    let r := db.readState.lookup ucmp snapshot userKey
    (r.status, r.value) =
      readAt ucmp (updatesOf actions) (snapshot.getD db.lastSequence) userKey :=
  (Database.ok_new.run (Database.orderly_of_plain hrun).1).lookup hsnapshot userKey

theorem Database.lookup_of_plain_sample : ∃ db : Database,
    Run (StepWhen (Database.Step bytewiseComparator (2 ^ 21)) Database.Plain) .new
      (sampleStart ++ sampleRest) db ∧ db.snapshots = [2] ∧
    let r := db.readState.lookup bytewiseComparator (some 2) [1]
    (r.status, r.value) = (.ok, some [11]) := by
  obtain ⟨db, hrun, -, db', hrest, hsnapshots, -⟩ := plain_sampleStart
  have hheld : ∀ s ∈ some 2, s ∈ db'.snapshots := by
    intro s hs
    rw [hsnapshots, ← Option.some.inj hs]
    exact List.mem_singleton_self 2
  have hread := Database.lookup_of_plain (hrun.append hrest) hheld [1]
  rw [Option.getD_some] at hread
  exact ⟨db', hrun.append hrest, hsnapshots, hread.trans (by decide)⟩

end Reads

end WiscKey
