import WiscKey.Engine.Ages

/-!
# The invariant of a database

A database holds entries of its history, in memtables and tables that are each newer than what is
read after them, and its readers are covered. Where no user key is in two files of a level, they stay
so when the results of a job are installed: a reader of the key of an input finds the same version
in the outputs, or a deletion is gone and there is nothing left that it could hide.
-/

namespace WiscKey

open Version

variable {ucmp : Comparator} {maxFileSize fileSize : Nat} {history : List Op} {db db' : Database}
  {job : Job} {op : Op} {imm : List TableEntry} {c : Compaction} {st : CompactionState}
  {f : TableFile} {e e' : TableEntry}

/-- A snapshot that is held, or the last sequence number. -/
def Database.Reads (db : Database) (s : Nat) : Prop := s ∈ db.snapshots ∨ s = db.lastSequence

/-- What a database has of its history, and its readers. -/
structure Database.Recorded (ucmp : Comparator) (history : List Op) (db : Database) : Prop where
  inserted : db.inserted = history.length
  last : db.lastSequence ≤ db.inserted
  small : db.inserted < kMaxSequenceNumber
  fit : Fitting history
  wrote : ∀ e, db.readState.Holds e → Wrote history e
  unpublished : ∀ (place : Nat) (op : Op), db.lastSequence ≤ place → history[place]? = some op →
    (op.entry (place + 1)).entry ∈ db.mem
  snapshots : ∀ s ∈ db.snapshots, s ≤ db.lastSequence
  sorted : db.snapshots.Pairwise (· ≤ ·)
  covers : ∀ s, db.Reads s → ∀ userKey, Covers ucmp history db.readState.Holds s userKey
  readers : ∀ job ∈ db.job, (∀ s ∈ db.snapshots, job.smallestSnapshot ≤ s) ∧
    job.smallestSnapshot ≤ db.lastSequence

/-- No user key is in two files of a level, nor was when the job began. -/
structure Database.Apart (ucmp : Comparator) (db : Database) : Prop where
  version : db.current.Apart ucmp
  job : ∀ job ∈ db.job, job.compaction.inputVersion.Apart ucmp

/-- What holds of a database with a history. -/
structure Database.Ok (ucmp : Comparator) (history : List Op) (db : Database) : Prop
    extends db.Recorded ucmp history where
  ranged : db.Ranged ucmp
  aged : db.Aged ucmp
  apart : db.Apart ucmp

theorem Database.Ok.stacked (h : db.Ok ucmp history) : db.readState.Stacked ucmp :=
  ⟨h.ranged.mem, h.ranged.imm, h.ranged.version.layered h.aged.version, h.ranged.memImm,
    h.ranged.memTable, h.ranged.immTable⟩

theorem Database.Ok.sound (h : db.Ok ucmp history) :
    db.current.Sound ucmp db.tables db.nextFileNumber :=
  h.ranged.version.sound h.aged.version h.apart.version

theorem Database.Recorded.le_of_reads (h : db.Recorded ucmp history) {s : Nat} (hs : db.Reads s) :
    s ≤ history.length := by
  have hlast := h.inserted ▸ h.last
  rcases hs with hs | rfl
  · exact (h.snapshots s hs).trans hlast
  · exact hlast

/-- What a reader gets is what the history has for it. -/
theorem Database.Ok.lookup (h : db.Ok ucmp history) {snapshot : Option Nat}
    (hsnapshot : ∀ s ∈ snapshot, s ∈ db.snapshots) (userKey : Bytes) :
    let r := db.readState.lookup ucmp snapshot userKey
    (r.status, r.value) = readAt ucmp history (snapshot.getD db.lastSequence) userKey := by
  have hreads : db.Reads (snapshot.getD db.lastSequence) := by
    cases snapshot with
    | none => exact .inr rfl
    | some s => exact .inl (hsnapshot s rfl)
  have hsmall := h.inserted ▸ h.small
  have hle := h.le_of_reads hreads
  have hlookup : db.readState.lookup ucmp snapshot userKey =
      db.readState.lookup ucmp (some (snapshot.getD db.lastSequence)) userKey := by
    cases snapshot with
    | none => rfl
    | some s => rfl
  rw [hlookup]
  exact h.stacked.lookup_eq_readAt (by omega) h.fit h.wrote (h.covers _ hreads userKey)

theorem Covers.congr {holds holds' : TableEntry → Prop} {s : Nat} {userKey : Bytes}
    (h : Covers ucmp history holds s userKey) (heq : ∀ e, holds' e ↔ holds e) :
    Covers ucmp history holds' s userKey := by
  intro place op hplace
  rcases h place op hplace with hold | ⟨hdeletion, hnone⟩
  · exact .inl ((heq _).mpr hold)
  · exact .inr ⟨hdeletion, fun e he => hnone e ((heq e).mp he)⟩

section Start

theorem Database.ok_new : Database.new.Ok ucmp [] := by
  have hempty : ∀ e, ¬ Database.new.readState.Holds e := by
    rintro e (he | ⟨imm, himm, -⟩ | ⟨level, f, hf, -⟩)
    · cases he
    · cases himm
    · cases hf
  refine ⟨⟨rfl, le_rfl, by decide, fun place op hat => (by cases hat),
    fun e he => absurd he (hempty e), fun place op _ hat => (by cases hat),
    fun s hs => (by cases hs), List.Pairwise.nil, fun s _ k place op hlast => ?_,
    fun job hjob => (by cases hjob)⟩, .new, .new,
    ⟨fun _ _ => List.Pairwise.nil, fun job hjob => (by cases hjob)⟩⟩
  exact absurd hlast.at_ (by simp)

end Start

section Write

/-- The entry of a new update is not equal to another one. -/
theorem Database.Recorded.compareKeys_ne (h : db.Recorded ucmp history)
    (hfits : (op.entry (db.inserted + 1)).Fits) {e : TableEntry} (he : db.readState.Holds e) :
    compareKeys ucmp (op.entry (db.inserted + 1)).entry e ≠ .eq := by
  intro heq
  obtain ⟨place, op', hat, rfl⟩ := h.wrote e he
  have hlt := (List.getElem?_eq_some_iff.mp hat).1
  have hfits' := h.fit place op' hat
  rw [compareKeys, Comparator.internalCompare, Ordering.then_eq_eq] at heq
  have htags := Nat.compare_eq_eq.mp heq.2
  rw [Op.internalTag_entry hfits, Op.internalTag_entry hfits', h.inserted] at htags
  have hcode : op.type.code ≤ 1 := by cases op.type <;> decide
  have hcode' : op'.type.code ≤ 1 := by cases op'.type <;> decide
  omega

/-- The entries after an insertion. -/
theorem Database.Recorded.holds_insert (h : db.Recorded ucmp history)
    (hfits : (op.entry (db.inserted + 1)).Fits) (e : TableEntry) :
    (db.insert ucmp op).readState.Holds e ↔
      e = (op.entry (db.inserted + 1)).entry ∨ db.readState.Holds e := by
  have hmem : e ∈ (db.insert ucmp op).mem ↔
      e = (op.entry (db.inserted + 1)).entry ∨ e ∈ db.mem :=
    mem_insertOrdered_iff fun b hb heq => absurd heq (h.compareKeys_ne hfits (.inl hb))
  constructor
  · rintro (he | he)
    · exact (hmem.mp he).imp_right .inl
    · exact .inr (.inr he)
  · rintro (he | he | he)
    · exact .inl (hmem.mpr (.inl he))
    · exact .inl (hmem.mpr (.inr he))
    · exact .inr he

theorem Database.Recorded.insert (h : db.Recorded ucmp history)
    (hfits : (op.entry (db.inserted + 1)).Fits) (hmax : db.inserted + 1 < kMaxSequenceNumber) :
    (db.insert ucmp op).Recorded ucmp (history ++ [op]) := by
  have hholds := h.holds_insert hfits
  have hat : (history ++ [op])[db.inserted]? = some op := by
    rw [h.inserted, List.getElem?_append_right le_rfl, Nat.sub_self]
    rfl
  have hplaces : ∀ (place : Nat) (op' : Op), (history ++ [op])[place]? = some op' →
      history[place]? = some op' ∨ (place = db.inserted ∧ op' = op) := by
    intro place op' hget
    rw [h.inserted]
    rcases Nat.lt_or_ge place history.length with hlt | hge
    · rw [List.getElem?_append_left hlt] at hget
      exact .inl hget
    · rw [List.getElem?_append_right hge] at hget
      obtain ⟨hlt, heq⟩ := List.getElem?_eq_some_iff.mp hget
      rw [List.length_singleton] at hlt
      simp only [List.getElem_singleton] at heq
      exact .inr ⟨by omega, heq.symm⟩
  have hlast := h.inserted ▸ h.last
  refine ⟨?_, h.last.trans (Nat.le_succ _), hmax, fun place op' hget => ?_, fun e he => ?_,
    fun place op' hle hget => ?_, h.snapshots, h.sorted, fun s hs k => ?_, h.readers⟩
  · rw [List.length_append, ← h.inserted]
    rfl
  · rcases hplaces place op' hget with hget | ⟨rfl, rfl⟩
    · exact h.fit place op' hget
    · exact hfits
  · rcases (hholds e).mp he with rfl | he
    · exact ⟨db.inserted, op, hat, rfl⟩
    · exact (h.wrote e he).append [op]
  · rcases hplaces place op' hget with hget | ⟨rfl, rfl⟩
    · exact mem_insertOrdered_of_mem (h.unpublished place op' hle hget)
    · exact mem_insertOrdered_self fun b hb heq => absurd heq (h.compareKeys_ne hfits (.inl hb))
  · intro place op' hplace
    have hs' := h.le_of_reads hs
    rcases h.covers s hs k place op' (hplace.of_append hs') with hold | ⟨hdeletion, hnone⟩
    · exact .inl ((hholds _).mpr (.inr hold))
    · refine .inr ⟨hdeletion, fun e he hseen => ?_⟩
      rcases (hholds e).mp he with rfl | he
      · -- no reader is behind the new update
        have hlt := ((Op.isSeen_entry hfits).mp hseen).2
        rw [h.inserted] at hlt
        omega
      · exact hnone e he hseen

theorem Database.Recorded.publish (h : db.Recorded ucmp history) :
    db.publish.Recorded ucmp history := by
  refine ⟨h.inserted, le_rfl, h.small, h.fit, h.wrote, fun place op hle hget => ?_,
    fun s hs => (h.snapshots s hs).trans h.last, h.sorted, fun s hs k => ?_,
    fun job hjob => ⟨(h.readers job hjob).1, (h.readers job hjob).2.trans h.last⟩⟩
  · have hlt := (List.getElem?_eq_some_iff.mp hget).1
    rw [← h.inserted] at hlt
    exact absurd hle (Nat.not_le.mpr hlt)
  · rcases hs with hs | rfl
    · exact h.covers s (.inl hs) k
    · intro place op hplace
      rcases Nat.lt_or_ge place db.lastSequence with hlt | hge
      · -- the update was published before, and the key has no later one
        rcases h.covers _ (.inr rfl) k place op (hplace.earlier hlt h.last) with hold | hnone
        · exact .inl hold
        · refine .inr ⟨hnone.1, fun e he hseen => ?_⟩
          obtain ⟨place', op', hget, rfl⟩ := h.wrote e he
          have hfits := h.fit place' op' hget
          obtain ⟨hfor, hlt'⟩ := (Op.isSeen_entry hfits).mp hseen
          rcases Nat.lt_or_ge place place' with hafter | hbefore
          · have hother := hplace.last place' op' hafter hlt' hget
            rw [hfor] at hother
            cases hother
          · refine hnone.2 _ he ((Op.isSeen_entry hfits).mpr ⟨hfor, ?_⟩)
            omega
      · exact .inl (.inl (h.unpublished place op hge hplace.at_))

theorem Database.Recorded.switchMemTable (h : db.Recorded ucmp history) (himm : db.imm = none)
    (hall : db.lastSequence = db.inserted) : db.switchMemTable.Recorded ucmp history := by
  have hholds : ∀ e, db.switchMemTable.readState.Holds e ↔ db.readState.Holds e := by
    intro e
    constructor
    · rintro (he | ⟨imm, himm', he⟩ | he)
      · cases he
      · obtain rfl := Option.some.inj himm'
        exact .inl he
      · exact .inr (.inr he)
    · rintro (he | ⟨imm, himm', he⟩ | he)
      · exact .inr (.inl ⟨db.mem, rfl, he⟩)
      · rw [show db.imm = some imm from himm'] at himm
        cases himm
      · exact .inr (.inr he)
  refine ⟨h.inserted, h.last, h.small, h.fit, fun e he => h.wrote e ((hholds e).mp he),
    fun place op hle hget => ?_, h.snapshots, h.sorted,
    fun s hs k => (h.covers s hs k).congr hholds, h.readers⟩
  have hlt := (List.getElem?_eq_some_iff.mp hget).1
  rw [← h.inserted, ← hall] at hlt
  exact absurd hle (Nat.not_le.mpr hlt)

/-- A step that changes neither the sources nor the history. -/
theorem Database.Recorded.frame (h : db.Recorded ucmp history) (hstate : db'.readState = db.readState)
    (hinserted : db'.inserted = db.inserted) (hsnapshots : ∀ s ∈ db'.snapshots, db.Reads s)
    (hsorted : db'.snapshots.Pairwise (· ≤ ·)) (hreaders : ∀ job ∈ db'.job,
      (∀ s ∈ db'.snapshots, job.smallestSnapshot ≤ s) ∧ job.smallestSnapshot ≤ db.lastSequence) :
    db'.Recorded ucmp history := by
  have hlast : db'.lastSequence = db.lastSequence := congrArg ReadState.lastSequence hstate
  have hmem : db'.mem = db.mem := congrArg ReadState.mem hstate
  refine ⟨hinserted.trans h.inserted, ?_, hinserted ▸ h.small, h.fit, ?_, ?_, fun s hs => ?_,
    hsorted, fun s hs => ?_, hlast ▸ hreaders⟩
  · rw [hlast, hinserted]
    exact h.last
  · rw [hstate]
    exact h.wrote
  · rw [hlast, hmem]
    exact h.unpublished
  · rw [hlast]
    rcases hsnapshots s hs with hs | rfl
    · exact h.snapshots s hs
    · exact le_rfl
  · rw [hstate]
    rcases hs with hs | rfl
    · exact h.covers s (hsnapshots s hs)
    · exact h.covers _ (.inr hlast)

theorem Database.Recorded.getSnapshot (h : db.Recorded ucmp history) :
    db.getSnapshot.Recorded ucmp history := by
  have hmem : ∀ s ∈ db.getSnapshot.snapshots, db.Reads s := fun s hs =>
    (List.mem_append.mp hs).imp_right List.mem_singleton.mp
  refine h.frame rfl rfl hmem ?_ fun job hjob => ⟨fun s hs => ?_, (h.readers job hjob).2⟩
  · refine List.pairwise_append.mpr ⟨h.sorted, List.pairwise_singleton _ _, fun s hs t ht => ?_⟩
    rw [List.mem_singleton.mp ht]
    exact h.snapshots s hs
  · rcases hmem s hs with hs | rfl
    · exact (h.readers job hjob).1 s hs
    · exact (h.readers job hjob).2

theorem Database.Recorded.releaseSnapshot (h : db.Recorded ucmp history) (number : Nat) :
    (db.releaseSnapshot number).Recorded ucmp history :=
  h.frame rfl rfl (fun _ hs => .inl (List.mem_of_mem_erase hs))
    (h.sorted.sublist List.erase_sublist) fun job hjob =>
      ⟨fun s hs => (h.readers job hjob).1 s (List.mem_of_mem_erase hs), (h.readers job hjob).2⟩

/-- A step that leaves the snapshots alone too. -/
theorem Database.Recorded.frame_snapshots (h : db.Recorded ucmp history)
    (hstate : db'.readState = db.readState) (hinserted : db'.inserted = db.inserted)
    (hsnapshots : db'.snapshots = db.snapshots) (hreaders : ∀ job ∈ db'.job,
      (∀ s ∈ db.snapshots, job.smallestSnapshot ≤ s) ∧ job.smallestSnapshot ≤ db.lastSequence) :
    db'.Recorded ucmp history :=
  h.frame hstate hinserted (fun _ hs => .inl (hsnapshots ▸ hs)) (hsnapshots ▸ h.sorted)
    (hsnapshots ▸ hreaders)

theorem Database.Recorded.openOutput (h : db.Recorded ucmp history) (hjob : db.job = some job) :
    (db.openOutput job).Recorded ucmp history := by
  refine h.frame_snapshots rfl rfl rfl fun job' hjob' => ?_
  obtain rfl := Option.some.inj hjob'
  exact h.readers job hjob

/-- The oldest reader of a database. -/
theorem Database.Recorded.smallestSnapshot_le (h : db.Recorded ucmp history) :
    (∀ s ∈ db.snapshots, smallestSnapshotOf db.lastSequence db.snapshots ≤ s) ∧
      smallestSnapshotOf db.lastSequence db.snapshots ≤ db.lastSequence := by
  have hsorted := h.sorted
  have hle := h.snapshots
  revert hsorted hle
  cases db.snapshots with
  | nil => exact fun _ _ => ⟨fun s hs => (by cases hs), le_rfl⟩
  | cons first rest =>
    intro hsorted hle
    refine ⟨fun s hs => ?_, hle first List.mem_cons_self⟩
    rcases List.mem_cons.mp hs with rfl | hs
    · exact le_rfl
    · exact (List.pairwise_cons.mp hsorted).1 s hs

/-- A job begins with the oldest reader. -/
theorem Database.Recorded.beginCompaction (h : db.Recorded ucmp history) (c : Compaction) :
    (db.beginCompaction c).Recorded ucmp history := by
  refine h.frame_snapshots rfl rfl rfl fun job hjob => ?_
  obtain rfl := Option.some.inj hjob
  exact h.smallestSnapshot_le

end Write

section Edit

variable {kept : Level → TableFile → Prop} {target : Level} {outs : List TableFile} {n' : Nat}

/-- A version can be changed so that readers stay covered. -/
theorem Database.Recorded.edit (h : db.Recorded ucmp history) (htakes : db.Takes db' outs)
    (hc : Edited ucmp db.tables db'.tables db.current db'.current n' kept target outs)
    (hinserted : db'.inserted = db.inserted) (hlast : db'.lastSequence = db.lastSequence)
    (hsnapshots : db'.snapshots = db.snapshots)
    (hcovers : ∀ s, db.Reads s → ∀ userKey, Covers ucmp history db'.readState.Holds s userKey)
    (hjob : ∀ job ∈ db'.job, db.job = some job) : db'.Recorded ucmp history := by
  refine ⟨hinserted.trans h.inserted, ?_, hinserted ▸ h.small, h.fit,
    fun e he => h.wrote e (htakes.holds hc he), ?_, ?_, hsnapshots ▸ h.sorted,
    fun s hs => hcovers s ?_, fun job hmem => ?_⟩
  · rw [hlast, hinserted]
    exact h.last
  · rw [hlast, htakes.mem]
    exact h.unpublished
  · rw [hsnapshots, hlast]
    exact h.snapshots
  · rwa [Database.Reads, hsnapshots, hlast] at hs
  · rw [hsnapshots, hlast]
    exact h.readers job (hjob job hmem)

/-- The immutable memtable becomes a table. -/
theorem Database.Ok.compactMemTable (h : db.Ok ucmp history) (himm : db.imm = some imm) :
    (db.compactMemTable ucmp maxFileSize fileSize imm).Recorded ucmp history := by
  have hstream := h.ranged.imm imm himm
  cases hfirst : imm.head? with
  | none =>
    -- an empty memtable only goes away
    obtain rfl := List.head?_eq_none_iff.mp hfirst
    refine h.edit (Database.takes_nil rfl fun imm himm' => (by cases himm'))
      (.refl h.ranged.version) rfl rfl rfl
      (fun s hs userKey => (h.covers s hs userKey).congr fun e => ?_) fun job hjob => hjob
    constructor
    · rintro (he | ⟨imm, himm', he⟩ | he)
      · exact .inl he
      · cases himm'
      · exact .inr (.inr he)
    · rintro (he | ⟨imm, himm', he⟩ | he)
      · exact .inl he
      · obtain rfl := Option.some.inj (himm.symm.trans himm')
        cases he
      · exact .inr (.inr he)
  | some first =>
    have hlast := List.getLast?_eq_some_getLast (List.ne_nil_of_mem (List.mem_of_head? hfirst))
    have hc := h.ranged.version.edited_flush maxFileSize fileSize hstream hfirst hlast
    rw [Database.compactMemTable_eq hfirst hlast]
    refine h.edit (Database.takes_flushTo himm rfl) hc rfl rfl rfl
      (fun s hs userKey => (h.covers s hs userKey).congr fun e =>
        ⟨(Database.takes_flushTo himm rfl).holds hc, ?_⟩) fun job hjob => hjob
    rintro (he | ⟨imm', himm', he⟩ | ⟨level, f, hf, he⟩)
    · exact .inl he
    · obtain rfl := Option.some.inj (himm.symm.trans himm')
      refine .inr (.inr ⟨_, _, (hc.mem _ _).mpr (.inr ⟨rfl, List.mem_singleton_self _⟩), ?_⟩)
      change e ∈ (Function.update db.tables db.nextFileNumber (.ok, imm) db.nextFileNumber).2
      rwa [Function.update_self]
    · refine .inr (.inr ⟨level, f, (hc.mem level f).mpr (.inl ⟨hf, trivial⟩), ?_⟩)
      change e ∈ (Function.update db.tables db.nextFileNumber (.ok, imm) f.number).2
      rwa [hc.tables level f hf trivial]

/-- A file is moved to the next level. -/
theorem Database.Ok.moveFile (h : db.Ok ucmp history) (hidle : db.job = none)
    (htakes : c.TakesFrom ucmp db.current) (hfile : c.inputs0 = [f]) :
    (db.moveFile ucmp c f).Recorded ucmp history := by
  have hc := h.ranged.version.edited_move htakes hfile
  have hf : f ∈ db.current.files c.level := htakes.selected.sublist.subset (by rw [hfile]; simp)
  refine h.edit (Database.takes_moveFile hf) hc rfl rfl rfl
    (fun s hs userKey => (h.covers s hs userKey).congr fun e =>
      ⟨(Database.takes_moveFile hf).holds hc, ?_⟩) fun job hjob => hjob
  refine Or.imp_right (Or.imp_right ?_)
  rintro ⟨level, g, hg, he⟩
  by_cases hmoved : level = c.level ∧ g.number = f.number
  · obtain ⟨-, rfl⟩ := h.ranged.version.unique level c.level g f hg hf hmoved.2
    exact ⟨nextLevel c.level, g, (hc.mem _ g).mpr (.inr ⟨rfl, List.mem_singleton_self g⟩), he⟩
  · exact ⟨level, g, (hc.mem level g).mpr (.inl ⟨hg, hmoved⟩), he⟩

end Edit

section Readers

/-- What a reader comes across besides the inputs of a job. -/
def Job.Rest (db : Database) (job : Job) (e : TableEntry) : Prop :=
  e ∈ db.mem ∨ (∃ imm ∈ db.imm, e ∈ imm) ∨ ∃ level, ∃ g ∈ db.current.files level,
    ¬ job.compaction.IsInput level g ∧ e ∈ (db.tables g.number).2

theorem Job.Ranged.holds_iff (hjob : job.Ranged ucmp db) : db.readState.Holds e ↔
    job.Rest db e ∨ e ∈ job.compaction.mergedInput ucmp db.tables := by
  rw [hjob.takes.mem_mergedInput hjob.base]
  constructor
  · rintro (he | he | ⟨level, f, hf, he⟩)
    · exact .inl (.inl he)
    · exact .inl (.inr (.inl he))
    · by_cases hinput : job.compaction.IsInput level f
      · exact .inr ⟨level, f, hinput, he⟩
      · exact .inl (.inr (.inr ⟨level, f, hf, hinput, he⟩))
  · rintro ((he | he | ⟨level, f, hf, -, he⟩) | ⟨level, f, hinput, he⟩)
    · exact .inl he
    · exact .inr (.inl he)
    · exact .inr (.inr ⟨level, f, hf, he⟩)
    · exact .inr (.inr ⟨level, f, hjob.stays _ f (hjob.takes.mem_files hinput), he⟩)

/-- Afterwards the inputs are gone, and what is kept of them is there. -/
theorem Job.Written.holds_iff (hwritten : job.Written ucmp db st)
    (h : db.current.Ranged ucmp db.tables db.nextFileNumber) (hjob : job.Ranged ucmp db) :
    (db.install ucmp st).readState.Holds e ↔
      job.Rest db e ∨ e ∈ survivors ucmp job.smallestSnapshot .init job.compaction
        (job.compaction.mergedInput ucmp db.tables) := by
  have hc := hwritten.edited h hjob
  rw [← hwritten.results.written, List.mem_flatMap]
  constructor
  · rintro (he | he | ⟨level, f, hf, he⟩)
    · exact .inl (.inl he)
    · exact .inl (.inr (.inl he))
    · have he : e ∈ ((db.install ucmp st).tables f.number).2 := he
      rcases (hc.mem level f).mp hf with ⟨hf, hkept⟩ | ⟨-, hf⟩
      · rw [hwritten.tables_kept hjob hf] at he
        exact .inl (.inr (.inr ⟨level, f, hf, hkept, he⟩))
      · obtain ⟨p, hp, rfl⟩ := List.mem_map.mp hf
        rw [hwritten.stored hjob p hp] at he
        exact .inr ⟨p, hp, he⟩
  · rintro ((he | he | ⟨level, f, hf, hkept, he⟩) | ⟨p, hp, he⟩)
    · exact .inl he
    · exact .inr (.inl he)
    · refine .inr (.inr ⟨level, f, (hc.mem level f).mpr (.inl ⟨hf, hkept⟩), ?_⟩)
      change e ∈ ((db.install ucmp st).tables f.number).2
      rw [hwritten.tables_kept hjob hf]
      exact he
    · refine .inr (.inr ⟨nextLevel job.compaction.level, _,
        (hc.mem _ _).mpr (.inr ⟨rfl, List.mem_map_of_mem hp⟩), ?_⟩)
      change e ∈ ((db.install ucmp st).tables p.1.number).2
      rw [hwritten.stored hjob p hp]
      exact he

/-- What a reader comes across besides the inputs is newer than they are, or below the outputs. -/
theorem Database.Ok.rest_newer (h : db.Ok ucmp history) (hjob : db.job = some job)
    (he : job.Rest db e)
    (he' : e' ∈ job.compaction.mergedInput ucmp db.tables) :
    NewerThan ucmp [e] [e'] ∨ ∃ level : Level, job.compaction.level.val + 2 ≤ level.val ∧
      ∃ f ∈ job.compaction.inputVersion.files level, e ∈ (db.tables f.number).2 := by
  have hranged := h.ranged.job job hjob
  obtain ⟨level', f, hinput, he'⟩ := (hranged.takes.mem_mergedInput hranged.base).mp he'
  have hf := hranged.stays level' f (hranged.takes.mem_files hinput)
  have hone : ∀ {entries : List TableEntry}, e ∈ entries →
      NewerThan ucmp entries (db.tables f.number).2 → NewerThan ucmp [e] [e'] := by
    intro entries he hnewer a ha b hb
    rw [List.mem_singleton.mp ha, List.mem_singleton.mp hb]
    exact hnewer e he e' he'
  rcases he with he | ⟨imm, himm, he⟩ | ⟨level, g, hg, hkept, he⟩
  · exact .inl (hone he (h.ranged.memTable level' f hf))
  · exact .inl (hone he (h.ranged.immTable imm himm level' f hf))
  · rcases (h.aged.job job hjob).newer_or_below hranged h.ranged.version (h.apart.job job hjob) hg
      hkept hinput with hnewer | ⟨hbelow, hg⟩
    · exact .inl (hone he hnewer)
    · exact .inr ⟨level, hbelow, g, hg, he⟩

/-- The readers of a job are not older than its snapshot. -/
theorem Database.Recorded.reader_le (h : db.Recorded ucmp history) (hjob : db.job = some job)
    {s : Nat} (hs : db.Reads s) : job.smallestSnapshot ≤ s := by
  rcases hs with hs | rfl
  · exact (h.readers job hjob).1 s hs
  · exact (h.readers job hjob).2

theorem Job.Ranged.sortedBelow (hjob : job.Ranged ucmp db) : job.compaction.SortedBelow ucmp := by
  intro level hlevel
  refine hjob.base.sortedLevel ?_
  rintro rfl
  exact absurd hlevel (Nat.not_succ_le_zero _)

/-- The merged input has the last update of a key as the newest version, where it has it. -/
theorem Database.Recorded.newestSeen_input (h : db.Recorded ucmp history)
    (hjob : job.Ranged ucmp db) {s place : Nat} {userKey : Bytes} (hplace : LastAt (Op.isFor ucmp userKey) history s place op)
    (hmem : (op.entry (place + 1)).entry ∈ job.compaction.mergedInput ucmp db.tables) :
    newestSeen ucmp userKey s (job.compaction.mergedInput ucmp db.tables) =
      some (op.entry (place + 1)).entry := by
  have hseen := (Op.isSeen_entry (h.fit place op hplace.at_)).mpr ⟨hplace.ofKey, hplace.lt⟩
  have hhighest := (hjob.takes.internalStream hjob.base).highest userKey s
  cases hnewest : newestSeen ucmp userKey s (job.compaction.mergedInput ucmp db.tables) with
  | none => exact absurd hseen (newestSeen_eq_none.mp hnewest _ hmem)
  | some e =>
    rw [hnewest] at hhighest
    have he := hjob.holds_iff.mpr (.inr (mem_of_newestSeen hnewest))
    rcases (h.wrote e he).eq_or_lt h.fit hplace (isSeen_of_newestSeen hnewest) with rfl | hlt
    · rfl
    · exact absurd (hhighest.2 _ ⟨hmem, hseen⟩) (Nat.not_le.mpr hlt)

/-- The readers stay covered when the results of a job are installed. -/
theorem Database.Ok.covers_install (h : db.Ok ucmp history) (hjob : db.job = some job)
    (hwritten : job.Written ucmp db st) {s : Nat} (hs : db.Reads s) (userKey : Bytes) :
    Covers ucmp history (db.install ucmp st).readState.Holds s userKey := by
  intro place op hplace
  have hranged := h.ranged.job job hjob
  have hinstalled : ∀ {e}, (db.install ucmp st).readState.Holds e ↔ _ :=
    hwritten.holds_iff h.ranged.version hranged
  have hfits := h.fit place op hplace.at_
  have hseen := (Op.isSeen_entry hfits).mpr ⟨hplace.ofKey, hplace.lt⟩
  have hsub : ∀ e, (db.install ucmp st).readState.Holds e → db.readState.Holds e := fun e he =>
    hranged.holds_iff.mpr ((hinstalled.mp he).imp_right fun hkept =>
      (survivors_sublist _).subset hkept)
  rcases h.covers s hs userKey place op hplace with hheld | ⟨hdeletion, hnone⟩
  · rcases hranged.holds_iff.mp hheld with hrest | hmem
    · exact .inl (hinstalled.mpr (.inl hrest))
    · have hnewest := h.newestSeen_input hranged hplace hmem
      have hstream := hranged.takes.internalStream hranged.base
      have hsmall : job.smallestSnapshot < kMaxSequenceNumber :=
        ((h.readers job hjob).2.trans h.last).trans_lt h.small
      rcases newestSeen_survivors hsmall (h.reader_le hjob hs) hranged.sortedBelow hstream.increasing
        hstream.parsed (fun e _ => passed_zero hranged.takes.start) KeyState.not_hides_init with
        hsame | ⟨hgone, hbase, e, ikey, hnewest', hparse, hdeletion⟩
      · rw [hnewest] at hsame
        exact .inl (hinstalled.mpr (.inr (mem_of_newestSeen hsame)))
      · obtain rfl := Option.some.inj (hnewest'.symm.trans hnewest)
        rw [Op.parse_entry hfits] at hparse
        obtain rfl := Option.some.inj hparse
        refine .inr ⟨hdeletion, fun e hheld hseen' => ?_⟩
        rcases hinstalled.mp hheld with hrest | hkept
        · rcases h.rest_newer hjob hrest hmem with hnewer | ⟨level, hlevel, f, hf, he⟩
          · -- what is newer than the last update is not seen
            have hlt := hnewer.internalTag_lt (List.mem_singleton_self e)
              (List.mem_singleton_self _) hseen' hseen
            rcases (h.wrote e (hsub e hheld)).eq_or_lt h.fit hplace hseen' with rfl | hlt'
            · exact absurd hlt (Nat.lt_irrefl _)
            · exact absurd hlt (Nat.lt_asymm hlt')
          · -- the deletion was dropped because no deeper level has the key
            have htable := hranged.base.tableOf level f hf
            have heq := ofKey_iff.mp (isSeen_iff_ofKey.mp hseen').1
            refine hbase level hlevel f hf ⟨?_, ?_⟩
            · refine not_gt_trans (user_not_gt_of_internal (htable.smallest_le he)) ?_
              rw [heq]
              exact Ordering.noConfusion
            · refine not_gt_trans ?_ (user_not_gt_of_internal (htable.le_largest he))
              rw [Std.OrientedCmp.eq_symm heq]
              exact Ordering.noConfusion
        · exact newestSeen_eq_none.mp hgone e hkept hseen'
  · exact .inr ⟨hdeletion, fun e he => hnone e (hsub e he)⟩

/-- The results of a job are installed. -/
theorem Database.Ok.install (h : db.Ok ucmp history) (hjob : db.job = some job)
    (hwritten : job.Written ucmp db st) : (db.install ucmp st).Recorded ucmp history :=
  h.edit (hwritten.takes (h.ranged.job job hjob))
    (hwritten.edited h.ranged.version (h.ranged.job job hjob)) rfl rfl rfl
    (fun _ hs userKey => h.covers_install hjob hwritten hs userKey) fun job hjob => (by cases hjob)

end Readers

end WiscKey
