import WiscKey.Library.Runs
import WiscKey.Version.ManifestReplay

/-!
# Runs over a manifest

A database is opened, edited and restarted in any order. What its manifest holds is a
history of edits that leads to the version set of the last edit.
-/

namespace WiscKey

/-- A version set with its disk, and the numbers of the tables that edits added so far. -/
structure ManifestState where
  versions : VersionSet
  disk : Disk
  tables : List Nat

/-- What happens to a version set. -/
inductive ManifestAction
  | newFileNumber
  | markFileNumberUsed (number : Nat)
  | setLastSequence (s : Nat)
  | logAndApply (edit : VersionEdit Bytes)
  | restart (options : Options) (appendable : Bool)

/-- The sizes and keys of a file fit their codings. -/
def FileMetaData.Fits (f : FileMetaData Bytes) : Prop :=
  f.number < 2 ^ 64 ∧ f.fileSize < 2 ^ 64 ∧ f.smallest.length < 2 ^ 32 ∧ f.largest.length < 2 ^ 32

namespace ManifestState

variable (dbname : Bytes) (ucmp : Comparator)

/-- An edit as the callers of `LogAndApply` make them. It may delete any file. An added file has a
number that no table had, or it is in the version and moves to a level that does not have it. -/
structure Legal (s : ManifestState) (edit : VersionEdit Bytes) : Prop where
  fits : edit.Fits
  comparator : edit.comparator = none ∨ edit.comparator = some ucmp.name
  logNumber : ∀ n, edit.logNumber = some n →
    s.versions.logNumber ≤ n ∧ n < s.versions.nextFileNumber
  prevLogNumber : ∀ n, edit.prevLogNumber = some n → n < s.versions.nextFileNumber
  distinct : ∀ p ∈ edit.newFiles, ∀ q ∈ edit.newFiles, p.2.number = q.2.number → p = q
  added : ∀ p ∈ edit.newFiles,
    p.2.number ∉ s.tables ∧ p.2.number < s.versions.nextFileNumber ∨
      (∃ level, p.2 ∈ s.versions.current.files level) ∧ p.2 ∉ s.versions.current.files p.1

/-- When an action may happen; numbers do not run out. -/
def Enabled (s : ManifestState) : ManifestAction → Prop
  | .newFileNumber => s.versions.nextFileNumber + 2 < 2 ^ 64
  | .markFileNumberUsed number => number + 2 < 2 ^ 64
  | .setLastSequence n => s.versions.lastSequence ≤ n ∧ n < 2 ^ 64
  | .logAndApply edit => s.Legal ucmp edit
  | .restart _ _ => s.versions.nextFileNumber + 2 < 2 ^ 64

/-- The state behind an action. -/
def next (s : ManifestState) : ManifestAction → ManifestState
  | .newFileNumber => { s with versions := s.versions.newFileNumber.2 }
  | .markFileNumberUsed number => { s with versions := s.versions.markFileNumberUsed number }
  | .setLastSequence n => { s with versions := s.versions.setLastSequence n }
  | .logAndApply edit =>
    let applied := s.versions.logAndApply dbname ucmp s.disk edit
    ⟨applied.1, applied.2, s.tables ++ edit.newFiles.map fun p => p.2.number⟩
  | .restart options appendable =>
    { s with versions :=
      (VersionSet.recover dbname ucmp options appendable .init s.disk).versions }

/-- A step. -/
def Step (s : ManifestState) (a : ManifestAction) (s' : ManifestState) : Prop :=
  s.Enabled ucmp a ∧ s' = s.next dbname ucmp a

/-- A new database, opened. -/
def opened (options : Options) (appendable : Bool) : ManifestState :=
  next dbname ucmp ⟨.init, newDB dbname ucmp, []⟩ (.restart options appendable)

end ManifestState

namespace VersionSet

open Recovering

variable {dbname : Bytes} {ucmp : Comparator}

/-- A history of edits that builds the version of a version set. -/
structure History (ucmp : Comparator) (edits : List (VersionEdit Bytes)) (v : VersionSet)
    (tables : List Nat) : Prop where
  readable : ∀ e ∈ edits, Readable ucmp e
  first : ∃ e rest, edits = e :: rest ∧ e.comparator = some ucmp.name
  files : (replay ucmp edits).builder.saveTo .empty = v.current
  numbered : Numbered fun level => ((replay ucmp edits).builder level).addedFiles.toList
  tables : ∀ level, ∀ f ∈ ((replay ucmp edits).builder level).addedFiles.toList,
    f.number ∈ tables
  fits : ∀ level, ∀ f ∈ ((replay ucmp edits).builder level).addedFiles.toList, f.Fits

/-- A history that leads to all that a version set keeps. -/
structure Logged (ucmp : Comparator) (edits : List (VersionEdit Bytes)) (v : VersionSet)
    (tables : List Nat) : Prop extends History ucmp edits v tables where
  pointers : (replay ucmp edits).compactPointer = v.compactPointer
  nextFile : (replay ucmp edits).nextFile = some v.nextFileNumber
  lastSequence : (replay ucmp edits).lastSequence = some v.lastSequence
  logNumber : (replay ucmp edits).logNumber = some v.logNumber
  prevLogNumber : (replay ucmp edits).prevLogNumber.getD 0 = v.prevLogNumber

/-- The numbers in use are below the next one, and all of them fit their types. -/
structure NumbersOk (v : VersionSet) (tables : List Nat) : Prop where
  tables : ∀ n ∈ tables, n < v.nextFileNumber
  manifest : v.manifestFileNumber < v.nextFileNumber
  log : v.logNumber < v.nextFileNumber
  prevLog : v.prevLogNumber < v.nextFileNumber
  next : v.nextFileNumber + 1 < 2 ^ 64
  sequence : v.lastSequence < 2 ^ 64
  pointers : ∀ level, (v.compactPointer level).length < 2 ^ 32

section Recover

variable (options : Options) (appendable : Bool) {disk : Disk} {m : Nat} {w : Log.Writer}
  {edits : List (VersionEdit Bytes)} {saved : VersionSet} {tables : List Nat}

/-- What is recovered of a version set. -/
def recovered (saved : VersionSet) : VersionSet :=
  { saved with
    nextFileNumber := (saved.nextFileNumber + 1) % 2 ^ 64
    manifestFileNumber := saved.nextFileNumber
    descriptorLog := none }

/-- What is recovered where the descriptor is used again. -/
def reusing (dbname : Bytes) (m : Nat) (w : Log.Writer) (saved : VersionSet) : VersionSet :=
  { recovered saved with
    manifestFileNumber := m
    descriptorLog := some (descriptorFileName dbname m, Log.Writer.ofFile w.dest) }

@[simp] theorem current_markFileNumberUsed (v : VersionSet) (n : Nat) :
    (v.markFileNumberUsed n).current = v.current := by
  unfold markFileNumberUsed
  split <;> rfl

@[simp] theorem descriptorLog_markFileNumberUsed (v : VersionSet) (n : Nat) :
    (v.markFileNumberUsed n).descriptorLog = v.descriptorLog := by
  unfold markFileNumberUsed
  split <;> rfl

@[simp] theorem compactPointer_markFileNumberUsed (v : VersionSet) (n : Nat) :
    (v.markFileNumberUsed n).compactPointer = v.compactPointer := by
  unfold markFileNumberUsed
  split <;> rfl

theorem reuseManifest_cases (v : VersionSet) (hm : m ≤ kMaxUint64) (contents : Bytes) :
    let dscname := descriptorFileName dbname m
    v.reuseManifest options appendable dscname (manifestText ++ paddedDecimal m) contents = none ∨
      v.reuseManifest options appendable dscname (manifestText ++ paddedDecimal m) contents =
        some { v with
          descriptorLog := some (dscname, Log.Writer.ofFile contents)
          manifestFileNumber := m } := by
  intro dscname
  unfold reuseManifest
  rw [parseFileName_descriptor hm]
  split
  · exact .inl rfl
  · by_cases hlarge : options.maxFileSize ≤ contents.length ∨ ¬ appendable
    · exact .inl (if_pos hlarge)
    · exact .inr (if_neg hlarge)

/-- Recovery from a descriptor with a history gives back what the history led to. -/
theorem recover_logged (hlogged : Logged ucmp edits saved tables)
    (hholds : w.Holds (edits.map VersionEdit.encodeTo)) (hm : m ≤ kMaxUint64)
    (hcurrent : disk.read (currentFileName dbname) =
      some (manifestText ++ (paddedDecimal m ++ [10])))
    (hdescriptor : disk.read (descriptorFileName dbname m) = some w.dest) :
    recover dbname ucmp options appendable .init disk = ⟨recovered saved, .ok, true⟩ ∨
      recover dbname ucmp options appendable .init disk =
        ⟨reusing dbname m w saved, .ok, false⟩ := by
  have hlast : (manifestText ++ (paddedDecimal m ++ [10])).getLast? = some 10 := by
    simp [List.getLast?_append]
  have hbase : (manifestText ++ (paddedDecimal m ++ [10])).dropLast =
      manifestText ++ paddedDecimal m := by
    rw [← List.append_assoc, List.dropLast_concat]
  have hreplay := forRecords_holds hholds hlogged.readable
  have hname : dbname ++ (ascii ['/'] ++ (manifestText ++ paddedDecimal m)) =
      descriptorFileName dbname m := rfl
  unfold recover
  simp only [hcurrent, hlast, hbase, hname, hdescriptor, hreplay, status_replay, missingEntry,
    hlogged.nextFile, hlogged.lastSequence, hlogged.logNumber, hlogged.pointers]
  rw [if_neg (not_not.mpr rfl), if_neg (not_not.mpr rfl), if_neg]
  · generalize hv : VersionSet.mk _ _ _ _ _ _ _ _ = v
    have hrecovered : v = recovered saved := by
      subst hv
      simp [recovered, hlogged.files, hlogged.prevLogNumber, init]
    subst hrecovered
    rcases reuseManifest_cases options appendable (recovered saved) hm w.dest
      with hnone | hsome
    · exact .inl (by rw [hnone])
    · exact .inr (by rw [hsome]; rfl)
  · simp

/-- A comparator of another name refuses the descriptor. -/
theorem recover_other {other : Comparator} (hhistory : History ucmp edits saved tables)
    (hholds : w.Holds (edits.map VersionEdit.encodeTo)) (hother : ucmp.name ≠ other.name)
    (hcurrent : disk.read (currentFileName dbname) =
      some (manifestText ++ (paddedDecimal m ++ [10])))
    (hdescriptor : disk.read (descriptorFileName dbname m) = some w.dest) :
    ∃ msg, (recover dbname other options appendable .init disk).status =
      .invalidArgument msg := by
  obtain ⟨edit, rest, rfl, hname⟩ := hhistory.first
  have hfits := (hhistory.readable edit (List.mem_cons_self ..)).1
  obtain ⟨msg, hmsg⟩ := forRecords_other hholds hfits hname hother
  have hlast : (manifestText ++ (paddedDecimal m ++ [10])).getLast? = some 10 := by
    simp [List.getLast?_append]
  have hbase : (manifestText ++ (paddedDecimal m ++ [10])).dropLast =
      manifestText ++ paddedDecimal m := by
    rw [← List.append_assoc, List.dropLast_concat]
  have hdsc : dbname ++ (ascii ['/'] ++ (manifestText ++ paddedDecimal m)) =
      descriptorFileName dbname m := rfl
  refine ⟨msg, ?_⟩
  unfold recover
  simp only [hcurrent, hlast, hbase, hdsc, hdescriptor]
  rw [if_neg (not_not.mpr rfl), if_pos (by simp [hmsg])]
  exact hmsg

end Recover

section Apply

variable {edits : List (VersionEdit Bytes)} {v v' : VersionSet} {tables : List Nat}

/-- The files of a version that a history builds are among those that it added. -/
theorem History.mem_added (h : History ucmp edits v tables) {level : Level}
    {f : FileMetaData Bytes} (hf : f ∈ v.current.files level) :
    f ∈ ((replay ucmp edits).builder level).addedFiles.toList := by
  rw [← h.files, Builder.mem_saveTo] at hf
  exact hf.1.resolve_left (List.not_mem_nil)

theorem History.increasing (h : History ucmp edits v tables) (level : Level) :
    Increasing (bySmallestKey ucmp.internalCompare) (v.current.files level) := by
  rw [← h.files]
  refine Builder.increasing_saveTo _ level List.Pairwise.nil fun f _ g hg => ?_
  cases hg

/-- A history goes on with an edit. -/
theorem History.append (h : History ucmp edits v tables) {edit : VersionEdit Bytes}
    (hread : Readable ucmp edit)
    (hdistinct : ∀ p ∈ edit.newFiles, ∀ q ∈ edit.newFiles, p.2.number = q.2.number → p = q)
    (hadded : ∀ p ∈ edit.newFiles, p.2.number ∉ tables ∨
      (∃ level, p.2 ∈ v.current.files level) ∧ p.2 ∉ v.current.files p.1)
    (hv : v'.current = ((Builder.init ucmp.internalCompare).apply edit).saveTo v.current) :
    History ucmp (edits ++ [edit]) v' (tables ++ edit.newFiles.map fun p => p.2.number) := by
  have hknown : ∀ level level' f g,
      f ∈ ((replay ucmp edits).builder level).addedFiles.toList ∨ (level, f) ∈ edit.newFiles →
      g ∈ ((replay ucmp edits).builder level').addedFiles.toList ∨ (level', g) ∈ edit.newFiles →
      f.number = g.number → f = g := by
    have hmixed : ∀ level level' f g,
        f ∈ ((replay ucmp edits).builder level).addedFiles.toList →
        (level', g) ∈ edit.newFiles → f.number = g.number → f = g := by
      intro level level' f g hf hg hnumber
      rcases hadded _ hg with hfresh | ⟨⟨at_, hat⟩, -⟩
      · exact absurd (hnumber ▸ h.tables level f hf) hfresh
      · exact h.numbered level at_ f g hf (h.mem_added hat) hnumber
    rintro level level' f g (hf | hf) (hg | hg) hnumber
    · exact h.numbered level level' f g hf hg hnumber
    · exact hmixed level level' f g hf hg hnumber
    · exact (hmixed level' level g f hg hf hnumber.symm).symm
    · exact (Prod.mk.inj (hdistinct _ hf _ hg hnumber)).2
  have hmem : ∀ level f, f ∈ ((replay ucmp (edits ++ [edit])).builder level).addedFiles.toList ↔
      f ∈ ((replay ucmp edits).builder level).addedFiles.toList ∨ (level, f) ∈ edit.newFiles := by
    intro level f
    rw [replay_append]
    exact Builder.mem_addedFiles_apply _ level edit (fun f g => hknown level level f g) f
  constructor
  · intro e he
    rcases List.mem_append.mp he with he | he
    · exact h.readable e he
    · rw [List.mem_singleton.mp he]
      exact hread
  · obtain ⟨e, rest, rfl, hname⟩ := h.first
    exact ⟨e, rest ++ [edit], rfl, hname⟩
  · have hbuild := Builder.saveTo_apply (replay ucmp edits).builder edit
      (fun level f g => hknown level level f g) fun level f hf => by
        rw [h.files]
        rcases hadded _ hf with hfresh | ⟨-, hnew⟩
        · exact fun hmem => hfresh (h.tables level f (h.mem_added hmem))
        · exact hnew
    rw [replay_append, hv, ← h.files]
    exact hbuild.symm
  · intro level level' f g hf hg
    exact hknown level level' f g ((hmem level f).mp hf) ((hmem level' g).mp hg)
  · intro level f hf
    rcases (hmem level f).mp hf with hf | hf
    · exact List.mem_append_left _ (h.tables level f hf)
    · exact List.mem_append_right _ (List.mem_map.mpr ⟨_, hf, rfl⟩)
  · intro level f hf
    rcases (hmem level f).mp hf with hf | hf
    · exact h.fits level f hf
    · exact hread.1.newFiles _ hf

/-- A snapshot is a history of its own. -/
theorem History.snapshot (h : History ucmp edits v tables) (hcurrent : v'.current = v.current)
    (hpointers : ∀ level, (v'.compactPointer level).length < 2 ^ 32) :
    History ucmp [v'.snapshotEdit ucmp] v' tables := by
  have hnumbered : Numbered v'.current.files := by
    rw [hcurrent]
    intro level level' f g hf hg
    exact h.numbered level level' f g (h.mem_added hf) (h.mem_added hg)
  have hincreasing := h.increasing
  rw [← hcurrent] at hincreasing
  have hmem : ∀ level f, f ∈ ((replay ucmp [v'.snapshotEdit ucmp]).builder
      level).addedFiles.toList → f ∈ ((replay ucmp edits).builder level).addedFiles.toList := by
    intro level f hf
    have hfile := (mem_addedFiles_snapshot hnumbered).mp hf
    rw [hcurrent] at hfile
    exact h.mem_added hfile
  have hfits : (v'.snapshotEdit ucmp).Fits := by
    constructor
    · intro name hname
      cases hname
      exact ucmp.length_name
    · exact fun n hn => nomatch hn
    · exact fun n hn => nomatch hn
    · exact fun n hn => nomatch hn
    · exact fun n hn => nomatch hn
    · intro p hp
      obtain ⟨level, -, hlevel⟩ := List.mem_filterMap.mp hp
      split_ifs at hlevel
      cases hlevel
      exact hpointers level
    · exact fun p hp => nomatch hp
    · rintro ⟨level, f⟩ hf
      have hfile := mem_newFiles_snapshotEdit.mp hf
      rw [hcurrent] at hfile
      exact h.fits level f (h.mem_added hfile)
  constructor
  · intro e he
    rw [List.mem_singleton.mp he]
    exact ⟨hfits, .inr rfl⟩
  · exact ⟨_, [], rfl, rfl⟩
  · exact saveTo_snapshot hnumbered hincreasing
  · intro level level' f g hf hg
    exact h.numbered level level' f g (hmem level f hf) (hmem level' g hg)
  · exact fun level f hf => h.tables level f (hmem level f hf)
  · exact fun level f hf => h.fits level f (hmem level f hf)

end Apply

end VersionSet

end WiscKey
