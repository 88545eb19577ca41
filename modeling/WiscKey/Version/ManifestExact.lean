import WiscKey.Version.ManifestRun

/-!
# Manifest replay is exact

The invariant of a version set and its disk: the current descriptor holds a history that
leads to the version set as it was behind the last logged edit. Recovery from such a disk
gives that version set back, with a next file number above all numbers in use.
-/

namespace WiscKey.ManifestState

open VersionSet VersionSet.Recovering

variable {dbname : Bytes} {ucmp : Comparator}

/-- `saved` is the version set behind the last logged edit, `m` the number of the current
descriptor and `w` the last writer of its file. -/
structure Ok (dbname : Bytes) (ucmp : Comparator) (s : ManifestState) (saved : VersionSet)
    (edits : List (VersionEdit Bytes)) (m : Nat) (w : Log.Writer) : Prop where
  logged : Logged ucmp edits saved s.tables
  savedNumbers : NumbersOk saved s.tables
  numbers : NumbersOk s.versions s.tables
  next_le : saved.nextFileNumber ≤ s.versions.nextFileNumber
  descriptor_lt : m < saved.nextFileNumber
  holds : w.Holds (edits.map VersionEdit.encodeTo)
  readCurrent : s.disk.read (currentFileName dbname) =
    some (manifestText ++ (paddedDecimal m ++ [10]))
  readDescriptor : s.disk.read (descriptorFileName dbname m) = some w.dest
  opened : ∀ d, s.versions.descriptorLog = some d → d = (descriptorFileName dbname m, w)
  current : s.versions.current = saved.current
  compactPointer : s.versions.compactPointer = saved.compactPointer
  logNumber : s.versions.logNumber = saved.logNumber
  prevLogNumber : s.versions.prevLogNumber = saved.prevLogNumber

variable {s s' : ManifestState} {saved : VersionSet} {edits : List (VersionEdit Bytes)} {m : Nat}
  {w : Log.Writer}

/-- The edit of a new database leads to the version set as it is constructed. -/
theorem logged_newDB : Logged ucmp [newDBEdit ucmp] .init [] := by
  have hadded : ∀ level f, f ∉ ((replay ucmp [newDBEdit ucmp]).builder
      level).addedFiles.toList := fun level f hf => nomatch hf
  have hfits : (newDBEdit ucmp).Fits := by
    constructor
    · intro name hname
      cases hname
      exact ucmp.length_name
    · intro n hn
      cases hn
      decide
    · exact fun n hn => nomatch hn
    · intro n hn
      cases hn
      decide
    · intro n hn
      cases hn
      decide
    · exact fun p hp => nomatch hp
    · exact fun p hp => nomatch hp
    · exact fun p hp => nomatch hp
  constructor
  · constructor
    · intro e he
      rw [List.mem_singleton.mp he]
      exact ⟨hfits, .inr rfl⟩
    · exact ⟨_, [], rfl, rfl⟩
    · rfl
    · exact fun level _ f _ hf => absurd hf (hadded level f)
    · exact fun level f hf => absurd hf (hadded level f)
    · exact fun level f hf => absurd hf (hadded level f)
  · rfl
  · rfl
  · rfl
  · rfl
  · rfl

theorem ok_newDB : Ok dbname ucmp ⟨.init, newDB dbname ucmp, []⟩ .init [newDBEdit ucmp] 1
    ((Log.Writer.ofFile []).addRecord (newDBEdit ucmp).encodeTo) := by
  have hnumbers : NumbersOk .init [] := by
    refine ⟨(fun n hn => nomatch hn), ?_, ?_, ?_, ?_, ?_, ?_⟩ <;> decide
  refine ⟨logged_newDB, hnumbers, hnumbers, le_rfl, by decide, Log.Writer.holds_new.addRecord _,
    read_current_setCurrentFile dbname _ 1, ?_, fun d hd => (by cases hd), rfl, rfl, rfl, rfl⟩
  rw [newDB, read_descriptor_setCurrentFile]
  exact Disk.read_write_self ..

/-- A restart finds the version set of the last logged edit. -/
theorem Ok.restart (h : s.Ok dbname ucmp saved edits m w) (options : Options) (appendable : Bool)
    (hnext : s.versions.nextFileNumber + 2 < 2 ^ 64) :
    ∃ w', (s.next dbname ucmp (.restart options appendable)).Ok dbname ucmp saved edits m w' := by
  have hbelow := h.savedNumbers
  have hle := h.next_le
  have hm := h.descriptor_lt
  have hmod : (saved.nextFileNumber + 1) % 2 ^ 64 = saved.nextFileNumber + 1 :=
    Nat.mod_eq_of_lt (by omega)
  have hrecovered : NumbersOk (recovered saved) s.tables := by
    constructor
    · intro n hn
      exact (hbelow.tables n hn).trans (by simp only [recovered, hmod]; omega)
    · simp only [recovered, hmod]
      omega
    · exact hbelow.log.trans (by simp only [recovered, hmod]; omega)
    · exact hbelow.prevLog.trans (by simp only [recovered, hmod]; omega)
    · simp only [recovered, hmod]
      omega
    · exact hbelow.sequence
    · exact hbelow.pointers
  have hmax : m ≤ kMaxUint64 := by
    have hlt := hbelow.next
    unfold kMaxUint64
    omega
  have hnextLe : saved.nextFileNumber ≤ (recovered saved).nextFileNumber := by
    simp only [recovered, hmod]
    omega
  rcases recover_logged options appendable h.logged h.holds hmax h.readCurrent
    h.readDescriptor with hfresh | hreused
  · refine ⟨w, ?_⟩
    rw [next, hfresh]
    exact ⟨h.logged, hbelow, hrecovered, hnextLe, hm, h.holds, h.readCurrent, h.readDescriptor,
      fun d hd => (by cases hd), rfl, rfl, rfl, rfl⟩
  · refine ⟨Log.Writer.ofFile w.dest, ?_⟩
    rw [next, hreused]
    refine ⟨h.logged, hbelow, ?_, hnextLe, hm, h.holds.reopen, h.readCurrent, h.readDescriptor,
      fun d hd => ?_, rfl, rfl, rfl, rfl⟩
    · exact { hrecovered with manifest := hm.trans_le hnextLe }
    · cases hd
      rfl

/-- What no action but a logged edit changes. -/
theorem Ok.other (h : s.Ok dbname ucmp saved edits m w) {a : ManifestAction}
    (hstep : s.Step dbname ucmp a s') (ha : ∀ edit, a ≠ .logAndApply edit) :
    ∃ w', s'.Ok dbname ucmp saved edits m w' := by
  obtain ⟨henabled, rfl⟩ := hstep
  have hnumbers := h.numbers
  cases a with
  | newFileNumber =>
    have hmod : (s.versions.nextFileNumber + 1) % 2 ^ 64 = s.versions.nextFileNumber + 1 :=
      Nat.mod_eq_of_lt (Nat.lt_of_succ_lt henabled)
    refine ⟨w, { h with numbers := ⟨fun n hn => ?_, ?_, ?_, ?_, ?_, ?_, ?_⟩, next_le := ?_ }⟩
    all_goals simp only [next, newFileNumber, hmod]
    · exact (hnumbers.tables n hn).trans (Nat.lt_succ_self _)
    · exact hnumbers.manifest.trans (Nat.lt_succ_self _)
    · exact hnumbers.log.trans (Nat.lt_succ_self _)
    · exact hnumbers.prevLog.trans (Nat.lt_succ_self _)
    · exact henabled
    · exact hnumbers.sequence
    · exact hnumbers.pointers
    · exact h.next_le.trans (Nat.le_succ _)
  | markFileNumberUsed number =>
    have hmod : (number + 1) % 2 ^ 64 = number + 1 :=
      Nat.mod_eq_of_lt (Nat.lt_of_succ_lt henabled)
    by_cases hused : s.versions.nextFileNumber ≤ number
    · have hlt : s.versions.nextFileNumber < number + 1 := Nat.lt_succ_of_le hused
      refine ⟨w, ?_⟩
      rw [next, markFileNumberUsed, if_pos hused, hmod]
      refine { h with numbers := ⟨fun n hn => ?_, ?_, ?_, ?_, ?_, ?_, ?_⟩, next_le := ?_ }
      · exact (hnumbers.tables n hn).trans hlt
      · exact hnumbers.manifest.trans hlt
      · exact hnumbers.log.trans hlt
      · exact hnumbers.prevLog.trans hlt
      · exact henabled
      · exact hnumbers.sequence
      · exact hnumbers.pointers
      · exact h.next_le.trans hlt.le
    · refine ⟨w, ?_⟩
      rw [next, markFileNumberUsed, if_neg hused]
      exact h
  | setLastSequence n =>
    exact ⟨w, { h with numbers := { hnumbers with sequence := henabled.2 } }⟩
  | logAndApply edit => exact absurd rfl (ha edit)
  | restart options appendable => exact h.restart options appendable henabled

/-- A logged edit fits its coding. -/
theorem Ok.readable_fillEdit (h : s.Ok dbname ucmp saved edits m w) {edit : VersionEdit Bytes}
    (hlegal : s.Legal ucmp edit) : Readable ucmp (s.versions.fillEdit edit) := by
  have hnumbers := h.numbers
  have hnext := hnumbers.next
  refine ⟨⟨hlegal.fits.comparator, ?_, ?_, ?_, ?_, hlegal.fits.compactPointers,
    hlegal.fits.deletedFiles, hlegal.fits.newFiles⟩, hlegal.comparator⟩
  · intro n hn
    cases hn
    cases hlog : edit.logNumber with
    | none => exact hnumbers.log.trans (Nat.lt_of_succ_lt hnext)
    | some n => exact hlegal.fits.logNumber n hlog
  · intro n hn
    cases hn
    cases hlog : edit.prevLogNumber with
    | none => exact hnumbers.prevLog.trans (Nat.lt_of_succ_lt hnext)
    | some n => exact hlegal.fits.prevLogNumber n hlog
  · intro n hn
    cases hn
    exact Nat.lt_of_succ_lt hnext
  · intro n hn
    cases hn
    exact hnumbers.sequence

/-- The version set behind a logged edit is what the new history leads to. -/
theorem Ok.numbersOk_logAndApply (h : s.Ok dbname ucmp saved edits m w)
    {edit : VersionEdit Bytes} (hlegal : s.Legal ucmp edit) :
    NumbersOk (s.next dbname ucmp (.logAndApply edit)).versions
      (s.next dbname ucmp (.logAndApply edit)).tables := by
  have hnumbers := h.numbers
  constructor
  · intro n hn
    rcases List.mem_append.mp hn with hn | hn
    · exact hnumbers.tables n hn
    · obtain ⟨p, hp, rfl⟩ := List.mem_map.mp hn
      rcases hlegal.added p hp with ⟨-, hlt⟩ | ⟨⟨level, hfile⟩, -⟩
      · exact hlt
      · rw [h.current] at hfile
        exact hnumbers.tables _ (h.logged.tables level _ (h.logged.mem_added hfile))
  · exact hnumbers.manifest
  · cases hlog : edit.logNumber with
    | none => simpa [next, logAndApply, fillEdit, hlog] using hnumbers.log
    | some n => simpa [next, logAndApply, fillEdit, hlog] using (hlegal.logNumber n hlog).2
  · cases hlog : edit.prevLogNumber with
    | none => simpa [next, logAndApply, fillEdit, hlog] using hnumbers.prevLog
    | some n => simpa [next, logAndApply, fillEdit, hlog] using hlegal.prevLogNumber n hlog
  · exact hnumbers.next
  · exact hnumbers.sequence
  · exact setCompactPointers_mem (P := fun key => key.length < 2 ^ 32) _ _ hnumbers.pointers
      hlegal.fits.compactPointers

/-- What a history leads to when an edit follows it. -/
theorem logged_append {base : List (VersionEdit Bytes)} {v : VersionSet} {tables : List Nat}
    {edit : VersionEdit Bytes} (dbname : Bytes) (disk : Disk)
    (hhistory : History ucmp (base ++ [v.fillEdit edit])
      (v.logAndApply dbname ucmp disk edit).1 tables)
    (hpointers : setCompactPointers (replay ucmp base).compactPointer (v.fillEdit edit) =
      setCompactPointers v.compactPointer (v.fillEdit edit)) :
    Logged ucmp (base ++ [v.fillEdit edit]) (v.logAndApply dbname ucmp disk edit).1 tables := by
  refine ⟨hhistory, ?_, ?_, ?_, ?_, ?_⟩ <;> rw [replay_append]
  · exact hpointers
  · rfl
  · rfl
  · rfl
  · rfl

/-- A logged edit leads to the version set that is installed, whether it goes to the open
descriptor or to a new one behind a snapshot. -/
theorem Ok.logAndApply (h : s.Ok dbname ucmp saved edits m w) {edit : VersionEdit Bytes}
    (hlegal : s.Legal ucmp edit) :
    ∃ edits' m' w', (s.next dbname ucmp (.logAndApply edit)).Ok dbname ucmp
      (s.next dbname ucmp (.logAndApply edit)).versions edits' m' w' := by
  have hread := h.readable_fillEdit hlegal
  have hnumbers := h.numbersOk_logAndApply hlegal
  have hhistory : History ucmp edits s.versions s.tables :=
    { h.logged.toHistory with files := h.logged.files.trans h.current.symm }
  have hadded : ∀ p ∈ (s.versions.fillEdit edit).newFiles, p.2.number ∉ s.tables ∨
      (∃ level, p.2 ∈ s.versions.current.files level) ∧
        p.2 ∉ s.versions.current.files p.1 :=
    fun p hp => (hlegal.added p hp).imp_left And.left
  cases hlog : s.versions.descriptorLog with
  | some d =>
    obtain rfl := h.opened d hlog
    have hnew := @History.append _ _ _ (s.versions.logAndApply dbname ucmp s.disk edit).1 _
      hhistory _ hread hlegal.distinct hadded rfl
    have hpointers : setCompactPointers (replay ucmp edits).compactPointer
        (s.versions.fillEdit edit) =
          setCompactPointers s.versions.compactPointer (s.versions.fillEdit edit) := by
      rw [h.logged.pointers, h.compactPointer]
    refine ⟨edits ++ [s.versions.fillEdit edit], m,
      w.addRecord (s.versions.fillEdit edit).encodeTo,
      logged_append dbname s.disk hnew hpointers, hnumbers, hnumbers, le_rfl,
      h.descriptor_lt.trans_le h.next_le, ?_, ?_, ?_, ?_, rfl, rfl, rfl, rfl⟩
    · rw [List.map_append]
      exact h.holds.addRecord _
    · simp only [next, VersionSet.logAndApply, openDescriptor, hlog, Option.isNone_some,
        Bool.false_eq_true, if_false]
      rw [Disk.read_write_of_ne _ _ (currentFileName_ne_descriptor dbname m)]
      exact h.readCurrent
    · simp [next, VersionSet.logAndApply, openDescriptor, hlog]
    · intro d hd
      simpa [next, VersionSet.logAndApply, openDescriptor, hlog] using hd.symm
  | none =>
    obtain ⟨v, hv⟩ : ∃ v : VersionSet, { s.versions with
        compactPointer :=
          setCompactPointers s.versions.compactPointer (s.versions.fillEdit edit) } = v := ⟨_, rfl⟩
    have hsnapshot : History ucmp [v.snapshotEdit ucmp] v s.tables := by
      refine hhistory.snapshot ?_ ?_
      · rw [← hv]
      · rw [← hv]
        exact hnumbers.pointers
    have hcurrent : v.current = s.versions.current := by rw [← hv]
    have hnew := @History.append _ _ _ (s.versions.logAndApply dbname ucmp s.disk edit).1 _
      hsnapshot _ hread hlegal.distinct (by rw [hcurrent]; exact hadded) (by rw [hcurrent]; rfl)
    have hpointers : setCompactPointers (replay ucmp [v.snapshotEdit ucmp]).compactPointer
        (s.versions.fillEdit edit) =
          setCompactPointers s.versions.compactPointer (s.versions.fillEdit edit) := by
      have hsnap : (replay ucmp [v.snapshotEdit ucmp]).compactPointer = v.compactPointer :=
        setCompactPointers_snapshot ucmp v
      rw [hsnap, ← hv]
      exact setCompactPointers_idem _ _
    refine ⟨[v.snapshotEdit ucmp] ++ [s.versions.fillEdit edit],
      s.versions.manifestFileNumber, ((Log.Writer.ofFile []).addRecord
        (v.snapshotEdit ucmp).encodeTo).addRecord (s.versions.fillEdit edit).encodeTo,
      logged_append dbname s.disk hnew hpointers, hnumbers, hnumbers, le_rfl,
      h.numbers.manifest, ?_, ?_, ?_, ?_, rfl, rfl, rfl, rfl⟩
    · exact (Log.Writer.holds_new.addRecord _).addRecord _
    · simp only [next, VersionSet.logAndApply, hlog, Option.isNone_none, if_true]
      exact read_current_setCurrentFile _ _ _
    · simp only [next, VersionSet.logAndApply, hlog, Option.isNone_none, if_true]
      rw [read_descriptor_setCurrentFile]
      simp [openDescriptor, hlog, ← hv]
    · intro d hd
      simpa [next, VersionSet.logAndApply, openDescriptor, hlog, ← hv] using hd.symm

/-- Every step keeps the invariant. -/
theorem Ok.step (h : s.Ok dbname ucmp saved edits m w) {a : ManifestAction}
    (hstep : s.Step dbname ucmp a s') : ∃ saved' edits' m' w',
      s'.Ok dbname ucmp saved' edits' m' w' := by
  cases a with
  | logAndApply edit =>
    obtain ⟨hlegal, rfl⟩ := hstep
    exact ⟨_, h.logAndApply hlegal⟩
  | newFileNumber => exact ⟨_, _, _, h.other hstep fun _ ha => nomatch ha⟩
  | markFileNumberUsed number => exact ⟨_, _, _, h.other hstep fun _ ha => nomatch ha⟩
  | setLastSequence n => exact ⟨_, _, _, h.other hstep fun _ ha => nomatch ha⟩
  | restart options appendable => exact ⟨_, _, _, h.other hstep fun _ ha => nomatch ha⟩

theorem ok_opened (options : Options) (appendable : Bool) :
    ∃ w, (opened dbname ucmp options appendable).Ok dbname ucmp .init [newDBEdit ucmp] 1 w :=
  ok_newDB.restart options appendable (show VersionSet.init.nextFileNumber + 2 < 2 ^ 64 by decide)

/-- The actions between two logged edits. -/
def Quiet (_ : ManifestState) (a : ManifestAction) : Prop := ∀ edit, a ≠ .logAndApply edit

/-- Recovery from the disk of any run gives back the version set as it was behind the last logged
edit: its files level by level, its pointers and its numbers. The next file number is above every
number in use, and a comparator of another name is refused. -/
theorem recover_exact {options : Options} {appendable : Bool} {actions rest : List ManifestAction}
    {edit : VersionEdit Bytes} {s s₁ s₂ : ManifestState}
    (hrun : Run (Step dbname ucmp) (opened dbname ucmp options appendable) actions s)
    (hedit : s.Step dbname ucmp (.logAndApply edit) s₁)
    (hrest : Run (StepWhen (Step dbname ucmp) Quiet) s₁ rest s₂)
    (options' : Options) (appendable' : Bool) :
    let r := recover dbname ucmp options' appendable' .init s₂.disk
    r.status = .ok ∧
      (∀ level, r.versions.current.files level = s₁.versions.current.files level) ∧
      r.versions.compactPointer = s₁.versions.compactPointer ∧
      r.versions.logNumber = s₁.versions.logNumber ∧
      r.versions.prevLogNumber = s₁.versions.prevLogNumber ∧
      r.versions.lastSequence = s₁.versions.lastSequence ∧
      (∀ level, ∀ f ∈ r.versions.current.files level, f.number < r.versions.nextFileNumber) ∧
      (∀ n ∈ s₂.tables, n < r.versions.nextFileNumber) ∧
      r.versions.logNumber < r.versions.nextFileNumber ∧
      r.versions.prevLogNumber < r.versions.nextFileNumber ∧
      r.versions.manifestFileNumber < r.versions.nextFileNumber ∧
      ∀ other : Comparator, ucmp.name ≠ other.name →
        ∃ msg, (recover dbname other options' appendable' .init s₂.disk).status =
          .invalidArgument msg := by
  have hbefore : ∃ saved edits m w, s.Ok dbname ucmp saved edits m w := by
    refine hrun.invariant (fun s => ∃ saved edits m w, s.Ok dbname ucmp saved edits m w)
      ⟨_, _, _, ok_opened options appendable⟩ ?_
    rintro s a s' ⟨saved, edits, m, w, h⟩ hstep
    exact h.step hstep
  obtain ⟨saved, edits, m, w, hbefore⟩ := hbefore
  obtain ⟨hlegal, hs₁⟩ := hedit
  have hafter := hbefore.logAndApply hlegal
  rw [← hs₁] at hafter
  obtain ⟨edits, m, w, hafter⟩ := hafter
  have hquiet : ∃ w, s₂.Ok dbname ucmp s₁.versions edits m w := by
    refine hrest.invariant (fun s => ∃ w, s.Ok dbname ucmp s₁.versions edits m w)
      ⟨w, hafter⟩ ?_
    rintro s a s' ⟨w, h⟩ ⟨hquiet, hstep⟩
    exact h.other hstep hquiet
  obtain ⟨w, h⟩ := hquiet
  have hbelow := h.savedNumbers
  have hm := h.descriptor_lt
  have hnext := hbelow.next
  have hmod := Nat.mod_eq_of_lt hnext
  intro r
  have hother := fun (other : Comparator) (hname : ucmp.name ≠ other.name) => recover_other
    options' appendable' h.logged.toHistory h.holds hname h.readCurrent h.readDescriptor
  have hlt : ∀ {n}, n < s₁.versions.nextFileNumber →
      n < (s₁.versions.nextFileNumber + 1) % 2 ^ 64 := by
    intro n hn
    rw [hmod]
    exact hn.trans (Nat.lt_succ_self _)
  have hfiles : ∀ level, ∀ f ∈ s₁.versions.current.files level,
      f.number < s₁.versions.nextFileNumber :=
    fun level f hf => hbelow.tables _ (h.logged.tables level f (h.logged.mem_added hf))
  have hmanifest : s₁.versions.nextFileNumber < (s₁.versions.nextFileNumber + 1) % 2 ^ 64 := by
    rw [hmod]
    exact Nat.lt_succ_self _
  rcases recover_logged options' appendable' h.logged h.holds
    (by unfold kMaxUint64; omega) h.readCurrent h.readDescriptor with hfresh | hreused
  · rw [show r = ⟨recovered s₁.versions, .ok, true⟩ from hfresh]
    exact ⟨rfl, fun _ => rfl, rfl, rfl, rfl, rfl, fun level f hf => hlt (hfiles level f hf),
      fun n hn => hlt (hbelow.tables n hn), hlt hbelow.log, hlt hbelow.prevLog, hmanifest, hother⟩
  · rw [show r = ⟨reusing dbname m w s₁.versions, .ok, false⟩ from hreused]
    exact ⟨rfl, fun _ => rfl, rfl, rfl, rfl, rfl, fun level f hf => hlt (hfiles level f hf),
      fun n hn => hlt (hbelow.tables n hn), hlt hbelow.log, hlt hbelow.prevLog, hlt hm, hother⟩

/-- The next file number behind a restart. -/
theorem Ok.nextFileNumber_restart (h : s.Ok dbname ucmp saved edits m w) (options : Options)
    (appendable : Bool) (hm : m ≤ kMaxUint64) :
    (s.next dbname ucmp (.restart options appendable)).versions.nextFileNumber =
      (saved.nextFileNumber + 1) % 2 ^ 64 := by
  rcases recover_logged options appendable h.logged h.holds hm h.readCurrent
    h.readDescriptor with hfresh | hreused
  · rw [next, hfresh]
    rfl
  · rw [next, hreused]
    rfl

/-! ## A table that is flushed, and moved behind a restart -/

/-- A table of one user key. -/
def firstTable : FileMetaData Bytes :=
  let key := appendInternalKey ⟨ascii ['k'], 1, .value⟩
  ⟨2, 100, key, key⟩

/-- The table is added to level 0. -/
def firstTableEdit : VersionEdit Bytes := VersionEdit.empty.addFile 0 firstTable

/-- The table moves from level 0 to level 1. -/
def moveTableEdit : VersionEdit Bytes := (VersionEdit.empty.deleteFile 0 2).addFile 1 firstTable

/-- A new database. -/
def freshDB : ManifestState := opened [] bytewiseComparator ⟨false, 2097152⟩ true

/-- It has flushed the table. -/
def flushedDB : ManifestState := freshDB.next [] bytewiseComparator (.logAndApply firstTableEdit)

/-- It is opened again. -/
def restartedDB : ManifestState :=
  flushedDB.next [] bytewiseComparator (.restart ⟨true, 2097152⟩ true)

theorem ok_freshDB : (∃ w, freshDB.Ok [] bytewiseComparator .init [newDBEdit bytewiseComparator] 1 w) ∧
    freshDB.versions.nextFileNumber = 3 :=
  ⟨ok_opened ⟨false, 2097152⟩ true, ok_newDB.nextFileNumber_restart ⟨false, 2097152⟩ true (by decide)⟩

theorem legal_firstTableEdit : freshDB.Legal bytewiseComparator firstTableEdit := by
  obtain ⟨⟨w, h⟩, hnext⟩ := ok_freshDB
  refine ⟨⟨?_, ?_, ?_, ?_, ?_, ?_, ?_, ?_⟩, .inl rfl, ?_, ?_, ?_, ?_⟩
  · exact fun n hn => nomatch hn
  · exact fun n hn => nomatch hn
  · exact fun n hn => nomatch hn
  · exact fun n hn => nomatch hn
  · exact fun n hn => nomatch hn
  · exact fun p hp => nomatch hp
  · exact fun p hp => nomatch hp
  · intro p hp
    rw [List.mem_singleton.mp hp]
    decide
  · exact fun n hn => nomatch hn
  · exact fun n hn => nomatch hn
  · intro p hp q hq _
    rw [List.mem_singleton.mp hp, List.mem_singleton.mp hq]
  · intro p hp
    rw [List.mem_singleton.mp hp, hnext]
    exact .inl ⟨List.not_mem_nil, by decide⟩

/-- The restart finds the table on level 0. -/
theorem ok_restartedDB : (∃ edits m w,
      restartedDB.Ok [] bytewiseComparator flushedDB.versions edits m w) ∧
    restartedDB.versions.nextFileNumber = 4 ∧
    ∀ level, restartedDB.versions.current.files level = if level = 0 then [firstTable] else [] := by
  obtain ⟨⟨w, hfresh⟩, hnext⟩ := ok_freshDB
  obtain ⟨edits, m, w, hflushed⟩ := hfresh.logAndApply legal_firstTableEdit
  have hnext' : flushedDB.versions.nextFileNumber = 3 := hnext
  obtain ⟨w', hrestarted⟩ := hflushed.restart ⟨true, 2097152⟩ true (by
    change flushedDB.versions.nextFileNumber + 2 < 2 ^ 64
    rw [hnext']
    decide)
  have hm : m ≤ kMaxUint64 := by
    have hlt : m < flushedDB.versions.nextFileNumber := hflushed.descriptor_lt
    rw [hnext'] at hlt
    unfold kMaxUint64
    omega
  have hnumber := hflushed.nextFileNumber_restart ⟨true, 2097152⟩ true hm
  have hcurrent : restartedDB.versions.current =
      ((Builder.init bytewiseComparator.internalCompare).apply firstTableEdit).saveTo
        freshDB.versions.current := hrestarted.current
  refine ⟨⟨edits, m, w', hrestarted⟩, ?_, ?_⟩
  · change restartedDB.versions.nextFileNumber = (flushedDB.versions.nextFileNumber + 1) % 2 ^ 64
      at hnumber
    rw [hnumber, hnext']
    decide
  · rw [hcurrent, hfresh.current]
    decide +kernel

theorem legal_moveTableEdit : restartedDB.Legal bytewiseComparator moveTableEdit := by
  obtain ⟨-, -, hfiles⟩ := ok_restartedDB
  refine ⟨⟨?_, ?_, ?_, ?_, ?_, ?_, ?_, ?_⟩, .inl rfl, ?_, ?_, ?_, ?_⟩
  · exact fun n hn => nomatch hn
  · exact fun n hn => nomatch hn
  · exact fun n hn => nomatch hn
  · exact fun n hn => nomatch hn
  · exact fun n hn => nomatch hn
  · exact fun p hp => nomatch hp
  · decide
  · intro p hp
    rw [List.mem_singleton.mp hp]
    decide
  · exact fun n hn => nomatch hn
  · exact fun n hn => nomatch hn
  · intro p hp q hq _
    rw [List.mem_singleton.mp hp, List.mem_singleton.mp hq]
  · intro p hp
    rw [List.mem_singleton.mp hp]
    exact .inr ⟨⟨0, by rw [hfiles]; exact List.mem_singleton_self _⟩, by
      rw [hfiles]
      exact List.not_mem_nil⟩

/-- The table is flushed, the database is opened again, the table moves, and a file number is handed
out. Then recovery finds it on level 1. -/
theorem recover_exact_movedTable :
    let s₁ := restartedDB.next [] bytewiseComparator (.logAndApply moveTableEdit)
    let s₂ := s₁.next [] bytewiseComparator .newFileNumber
    let r := recover [] bytewiseComparator ⟨true, 2097152⟩ true .init s₂.disk
    r.status = .ok ∧
      ∀ level, r.versions.current.files level = if level = 1 then [firstTable] else [] := by
  obtain ⟨-, hnumber, hfiles⟩ := ok_restartedDB
  have hrun : Run (Step [] bytewiseComparator) freshDB
      [.logAndApply firstTableEdit, .restart ⟨true, 2097152⟩ true] restartedDB := by
    refine .cons ⟨legal_firstTableEdit, rfl⟩ (.cons ⟨?_, rfl⟩ (.nil _))
    change freshDB.versions.nextFileNumber + 2 < 2 ^ 64
    rw [ok_freshDB.2]
    decide
  have hrest : Run (StepWhen (Step [] bytewiseComparator) Quiet)
      (restartedDB.next [] bytewiseComparator (.logAndApply moveTableEdit)) [.newFileNumber]
      ((restartedDB.next [] bytewiseComparator (.logAndApply moveTableEdit)).next []
        bytewiseComparator .newFileNumber) := by
    refine .cons ⟨fun edit he => (nomatch he), ?_, rfl⟩ (.nil _)
    change restartedDB.versions.nextFileNumber + 2 < 2 ^ 64
    rw [hnumber]
    decide
  have hexact := recover_exact hrun ⟨legal_moveTableEdit, rfl⟩ hrest ⟨true, 2097152⟩ true
  refine ⟨hexact.1, fun level => (hexact.2.1 level).trans ?_⟩
  have hcurrent : restartedDB.versions.current =
      ⟨fun level => if level = 0 then [firstTable] else []⟩ := by
    cases hv : restartedDB.versions.current with
    | mk files =>
      rw [hv] at hfiles
      exact congrArg Version.mk (funext hfiles)
  change ((((Builder.init bytewiseComparator.internalCompare).apply moveTableEdit).saveTo
    restartedDB.versions.current).files level) = _
  rw [hcurrent]
  revert level
  decide +kernel

end WiscKey.ManifestState
