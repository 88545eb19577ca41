import WiscKey.Files.Obsolete

/-!
# Obsolete files over runs

The outputs in progress are pending until they are built or cleaned up, and no file is deleted
while a table that was built waits for its version. So the tables of all versions that are alive
keep their files.
-/

namespace WiscKey

variable {ucmp : Comparator}

/-! ## What is deleted -/

namespace DBFiles

variable {s : DBFiles} {filenames : List Bytes} {fname : Bytes}

/-- A name that is deleted is one of a file that is not kept. -/
theorem mem_deleteObsoleteFiles (h : fname ∈ s.deleteObsoleteFiles filenames) :
    ∃ number type, parseFileName fname = some (number, type) ∧ s.keep number type = false := by
  rw [deleteObsoleteFiles] at h
  split at h
  · have hdelete := (List.mem_filter.mp h).2
    cases hparse : parseFileName fname with
    | none =>
      rw [hparse] at hdelete
      exact nomatch hdelete
    | some p =>
      rw [hparse] at hdelete
      exact ⟨p.1, p.2, rfl, by simpa using hdelete⟩
  · cases h

theorem mem_live {number : Nat} : number ∈ s.live ↔
    number ∈ s.pendingOutputs ∨ ∃ v ∈ s.versions, number ∈ v.numbers := by
  rw [live, Finset.mem_union, List.mem_toFinset, List.mem_flatMap]

/-- A deleted file is no table that is pending or of a version that is alive, no log or descriptor
with a current number, and none of the files without a number. -/
def Obsolete (s : DBFiles) (fname : Bytes) : Prop :=
  fname ≠ currentText ∧ fname ≠ ascii ['L', 'O', 'C', 'K'] ∧
    ∀ number type, parseFileName fname = some (number, type) →
      match type with
      | .tableFile => number ∉ s.pendingOutputs ∧ ∀ v ∈ s.versions, number ∉ v.numbers
      | .logFile => number < s.logNumber ∧ number ≠ s.prevLogNumber
      | .descriptorFile => number < s.manifestFileNumber
      | .tempFile => number ∉ s.pendingOutputs
      | _ => False

theorem obsolete_of_mem (h : fname ∈ s.deleteObsoleteFiles filenames) : s.Obsolete fname := by
  obtain ⟨number, type, hparse, hkeep⟩ := mem_deleteObsoleteFiles h
  refine ⟨?_, ?_, fun number' type' hparse' => ?_⟩
  · rintro rfl
    obtain ⟨-, rfl⟩ := Prod.mk.inj (Option.some.inj hparse)
    cases hkeep
  · rintro rfl
    obtain ⟨-, rfl⟩ := Prod.mk.inj (Option.some.inj hparse)
    cases hkeep
  · obtain ⟨rfl, rfl⟩ := Prod.mk.inj (Option.some.inj (hparse.symm.trans hparse'))
    cases type with
    | tableFile =>
      have hlive : number ∉ s.live := by simpa [keep] using hkeep
      rw [mem_live] at hlive
      exact ⟨fun hp => hlive (.inl hp), fun v hv hn => hlive (.inr ⟨v, hv, hn⟩)⟩
    | tempFile =>
      have hlive : number ∉ s.live := by simpa [keep] using hkeep
      rw [mem_live] at hlive
      exact fun hp => hlive (.inl hp)
    | logFile => simpa [keep] using hkeep
    | descriptorFile => simpa [keep] using hkeep
    | currentFile => cases hkeep
    | dbLockFile => cases hkeep
    | infoLogFile => cases hkeep

end DBFiles

/-! ## Versions -/

theorem Version.mem_numbers {v : Version Bytes} {number : Nat} :
    number ∈ v.numbers ↔ ∃ level, ∃ f ∈ v.files level, f.number = number := by
  simp [Version.numbers, List.mem_flatMap]

/-- A file that a builder has added is one of its edit. -/
theorem Builder.mem_newFiles_of_mem_added {cmp : Bytes → Bytes → Ordering} [Std.TransCmp cmp]
    (b : Builder cmp) (l : List (Level × FileMetaData Bytes)) {level : Level}
    {f : FileMetaData Bytes} (h : f ∈ ((l.foldl Builder.addFile b) level).addedFiles.toList) :
    f ∈ (b level).addedFiles.toList ∨ (level, f) ∈ l := by
  induction l generalizing b with
  | nil => exact .inl h
  | cons p l ih =>
    rcases ih (b.addFile p) h with hf | hf
    · rw [Builder.addFile] at hf
      rcases eq_or_ne level p.1 with rfl | hne
      · rw [Function.update_self] at hf
        rcases mem_of_mem_insertOrdered hf with rfl | hf
        · exact .inr (List.mem_cons_self ..)
        · exact .inl hf
      · rw [Function.update_of_ne hne] at hf
        exact .inl hf
    · exact .inr (List.mem_cons_of_mem _ hf)

/-- A number in the version that an edit leads to was there before, or is in the edit. -/
theorem mem_numbers_saveTo {v : Version Bytes} {edit : VersionEdit Bytes} {number : Nat}
    (h : number ∈
      ((((Builder.init ucmp.internalCompare).apply edit).saveTo v).numbers)) :
    number ∈ v.numbers ∨ ∃ p ∈ edit.newFiles, p.2.number = number := by
  obtain ⟨level, f, hf, rfl⟩ := Version.mem_numbers.mp h
  obtain ⟨hf | hf, -⟩ := (Builder.mem_saveTo _ level).mp hf
  · exact .inl (Version.mem_numbers.mpr ⟨level, f, hf, rfl⟩)
  · rw [Builder.apply] at hf
    rcases Builder.mem_newFiles_of_mem_added _ _ hf with hf | hf
    · rw [Builder.addedFiles_foldl_deleteFile] at hf
      cases hf
    · exact .inr ⟨_, hf, rfl⟩

namespace FilesState

variable {s s' : FilesState} {number : Nat}

/-- What holds in every state of a run. -/
structure Ok (s : FilesState) : Prop where
  bound : s.db.nextFileNumber < 2 ^ 64
  known : ∀ n, s.Referenced n ∨ s.InProgress n → n < s.db.nextFileNumber
  building : ∀ n, s.building = some n →
    n ∈ s.db.pendingOutputs ∧ ¬ s.Referenced n ∧ n ∉ s.built ∧ n ∉ s.outputs
  outputs : ∀ n ∈ s.outputs, n ∈ s.db.pendingOutputs
  tables : ∀ n, s.Referenced n ∨ n ∈ s.built → s.Exists n

theorem Recovered.ok (h : s.Recovered) : s.Ok := by
  have hreferenced : ∀ n, s.Referenced n → n ∈ s.db.current.numbers := by
    rintro n ⟨v, hv, hn⟩
    rw [DBFiles.versions, h.older] at hv
    obtain rfl := List.mem_singleton.mp hv
    exact hn
  have hprogress : ∀ n, ¬ s.InProgress n := by
    intro n
    simp [InProgress, h.building, h.built, h.outputs]
  refine ⟨h.bound, fun n hn => ?_, fun n hn => ?_, fun n hn => ?_, fun n hn => ?_⟩
  · exact (h.numbers n (hreferenced n (hn.resolve_right (hprogress n)))).1
  · exact absurd (.inl hn) (hprogress n)
  · exact absurd (.inr (.inr hn)) (hprogress n)
  · refine (h.numbers n (hreferenced n (hn.resolve_right fun hb => ?_))).2
    exact hprogress n (.inr (.inl hb))

/-- A table keeps its file where its name stays. -/
theorem Exists.mono {d : List Bytes} (h : s.Exists number)
    (hsub : ∀ fname ∈ s.directory, parseFileName fname = some (number, .tableFile) → fname ∈ d)
    (hdirectory : s'.directory = d) : s'.Exists number := by
  obtain ⟨fname, hmem, hparse⟩ := h
  exact ⟨fname, hdirectory ▸ hsub fname hmem hparse, hparse⟩

theorem Exists.congr (h : s.Exists number) (hdirectory : s'.directory = s.directory) :
    s'.Exists number :=
  h.mono (fun _ hmem _ => hmem) hdirectory

/-- A number that is handed out is new. -/
theorem Ok.fresh (h : s.Ok) : ¬ s.Referenced s.db.nextFileNumber ∧
    s.db.nextFileNumber ∉ s.built ∧ s.db.nextFileNumber ∉ s.outputs :=
  ⟨fun hr => absurd (h.known _ (.inl hr)) (lt_irrefl _),
    fun hb => absurd (h.known _ (.inr (.inr (.inl hb)))) (lt_irrefl _),
    fun ho => absurd (h.known _ (.inr (.inr (.inr ho)))) (lt_irrefl _)⟩

theorem Ok.writeLevel0Table (h : s.Ok) (henabled : s.Enabled .writeLevel0Table) :
    (s.next ucmp .writeLevel0Table).Ok := by
  obtain ⟨hbound, hbuilding⟩ := henabled
  have hfresh := h.fresh
  refine ⟨hbound, ?_, ?_, ?_, h.tables⟩
  · rintro n (hr | hb | hb | ho)
    · exact (h.known n (.inl hr)).trans (Nat.lt_succ_self _)
    · obtain rfl := Option.some.inj hb
      exact Nat.lt_succ_self _
    · exact (h.known n (.inr (.inr (.inl hb)))).trans (Nat.lt_succ_self _)
    · exact (h.known n (.inr (.inr (.inr ho)))).trans (Nat.lt_succ_self _)
  · rintro n hn
    obtain rfl := Option.some.inj hn
    exact ⟨Finset.mem_insert_self _ _, hfresh⟩
  · exact fun n hn => Finset.mem_insert_of_mem (h.outputs n hn)

theorem Ok.openCompactionOutputFile (h : s.Ok) (henabled : s.Enabled .openCompactionOutputFile) :
    (s.next ucmp .openCompactionOutputFile).Ok := by
  obtain ⟨hbound, hbuilding, -⟩ := henabled
  refine ⟨hbound, ?_, ?_, ?_, h.tables⟩
  · rintro n (hr | hb | hb | ho)
    · exact (h.known n (.inl hr)).trans (Nat.lt_succ_self _)
    · exact (h.known n (.inr (.inl hb))).trans (Nat.lt_succ_self _)
    · exact (h.known n (.inr (.inr (.inl hb)))).trans (Nat.lt_succ_self _)
    · rcases List.mem_append.mp ho with ho | ho
      · exact (h.known n (.inr (.inr (.inr ho)))).trans (Nat.lt_succ_self _)
      · obtain rfl := List.mem_singleton.mp ho
        exact Nat.lt_succ_self _
  · intro n hn
    exact absurd (hbuilding.symm.trans hn) (by simp)
  · intro n hn
    rcases List.mem_append.mp hn with hn | hn
    · exact Finset.mem_insert_of_mem (h.outputs n hn)
    · obtain rfl := List.mem_singleton.mp hn
      exact Finset.mem_insert_self _ _

theorem Ok.createTable (h : s.Ok) (number : Nat) : (s.next ucmp (.createTable number)).Ok :=
  ⟨h.bound, h.known, h.building, h.outputs, fun n hn =>
    (h.tables n hn).mono (fun _ hmem _ => List.mem_append_left _ hmem) rfl⟩

/-- `BuildTable` has returned: its number is no longer pending, and it waits for its version if
there is a table. -/
theorem Ok.tableBuilt (h : s.Ok) {kept : Bool} (henabled : s.Enabled (.tableBuilt kept)) :
    (s.next ucmp (.tableBuilt kept)).Ok := by
  obtain ⟨number, hbuilding, hkept⟩ := henabled
  obtain ⟨-, hreferenced, hbuilt, houtputs⟩ := h.building number hbuilding
  have herase : ∀ n ∈ s.outputs, n ∈ s.db.pendingOutputs.erase number := by
    intro n hn
    exact Finset.mem_erase.mpr ⟨fun heq => houtputs (heq ▸ hn), h.outputs n hn⟩
  simp only [FilesState.next, hbuilding]
  cases kept with
  | true =>
    refine ⟨h.bound, ?_, (fun n hn => nomatch hn), herase, ?_⟩
    · rintro n (hr | hb | hb | ho)
      · exact h.known n (.inl hr)
      · cases hb
      · rcases List.mem_append.mp hb with hb | hb
        · exact h.known n (.inr (.inr (.inl hb)))
        · obtain rfl := List.mem_singleton.mp hb
          exact h.known n (.inr (.inl hbuilding))
      · exact h.known n (.inr (.inr (.inr ho)))
    · rintro n (hr | hb)
      · exact (h.tables n (.inl hr)).congr rfl
      · rcases List.mem_append.mp hb with hb | hb
        · exact (h.tables n (.inr hb)).congr rfl
        · obtain rfl := List.mem_singleton.mp hb
          exact (hkept rfl).congr rfl
  | false =>
    refine ⟨h.bound, ?_, (fun n hn => nomatch hn), herase, ?_⟩
    · rintro n (hr | hb | hb | ho)
      · exact h.known n (.inl hr)
      · cases hb
      · exact h.known n (.inr (.inr (.inl hb)))
      · exact h.known n (.inr (.inr (.inr ho)))
    · intro n hn
      refine (h.tables n hn).mono (fun fname hmem hparse => ?_) rfl
      refine List.mem_filter.mpr ⟨hmem, decide_eq_true fun hname => ?_⟩
      -- the name that is deleted is that of the table that was built
      have hlt := h.known number (.inr (.inl hbuilding))
      have hbound := h.bound
      rw [hname, parseFileName_table (by unfold kMaxUint64; omega)] at hparse
      obtain rfl : number = n := (Prod.mk.inj (Option.some.inj hparse)).1
      rcases hn with hr | hb
      · exact hreferenced hr
      · exact hbuilt hb

theorem referenced_install {edit : VersionEdit Bytes} {held : Bool}
    (h : (s.next ucmp (.install edit held)).Referenced number) :
    s.Referenced number ∨ ∃ p ∈ edit.newFiles, p.2.number = number := by
  obtain ⟨v, hv, hn⟩ := h
  rcases List.mem_cons.mp hv with rfl | hv
  · rcases mem_numbers_saveTo hn with hn | hn
    · exact .inl ⟨_, List.mem_cons_self .., hn⟩
    · exact .inr hn
  · refine .inl ⟨v, ?_, hn⟩
    simp only [FilesState.next] at hv
    split at hv
    · exact hv
    · exact List.mem_cons_of_mem _ hv

/-- The tables of the version that is installed were built, are outputs or were in the version
before. -/
theorem Ok.install (h : s.Ok) {edit : VersionEdit Bytes} {held : Bool}
    (henabled : s.Enabled (.install edit held)) : (s.next ucmp (.install edit held)).Ok := by
  obtain ⟨hbuilding, hfiles⟩ := henabled
  have hnew : ∀ n, (s.next ucmp (.install edit held)).Referenced n →
      n < s.db.nextFileNumber ∧ s.Exists n := by
    intro n hn
    rcases referenced_install hn with hr | ⟨p, hp, rfl⟩
    · exact ⟨h.known n (.inl hr), h.tables n (.inl hr)⟩
    · rcases hfiles p hp with hb | ⟨ho, hexists⟩ | hcurrent
      · exact ⟨h.known _ (.inr (.inr (.inl hb))), h.tables _ (.inr hb)⟩
      · exact ⟨h.known _ (.inr (.inr (.inr ho))), hexists⟩
      · have hr : s.Referenced p.2.number := ⟨_, List.mem_cons_self .., hcurrent⟩
        exact ⟨h.known _ (.inl hr), h.tables _ (.inl hr)⟩
  refine ⟨h.bound, ?_, ?_, h.outputs, ?_⟩
  · rintro n (hr | hb | hb | ho)
    · exact (hnew n hr).1
    · exact h.known n (.inr (.inl hb))
    · cases hb
    · exact h.known n (.inr (.inr (.inr ho)))
  · intro n hn
    exact absurd (hbuilding.symm.trans hn) (by simp)
  · rintro n (hr | hb)
    · exact (hnew n hr).2.congr rfl
    · cases hb

theorem Ok.cleanupCompaction (h : s.Ok) (henabled : s.Enabled .cleanupCompaction) :
    (s.next ucmp .cleanupCompaction).Ok := by
  obtain ⟨hbuilding, -⟩ := henabled
  refine ⟨h.bound, ?_, ?_, (fun n hn => nomatch hn), h.tables⟩
  · rintro n (hr | hb | hb | ho)
    · exact h.known n (.inl hr)
    · exact h.known n (.inr (.inl hb))
    · exact h.known n (.inr (.inr (.inl hb)))
    · cases ho
  · intro n hn
    exact absurd (hbuilding.symm.trans hn) (by simp)

/-- The version that is given up is in no other place. -/
theorem Ok.release (h : s.Ok) (i : Nat) : (s.next ucmp (.release i)).Ok := by
  have hmono : ∀ n, (s.next ucmp (.release i)).Referenced n → s.Referenced n := by
    rintro n ⟨v, hv, hn⟩
    refine ⟨v, ?_, hn⟩
    rcases List.mem_cons.mp hv with rfl | hv
    · exact List.mem_cons_self ..
    · exact List.mem_cons_of_mem _ (List.mem_of_mem_eraseIdx hv)
  refine ⟨h.bound, fun n hn => h.known n (hn.imp_left (hmono n)), ?_, h.outputs,
    fun n hn => h.tables n (hn.imp_left (hmono n))⟩
  intro n hn
  obtain ⟨hpending, hreferenced, hrest⟩ := h.building n hn
  exact ⟨hpending, fun hr => hreferenced (hmono n hr), hrest⟩

theorem Ok.recordBackgroundError (h : s.Ok) {status : Status}
    (henabled : s.Enabled (.recordBackgroundError status)) :
    (s.next ucmp (.recordBackgroundError status)).Ok := by
  obtain ⟨-, hbuilding⟩ := henabled
  refine ⟨h.bound, ?_, ?_, h.outputs, ?_⟩
  · rintro n (hr | hb | hb | ho)
    · exact h.known n (.inl hr)
    · exact h.known n (.inr (.inl hb))
    · cases hb
    · exact h.known n (.inr (.inr (.inr ho)))
  · intro n hn
    exact absurd (hbuilding.symm.trans hn) (by simp)
  · rintro n (hr | hb)
    · exact (h.tables n (.inl hr)).congr rfl
    · cases hb

/-- The files that are deleted are those of no table that is referenced. -/
theorem Ok.deleteObsoleteFiles (h : s.Ok) {filenames : List Bytes}
    (henabled : s.Enabled (.deleteObsoleteFiles filenames)) :
    (s.next ucmp (.deleteObsoleteFiles filenames)).Ok := by
  obtain ⟨-, hbuilt⟩ := henabled
  refine ⟨h.bound, h.known, h.building, h.outputs, ?_⟩
  rintro n (hr | hb)
  · refine (h.tables n (.inl hr)).mono (fun fname hmem hparse => ?_) rfl
    refine List.mem_filter.mpr ⟨hmem, decide_eq_true fun hdeleted => ?_⟩
    obtain ⟨v, hv, hn⟩ := hr
    exact ((DBFiles.obsolete_of_mem hdeleted).2.2 n .tableFile hparse).2 v hv hn
  · exact absurd hb (by simp [FilesState.next, hbuilt])

/-- Every step keeps the files of the tables that are referenced. -/
theorem Ok.step (h : s.Ok) {a : FilesAction} (hstep : s.Step ucmp a s') : s'.Ok := by
  obtain ⟨henabled, rfl⟩ := hstep
  cases a with
  | newLog => exact ⟨henabled, fun n hn => (h.known n hn).trans (Nat.lt_succ_self _), h.building,
      h.outputs, h.tables⟩
  | writeLevel0Table => exact h.writeLevel0Table henabled
  | createTable number => exact h.createTable number
  | tableBuilt kept => exact h.tableBuilt henabled
  | openCompactionOutputFile => exact h.openCompactionOutputFile henabled
  | install edit held => exact h.install henabled
  | recordBackgroundError status => exact h.recordBackgroundError henabled
  | cleanupCompaction => exact h.cleanupCompaction henabled
  | release i => exact h.release i
  | deleteObsoleteFiles filenames => exact h.deleteObsoleteFiles henabled

theorem Recovered.run_ok {s₀ : FilesState} {actions : List FilesAction} (h₀ : s₀.Recovered)
    (hrun : Run (Step ucmp) s₀ actions s) : s.Ok :=
  hrun.invariant Ok h₀.ok fun _ _ _ h hstep => h.step hstep

/-- In every state of a run: what is deleted is obsolete; a table is pending before its file is
created and while it is built, and an output of a compaction until it is cleaned up; whenever files
are deleted, all the outputs in progress are pending; and every table of a version that is alive
has its file. -/
theorem deleteObsoleteFiles_safe {s₀ : FilesState} {actions : List FilesAction}
    (h₀ : s₀.Recovered) (hrun : Run (Step ucmp) s₀ actions s) :
    (∀ filenames, ∀ fname ∈ s.db.deleteObsoleteFiles filenames, s.db.Obsolete fname) ∧
      (∀ number, s.Enabled (.createTable number) → number ∈ s.db.pendingOutputs) ∧
      (∀ number, s.building = some number ∨ number ∈ s.outputs →
        number ∈ s.db.pendingOutputs) ∧
      (∀ filenames, s.Enabled (.deleteObsoleteFiles filenames) →
        ∀ number, s.InProgress number → number ∈ s.db.pendingOutputs) ∧
      ∀ number, s.Referenced number → s.Exists number := by
  have h := h₀.run_ok hrun
  have hpending : ∀ number, s.building = some number ∨ number ∈ s.outputs →
      number ∈ s.db.pendingOutputs := by
    rintro number (hb | ho)
    · exact (h.building number hb).1
    · exact h.outputs number ho
  refine ⟨fun _ _ hmem => DBFiles.obsolete_of_mem hmem, fun number => hpending number, hpending, ?_,
    fun number hr => h.tables number (.inl hr)⟩
  rintro filenames ⟨-, hbuilt⟩ number (hb | hb | ho)
  · exact hpending number (.inl hb)
  · rw [hbuilt] at hb
    cases hb
  · exact hpending number (.inr ho)

/-- An empty database, whose next number is 5. -/
def emptyFiles : FilesState :=
  ⟨⟨∅, .ok, 5, 4, 0, 3, .empty, []⟩, [currentText], none, [], []⟩

theorem recovered_emptyFiles : emptyFiles.Recovered :=
  ⟨by decide, rfl, rfl, rfl, rfl, rfl, fun n hn => absurd hn (by simp [Version.numbers, emptyFiles,
    Version.empty])⟩

/-- A compaction abandons its output, and the next one has opened another. -/
def abandonedOutput : List FilesAction :=
  [.openCompactionOutputFile, .createTable 5, .cleanupCompaction, .openCompactionOutputFile,
    .createTable 6]

/-- Then the file that was abandoned is deleted, and the output that is open is pending. -/
theorem deleteObsoleteFiles_safe_abandoned :
    ∃ s, Run (Step bytewiseComparator) emptyFiles abandonedOutput s ∧
      s.Enabled (.deleteObsoleteFiles s.directory) ∧
      s.db.deleteObsoleteFiles s.directory = [tableBaseName 5] ∧
      s.db.Obsolete (tableBaseName 5) ∧ 6 ∈ s.outputs ∧ 6 ∈ s.db.pendingOutputs := by
  obtain ⟨s, hrun, henabled, houtputs, hdeleted⟩ : ∃ s,
      Run (Step bytewiseComparator) emptyFiles abandonedOutput s ∧
        s.Enabled (.deleteObsoleteFiles s.directory) ∧ 6 ∈ s.outputs ∧
          s.db.deleteObsoleteFiles s.directory = [tableBaseName 5] :=
    ⟨_, .cons ⟨⟨by decide, rfl, rfl⟩, rfl⟩ <| .cons ⟨.inr (by decide), rfl⟩ <|
      .cons ⟨⟨rfl, rfl⟩, rfl⟩ <| .cons ⟨⟨by decide, rfl, rfl⟩, rfl⟩ <|
      .cons ⟨.inr (by decide), rfl⟩ <| .nil _, ⟨rfl, rfl⟩, List.mem_singleton_self 6,
      by decide +kernel⟩
  have hsafe := deleteObsoleteFiles_safe recovered_emptyFiles hrun
  exact ⟨s, hrun, henabled, hdeleted, hsafe.1 s.directory _ (by rw [hdeleted]; simp), houtputs,
    hsafe.2.2.1 6 (.inr houtputs)⟩

/-- A table that was built and is not installed yet is not pending. -/
theorem inProgress_not_pending : ¬ ∀ (ucmp : Comparator) (s₀ s : FilesState)
    (actions : List FilesAction), s₀.Recovered → Run (Step ucmp) s₀ actions s →
      ∀ number, s.InProgress number → number ∈ s.db.pendingOutputs := by
  intro h
  have hexists : ∀ s : FilesState, s.directory = [currentText, tableBaseName 5] → s.Exists 5 := by
    intro s hs
    exact ⟨tableBaseName 5, by simp [hs], parseFileName_table (by decide)⟩
  have hrun : Run (Step bytewiseComparator) emptyFiles
      [.writeLevel0Table, .createTable 5, .tableBuilt true] _ :=
    .cons ⟨⟨by decide, rfl⟩, rfl⟩ <| .cons ⟨.inl rfl, rfl⟩ <|
      .cons ⟨⟨5, rfl, fun _ => hexists _ rfl⟩, rfl⟩ <| .nil _
  have hpending := h bytewiseComparator _ _ _ recovered_emptyFiles hrun 5
    (.inr (.inl (List.mem_singleton_self 5)))
  exact absurd hpending (by decide)

end FilesState

end WiscKey
