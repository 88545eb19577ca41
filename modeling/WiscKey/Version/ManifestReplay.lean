import WiscKey.Version.Manifest

/-!
# Replaying a manifest

A descriptor is a list of edits. Recovery applies them one after the other to a builder of
the empty version, whether they are a snapshot, its followers or the edits of a new database.
-/

namespace WiscKey

section CompactPointers

variable (ptrs ptrs' : Level → Bytes) (l : List (Level × Bytes)) (edit : VersionEdit Bytes)

@[simp] theorem setPointer_self (p : Level × Bytes) : setPointer ptrs p p.1 = p.2 :=
  Function.update_self ..

theorem setPointer_of_ne {p : Level × Bytes} {level : Level} (h : level ≠ p.1) :
    setPointer ptrs p level = ptrs level := Function.update_of_ne h ..

private theorem foldl_setPointer_of_notMem {level : Level} (h : ∀ p ∈ l, p.1 ≠ level) :
    l.foldl setPointer ptrs level = ptrs level := by
  induction l generalizing ptrs with
  | nil => rfl
  | cons p l ih =>
    rw [List.foldl_cons, ih _ fun q hq => h q (List.mem_cons_of_mem _ hq)]
    exact setPointer_of_ne ptrs (h p (List.mem_cons_self ..)).symm

private theorem foldl_setPointer_congr
    (h : ∀ level, (∀ p ∈ l, p.1 ≠ level) → ptrs level = ptrs' level) :
    l.foldl setPointer ptrs = l.foldl setPointer ptrs' := by
  induction l generalizing ptrs ptrs' with
  | nil => exact funext fun level => h level fun p hp => nomatch hp
  | cons p l ih =>
    refine ih _ _ fun level hl => ?_
    rcases eq_or_ne level p.1 with rfl | hne
    · rw [setPointer_self, setPointer_self]
    · rw [setPointer_of_ne _ hne, setPointer_of_ne _ hne]
      refine h level fun q hq => ?_
      rcases List.mem_cons.mp hq with rfl | hq
      · exact hne.symm
      · exact hl q hq

/-- An edit that was applied before changes no pointer. -/
theorem setCompactPointers_idem :
    setCompactPointers (setCompactPointers ptrs edit) edit = setCompactPointers ptrs edit := by
  apply foldl_setPointer_congr
  intro level hlevel
  exact foldl_setPointer_of_notMem ptrs _ hlevel

theorem setCompactPointers_mem {P : Bytes → Prop} (hptrs : ∀ level, P (ptrs level))
    (hedit : ∀ p ∈ edit.compactPointers, P p.2) (level : Level) :
    P (setCompactPointers ptrs edit level) := by
  unfold setCompactPointers
  generalize edit.compactPointers = l at hedit
  induction l generalizing ptrs with
  | nil => exact hptrs level
  | cons p l ih =>
    refine ih _ (fun level => ?_) fun q hq => hedit q (List.mem_cons_of_mem _ hq)
    rcases eq_or_ne level p.1 with rfl | hne
    · rw [setPointer_self]
      exact hedit p (List.mem_cons_self ..)
    · rw [setPointer_of_ne _ hne]
      exact hptrs level

/-- The pointers of a snapshot are those of the version set. -/
theorem setCompactPointers_snapshot (ucmp : Comparator) (v : VersionSet) :
    setCompactPointers (fun _ => []) (v.snapshotEdit ucmp) = v.compactPointer := by
  have hlevels : ∀ (levels : List Level) ptrs level,
      (levels.filterMap fun level => if (v.compactPointer level).isEmpty then none
        else some (level, v.compactPointer level)).foldl setPointer ptrs level =
        if level ∈ levels ∧ v.compactPointer level ≠ [] then v.compactPointer level
        else ptrs level := by
    intro levels
    induction levels with
    | nil => intro ptrs level; simp
    | cons at_ levels ih =>
      intro ptrs level
      rw [List.filterMap_cons]
      cases hempty : (v.compactPointer at_).isEmpty with
      | true =>
        simp only [if_true, ih]
        have hnil := List.isEmpty_iff.mp hempty
        rcases eq_or_ne level at_ with rfl | hne
        · simp [hnil]
        · simp [hne]
      | false =>
        simp only [Bool.false_eq_true, if_false, List.foldl_cons, ih]
        have hnil : v.compactPointer at_ ≠ [] := by
          intro h
          rw [h] at hempty
          cases hempty
        rcases eq_or_ne level at_ with rfl | hne
        · simp [hnil, setPointer]
        · simp [hne, setPointer]
  funext level
  unfold setCompactPointers VersionSet.snapshotEdit
  rw [hlevels, if_congr (and_iff_right (List.mem_finRange level)) rfl rfl]
  by_cases hnil : v.compactPointer level = []
  · rw [if_neg (not_not.mpr hnil), hnil]
  · rw [if_pos hnil]

end CompactPointers

namespace VersionSet

/-- A number stands for at most one file. -/
def Numbered (b : Level → List (FileMetaData Bytes)) : Prop :=
  ∀ level level' f g, f ∈ b level → g ∈ b level' → f.number = g.number → f = g

section Snapshot

variable {ucmp : Comparator} {v : VersionSet}

theorem mem_newFiles_snapshotEdit {level : Level} {f : FileMetaData Bytes} :
    (level, f) ∈ (v.snapshotEdit ucmp).newFiles ↔ f ∈ v.current.files level := by
  simp only [snapshotEdit, List.mem_flatMap, List.mem_map, Prod.mk.injEq]
  constructor
  · rintro ⟨_, -, _, hf, rfl, rfl⟩
    exact hf
  · exact fun hf => ⟨level, List.mem_finRange level, f, hf, rfl, rfl⟩

/-- A snapshot adds the files of its version. -/
theorem mem_addedFiles_snapshot (hnumbered : Numbered v.current.files) {level : Level}
    {f : FileMetaData Bytes} :
    f ∈ ((Builder.init ucmp.internalCompare).apply (v.snapshotEdit ucmp)
      level).addedFiles.toList ↔ f ∈ v.current.files level := by
  rw [Builder.mem_addedFiles_apply, mem_newFiles_snapshotEdit]
  · simp [Builder.init, OrderedSet.empty]
  · rintro f g (hf | hf) (hg | hg)
    · cases hf
    · cases hf
    · cases hg
    · exact hnumbered _ _ f g (mem_newFiles_snapshotEdit.mp hf) (mem_newFiles_snapshotEdit.mp hg)

/-- What is built from a snapshot is its version. -/
theorem saveTo_snapshot (hnumbered : Numbered v.current.files)
    (hincreasing : ∀ level, Increasing (bySmallestKey ucmp.internalCompare)
      (v.current.files level)) :
    ((Builder.init ucmp.internalCompare).apply (v.snapshotEdit ucmp)).saveTo .empty =
      v.current := by
  have hfiles : ∀ level, (((Builder.init ucmp.internalCompare).apply
      (v.snapshotEdit ucmp)).saveTo .empty).files level = v.current.files level := by
    intro level
    apply @Increasing.eq_of_mem_iff _ (bySmallestKey ucmp.internalCompare)
    · refine Builder.increasing_saveTo _ level List.Pairwise.nil fun f _ g hg => ?_
      cases hg
    · exact hincreasing level
    · intro f
      rw [Builder.mem_saveTo, mem_addedFiles_snapshot hnumbered, Builder.mem_deletedFiles_apply]
      simp [Version.empty, Builder.init, snapshotEdit, VersionEdit.empty, OrderedSet.empty]
  cases hv : v.current with
  | mk files =>
    rw [Version.mk.injEq]
    rw [hv] at hfiles
    exact funext hfiles

end Snapshot

namespace Recovering

variable {ucmp : Comparator} (r : Recovering ucmp)

/-- What an edit that is read back does. -/
def step (r : Recovering ucmp) (edit : VersionEdit Bytes) : Recovering ucmp :=
  (r.applyEdit edit).setNumbers edit

/-- The variables behind the edits of a descriptor. -/
def replay (ucmp : Comparator) (edits : List (VersionEdit Bytes)) : Recovering ucmp :=
  edits.foldl step (.start .init)

@[simp] theorem replay_append (edits : List (VersionEdit Bytes)) (edit : VersionEdit Bytes) :
    replay ucmp (edits ++ [edit]) = (replay ucmp edits).step edit := by
  rw [replay, List.foldl_append]
  rfl

/-- The edits of a descriptor can be read back, and name no other comparator. -/
def Readable (ucmp : Comparator) (edit : VersionEdit Bytes) : Prop :=
  edit.Fits ∧ (edit.comparator = none ∨ edit.comparator = some ucmp.name)

theorem record_encodeTo {edit : VersionEdit Bytes} (h : Readable ucmp edit) :
    r.record edit.encodeTo = r.step edit := by
  have hname : checkComparator ucmp edit.comparator = .ok := by
    rcases h.2 with hnone | hsome
    · rw [hnone]
      rfl
    · rw [hsome]
      exact if_pos rfl
  rw [record, VersionEdit.decodeFrom_encodeTo h.1]
  simp only [hname]
  rfl

@[simp] theorem status_replay (edits : List (VersionEdit Bytes)) :
    (replay ucmp edits).status = .ok := by
  induction edits using List.reverseRecOn with
  | nil => rfl
  | append_singleton edits edit ih => rw [replay_append]; exact ih

theorem foldl_record {edits : List (VersionEdit Bytes)} (h : ∀ e ∈ edits, Readable ucmp e) :
    (edits.map VersionEdit.encodeTo).foldl record r = edits.foldl step r := by
  induction edits generalizing r with
  | nil => rfl
  | cons edit edits ih =>
    rw [List.map_cons, List.foldl_cons, List.foldl_cons,
      record_encodeTo _ (h edit (List.mem_cons_self ..))]
    exact ih _ fun e he => h e (List.mem_cons_of_mem _ he)

/-- A descriptor that holds edits is replayed. -/
theorem forRecords_holds {w : Log.Writer} {edits : List (VersionEdit Bytes)}
    (hholds : w.Holds (edits.map VersionEdit.encodeTo)) (h : ∀ e ∈ edits, Readable ucmp e) :
    (Log.Reader.ofFile w.dest true 0).forRecords report (fun r => r.status == .ok) record
      (.start .init) = replay ucmp edits := by
  rw [(hholds.reads true).forRecords, replay, ← foldl_record _ h]
  refine Log.Reader.whileOk_eq_foldl (fun r records => r.status = .ok ∧
    ∃ rest : List (VersionEdit Bytes), (∀ e ∈ rest, Readable ucmp e) ∧
      records = rest.map VersionEdit.encodeTo) ?_ ?_
  · exact ⟨rfl, edits, h, rfl⟩
  · rintro r encoded records ⟨hok, rest, hrest, hrecords⟩
    cases rest with
    | nil => cases hrecords
    | cons edit rest =>
      obtain ⟨rfl, rfl⟩ := List.cons.inj hrecords
      have hedit := hrest edit (List.mem_cons_self ..)
      refine ⟨by simp [hok], ?_, rest, fun e he => hrest e (List.mem_cons_of_mem _ he), rfl⟩
      rw [record_encodeTo r hedit]
      exact hok

/-- A descriptor that begins with the name of another comparator is refused at once. -/
theorem forRecords_other {other : Comparator} {w : Log.Writer} {edit : VersionEdit Bytes}
    {records : List Bytes} (hholds : w.Holds (edit.encodeTo :: records)) (hfits : edit.Fits)
    (hname : edit.comparator = some ucmp.name) (hother : ucmp.name ≠ other.name) :
    ∃ msg, ((Log.Reader.ofFile w.dest true 0).forRecords report (fun r => r.status == .ok) record
      (.start .init) : Recovering other).status = .invalidArgument msg := by
  have hrefused : ∃ msg, ((start .init : Recovering other).record edit.encodeTo).status =
      .invalidArgument msg := by
    rw [record, VersionEdit.decodeFrom_encodeTo hfits]
    simp only [checkComparator, hname, if_neg hother]
    exact ⟨_, rfl⟩
  obtain ⟨msg, hmsg⟩ := hrefused
  refine ⟨msg, ?_⟩
  rw [(hholds.reads true).forRecords, Log.Reader.whileOk,
    if_pos (show ((start .init : Recovering other).status == .ok) = true from rfl)]
  cases records with
  | nil => exact hmsg
  | cons record records =>
    rw [Log.Reader.whileOk, if_neg (by simp [hmsg])]
    exact hmsg

end Recovering

end VersionSet

section CurrentFile

variable (dbname : Bytes) (disk : Disk) (m n : Nat)

/-- `SetCurrentFile` writes the base name of the descriptor and a newline. -/
theorem read_current_setCurrentFile :
    (setCurrentFile dbname disk m).read (currentFileName dbname) =
      some (manifestText ++ (paddedDecimal m ++ [10])) := by
  have hdrop : (descriptorFileName dbname m).drop (dbname.length + 1) =
      manifestText ++ paddedDecimal m := by
    rw [descriptorFileName, List.drop_append]
    simp [ascii]
  rw [setCurrentFile, Disk.renameFile, Disk.read_write_self]
  simp only [Disk.read_write_self, hdrop, List.append_assoc]
  rfl

theorem read_descriptor_setCurrentFile :
    (setCurrentFile dbname disk m).read (descriptorFileName dbname n) =
      disk.read (descriptorFileName dbname n) := by
  rw [setCurrentFile, Disk.renameFile, Disk.read_write_self]
  simp only
  rw [Disk.read_write_of_ne _ _ (currentFileName_ne_descriptor dbname n).symm,
    Disk.read_deleteFile_of_ne _ (tempFileName_ne_descriptor dbname m n).symm,
    Disk.read_write_of_ne _ _ (tempFileName_ne_descriptor dbname m n).symm]

end CurrentFile

end WiscKey
