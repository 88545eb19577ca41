import WiscKey.Compaction.Lookup

/-!
# The results of a compaction

The work of a compaction leaves its inputs and its edit alone. The edit of the results deletes the
inputs and adds a file for each output, and what was written is what is kept of the input.
-/

namespace WiscKey

variable {ucmp : Comparator} {maxFileSize smallestSnapshot : Nat} {c c' c'' : Compaction}
  {st : CompactionState} {keys : KeyState} {e : TableEntry} {key : Bytes}

/-- Compactions of the same inputs into the same edit. -/
structure Compaction.SameInputs (c c' : Compaction) : Prop where
  level : c'.level = c.level
  inputs0 : c'.inputs0 = c.inputs0
  inputs1 : c'.inputs1 = c.inputs1
  edit : c'.edit = c.edit

namespace Compaction

theorem SameInputs.refl (c : Compaction) : c.SameInputs c := ⟨rfl, rfl, rfl, rfl⟩

theorem SameInputs.trans (h : c.SameInputs c') (h' : c'.SameInputs c'') : c.SameInputs c'' :=
  ⟨h'.level.trans h.level, h'.inputs0.trans h.inputs0, h'.inputs1.trans h.inputs1,
    h'.edit.trans h.edit⟩

theorem sameInputs_shouldStopBefore :
    c.SameInputs (c.shouldStopBefore ucmp maxFileSize key).2 := by
  simp only [shouldStopBefore]
  split_ifs
  all_goals exact ⟨rfl, rfl, rfl, rfl⟩

theorem sameInputs_dropEntry :
    c.SameInputs (dropEntry ucmp smallestSnapshot keys c key).2.2 := by
  unfold dropEntry
  cases parseInternalKey key with
  | none => exact .refl c
  | some ikey =>
    simp only
    generalize (if (!keys.hasCurrentUserKey ||
      decide (ucmp.compare ikey.userKey keys.currentUserKey ≠ .eq)) = true then
        (⟨ikey.userKey, true, kMaxSequenceNumber⟩ : KeyState) else keys) = next
    split
    · exact .refl c
    · split
      · exact ⟨rfl, rfl, rfl, rfl⟩
      · exact .refl c

end Compaction

namespace CompactionState

theorem compaction_finishOpenOutput (env : FinishEnv) :
    (st.finishOpenOutput env).2.compaction = st.compaction := by
  rw [finishOpenOutput]
  cases st.builder with
  | none => rfl
  | some o =>
    simp only [finishCompactionOutputFile]
    split
    · rfl
    · rfl

theorem compaction_keepEntry (env : RoundEnv) :
    (st.keepEntry env keys e).2.compaction = st.compaction := by
  have hfull : ∀ st' : CompactionState, st'.compaction = st.compaction →
      (if st'.compaction.maxOutputFileSize ≤ env.builderSize then
        st'.finishOpenOutput env.fullFinish else (.ok, st')).2.compaction = st.compaction := by
    intro st' hsame
    split
    · rw [compaction_finishOpenOutput, hsame]
    · exact hsame
  cases ho : st.builder with
  | some o =>
    simp only [keepEntry, ho]
    exact hfull _ rfl
  | none =>
    by_cases hnew : env.newWritableFile = .ok
    · simp only [keepEntry, ho, openCompactionOutputFile, if_pos hnew]
      exact hfull _ rfl
    · simp only [keepEntry, ho, openCompactionOutputFile, if_neg hnew]

theorem sameInputs_startRound (env : RoundEnv) :
    st.compaction.SameInputs (st.startRound ucmp maxFileSize env key).2.compaction := by
  simp only [startRound]
  split
  · rw [compaction_finishOpenOutput]
    exact Compaction.sameInputs_shouldStopBefore
  · exact Compaction.sameInputs_shouldStopBefore

theorem sameInputs_round (env : RoundEnv) :
    st.compaction.SameInputs (st.round ucmp maxFileSize env keys e).2.2.compaction := by
  have hstart := @sameInputs_startRound ucmp maxFileSize st e.key env
  simp only [round]
  generalize st.startRound ucmp maxFileSize env e.key = start at hstart
  have hdrop := @Compaction.sameInputs_dropEntry ucmp start.2.smallestSnapshot start.2.compaction
    keys e.key
  split
  · split
    · exact hstart.trans hdrop
    · rw [compaction_keepEntry]
      exact hstart.trans hdrop
  · exact hstart

theorem sameInputs_loop (rounds : List (TableEntry × RoundEnv)) :
    st.compaction.SameInputs (st.loop ucmp maxFileSize rounds keys).2.2.compaction := by
  induction rounds generalizing st keys with
  | nil => exact .refl _
  | cons r rounds ih =>
    obtain ⟨e, env⟩ := r
    rw [loop]
    split
    · exact .refl _
    · have hround := @sameInputs_round ucmp maxFileSize st keys e env
      simp only
      split
      · exact hround.trans ih
      · exact hround

end CompactionState

theorem sameInputs_doCompactionWork (env : WorkEnv) : c.SameInputs
    (doCompactionWork ucmp maxFileSize env c smallestSnapshot).state.compaction := by
  have hloop := @CompactionState.sameInputs_loop ucmp maxFileSize (.init c smallestSnapshot) .init
    env.rounds
  simp only [doCompactionWork]
  generalize CompactionState.loop ucmp maxFileSize env.rounds .init
    (.init c smallestSnapshot) = run at hloop
  obtain ⟨status, left, st⟩ := run
  simp only
  generalize (if status = .ok ∧ (left = true ∨ env.shuttingDown = true) then
    Status.ioError "Deleting DB during compaction" else status) = s
  have hlast : c.SameInputs
      (if s = .ok then st.finishOpenOutput env.lastFinish else (s, st)).2.compaction := by
    split
    · rw [CompactionState.compaction_finishOpenOutput]
      exact hloop
    · exact hloop
  generalize (if s = .ok then st.finishOpenOutput env.lastFinish else (s, st)) = last at hlast
  split
  · exact hlast
  · exact hlast

section Edit

theorem newFiles_addInputDeletions (edit : VersionEdit Bytes) :
    (c.addInputDeletions edit).newFiles = edit.newFiles := by
  have hfold : ∀ (files : List TableFile) (level : Level) (edit : VersionEdit Bytes),
      (files.foldl (fun e f => e.deleteFile level f.number) edit).newFiles = edit.newFiles := by
    intro files level
    induction files with
    | nil => exact fun edit => rfl
    | cons f files ih => exact fun edit => ih _
  simp only [Compaction.addInputDeletions]
  rw [hfold, hfold]

/-- The files that the edit deletes are the inputs. -/
theorem mem_deletedFiles_addInputDeletions {edit : VersionEdit Bytes}
    (hedit : edit.deletedFiles = .empty _) (p : Level × Nat) :
    p ∈ (c.addInputDeletions edit).deletedFiles.toList ↔
      (p.1 = c.level ∧ ∃ f ∈ c.inputs0, f.number = p.2) ∨
        (p.1 = nextLevel c.level ∧ ∃ f ∈ c.inputs1, f.number = p.2) := by
  have hfold : ∀ (files : List TableFile) (level : Level) (edit : VersionEdit Bytes),
      p ∈ (files.foldl (fun e f => e.deleteFile level f.number) edit).deletedFiles.toList ↔
        p ∈ edit.deletedFiles.toList ∨ (p.1 = level ∧ ∃ f ∈ files, f.number = p.2) := by
    intro files level
    induction files with
    | nil => simp
    | cons f files ih =>
      intro edit
      have hinsert : p ∈ (edit.deleteFile level f.number).deletedFiles.toList ↔
          p = (level, f.number) ∨ p ∈ edit.deletedFiles.toList := by
        refine mem_insertOrdered_iff fun b _ heq => ?_
        obtain ⟨hlevel, hnumber⟩ := Ordering.then_eq_eq.mp heq
        exact Prod.ext (compare_eq_iff_eq.mp hlevel) (Nat.compare_eq_eq.mp hnumber)
      rw [List.foldl_cons, ih, hinsert, Prod.ext_iff]
      simp only [List.mem_cons, exists_eq_or_imp]
      tauto
  simp only [Compaction.addInputDeletions]
  rw [hfold, hfold, hedit]
  simp only [OrderedSet.empty, List.not_mem_nil, false_or]
  rfl

/-- The edit of the results adds the outputs, and deletes what the edit before it deletes. -/
theorem installEdit_spec :
    st.installEdit.newFiles = st.compaction.edit.newFiles ++
        st.outputFiles.map (fun f => (nextLevel st.compaction.level, f)) ∧
      st.installEdit.deletedFiles =
        (st.compaction.addInputDeletions st.compaction.edit).deletedFiles := by
  have hfold : ∀ (outputs : List (Output × List TableEntry)) (level : Level)
      (edit : VersionEdit Bytes),
      (outputs.foldl (fun edit o => edit.addFile level
          ⟨o.1.number, o.1.fileSize, o.1.smallest, o.1.largest⟩) edit).newFiles =
        edit.newFiles ++ outputs.map (fun o =>
          (level, (⟨o.1.number, o.1.fileSize, o.1.smallest, o.1.largest⟩ : TableFile))) ∧
      (outputs.foldl (fun edit o => edit.addFile level
          ⟨o.1.number, o.1.fileSize, o.1.smallest, o.1.largest⟩) edit).deletedFiles =
        edit.deletedFiles := by
    intro outputs level
    induction outputs with
    | nil => exact fun edit => ⟨(List.append_nil _).symm, rfl⟩
    | cons o outputs ih =>
      intro edit
      obtain ⟨hnew, hdeleted⟩ := ih
        (edit.addFile level ⟨o.1.number, o.1.fileSize, o.1.smallest, o.1.largest⟩)
      rw [List.foldl_cons, hnew, hdeleted]
      refine ⟨?_, rfl⟩
      rw [VersionEdit.addFile, List.append_assoc]
      rfl
  obtain ⟨hnew, hdeleted⟩ := hfold st.outputs (Fin.ofNat kNumLevels (st.compaction.level.val + 1))
    (st.compaction.addInputDeletions st.compaction.edit)
  rw [CompactionState.installEdit, hnew, hdeleted, newFiles_addInputDeletions,
    CompactionState.outputFiles, List.map_map]
  exact ⟨rfl, rfl⟩

end Edit

/-- What the outputs of a compaction hold whose results are installed. -/
structure CompactionState.HasResults (ucmp : Comparator) (c : Compaction) (smallestSnapshot : Nat)
    (input : List TableEntry) (st : CompactionState) : Prop where
  written : st.outputs.flatMap Prod.snd = survivors ucmp smallestSnapshot .init c input
  describes : ∀ p ∈ st.outputs, p.1.Describes p.2
  sameInputs : c.SameInputs st.compaction

theorem hasResults_doCompactionWork {env : WorkEnv}
    (hinstall : (doCompactionWork ucmp maxFileSize env c smallestSnapshot).install.isSome) :
    (doCompactionWork ucmp maxFileSize env c smallestSnapshot).state.HasResults ucmp c
      smallestSnapshot env.input := by
  obtain ⟨hok, hbuilder⟩ := doCompactionWork_written.1 hinstall
  refine ⟨?_, hok.outputs, sameInputs_doCompactionWork env⟩
  have hwritten := hok.written
  rw [CompactionState.written, hbuilder] at hwritten
  simpa using hwritten

end WiscKey
