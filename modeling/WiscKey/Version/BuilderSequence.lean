import WiscKey.Version.Builder
import Mathlib.Order.Fin.Basic

/-!
# A builder against edits one at a time

The files of a version after an edit are those it had, less the deleted ones, with the new ones
inserted in order. A builder that gathered any number of edits saves what these give one after
the other, and the assertions of `MaybeAddFile` and `SaveTo` hold where the files of each level
above the lowest are disjoint.
-/

namespace WiscKey

variable {κ : Type}

/-- The files that an edit adds to a level. -/
def VersionEdit.newFilesAt (edit : VersionEdit κ) (level : Level) : List (FileMetaData κ) :=
  edit.newFiles.filterMap fun p => if p.1 = level then some p.2 else none

/-- One edit on its own: the files less the deleted ones, and the new ones in their places. -/
def Version.applyEdit (cmp : κ → κ → Ordering) (v : Version κ) (edit : VersionEdit κ) :
    Version κ where
  files level := (edit.newFilesAt level).foldl
    (fun files f => insertOrdered (bySmallestKey cmp) f files)
    ((v.files level).filter fun f => (level, f.number) ∉ edit.deletedFiles.toList)

/-- Every file of a level ends before those behind it begin. -/
def DisjointFiles (cmp : κ → κ → Ordering) (files : List (FileMetaData κ)) : Prop :=
  files.Pairwise fun f g => cmp f.largest g.smallest = .lt

instance (cmp : κ → κ → Ordering) (files : List (FileMetaData κ)) :
    Decidable (DisjointFiles cmp files) :=
  inferInstanceAs (Decidable (files.Pairwise _))

/-- The files of every level but the first are disjoint. -/
def Version.Disjoint (cmp : κ → κ → Ordering) (v : Version κ) : Prop :=
  ∀ level : Level, level ≠ 0 → DisjointFiles cmp (v.files level)

namespace Builder

variable {cmp : κ → κ → Ordering}

/-- `MaybeAddFile`; none where its assertion fails. -/
def maybeAddFile (b : Builder cmp) (level : Level) (files : List (FileMetaData κ))
    (f : FileMetaData κ) : Option (List (FileMetaData κ)) :=
  if f.number ∈ (b level).deletedFiles then some files
  else
    match files.getLast? with
    | none => some (files ++ [f])
    | some last =>
      if level = 0 ∨ cmp last.largest f.smallest = .lt then some (files ++ [f]) else none

/-- What `SaveTo` stores of a level; none where an assertion fails or files overlap. -/
def saveLevel (b : Builder cmp) (base : Version κ) (level : Level) :
    Option (List (FileMetaData κ)) := do
  let files ← (mergeOrdered (bySmallestKey cmp) (base.files level)
    (b level).addedFiles.toList).foldlM (b.maybeAddFile level) []
  if level = 0 ∨ files.IsChain fun f g => cmp f.largest g.smallest = .lt then some files
  else none

section Assertions

/-- The assertion holds of files that come out disjoint. -/
theorem foldlM_maybeAddFile (b : Builder cmp) (level : Level) (l files : List (FileMetaData κ))
    (h : level = 0 ∨ DisjointFiles cmp
      (files ++ l.filter fun f => f.number ∉ (b level).deletedFiles)) :
    l.foldlM (b.maybeAddFile level) files =
      some (files ++ l.filter fun f => f.number ∉ (b level).deletedFiles) := by
  induction l generalizing files with
  | nil => simp
  | cons f l ih =>
    rw [List.foldlM_cons, maybeAddFile]
    by_cases hdeleted : f.number ∈ (b level).deletedFiles
    · rw [if_pos hdeleted, List.filter_cons_of_neg (by simpa using hdeleted)]
      rw [List.filter_cons_of_neg (by simpa using hdeleted)] at h
      exact ih files h
    · have hsplit : files ++ List.filter (fun f => f.number ∉ (b level).deletedFiles) (f :: l) =
          (files ++ [f]) ++ List.filter (fun f => f.number ∉ (b level).deletedFiles) l := by
        rw [List.filter_cons_of_pos (by simpa using hdeleted), List.append_assoc,
          List.singleton_append]
      rw [if_neg hdeleted, hsplit]
      rw [hsplit] at h
      have hadd : (match files.getLast? with
          | none => some (files ++ [f])
          | some last =>
            if level = 0 ∨ cmp last.largest f.smallest = .lt then some (files ++ [f]) else none) =
          some (files ++ [f]) := by
        cases hlast : files.getLast? with
        | none => rfl
        | some last =>
          have hmem := List.mem_of_getLast? hlast
          refine if_pos (h.imp_right fun hdisjoint => ?_)
          rw [DisjointFiles, List.append_assoc, List.singleton_append] at hdisjoint
          exact (List.pairwise_append.mp hdisjoint).2.2 last hmem f List.mem_cons_self
      rw [hadd]
      exact ih (files ++ [f]) h

theorem saveLevel_eq {b : Builder cmp} {base : Version κ} {level : Level}
    (h : level ≠ 0 → DisjointFiles cmp ((b.saveTo base).files level)) :
    b.saveLevel base level = some ((b.saveTo base).files level) := by
  have hcases : level = 0 ∨ DisjointFiles cmp ((b.saveTo base).files level) :=
    (eq_or_ne level 0).imp_right h
  have hfold := foldlM_maybeAddFile b level (mergeOrdered (bySmallestKey cmp) (base.files level)
    (b level).addedFiles.toList) [] hcases
  rw [saveLevel, hfold]
  exact if_pos (hcases.imp_right fun hdisjoint => hdisjoint.isChain)

end Assertions

section Sequence

variable [Std.TransCmp cmp] {b : Builder cmp} {base : Version κ}

/-- A new file is not in the base, and an added file of its number is not deleted. -/
def Takes (b : Builder cmp) (base : Version κ) (p : Level × FileMetaData κ) : Prop :=
  (∀ g ∈ base.files p.1, g.number ≠ p.2.number) ∧
    ∀ g ∈ (b p.1).addedFiles.toList, g.number = p.2.number →
      p.2.number ∉ (b p.1).deletedFiles

/-- No file of the base was added. -/
def Apart (b : Builder cmp) (base : Version κ) : Prop :=
  ∀ level, ∀ f ∈ (b level).addedFiles.toList, ∀ g ∈ base.files level, f.number ≠ g.number

theorem mem_addFile {p : Level × FileMetaData κ} {level : Level} {f : FileMetaData κ}
    (h : f ∈ (b.addFile p level).addedFiles.toList) :
    f ∈ (b level).addedFiles.toList ∨ (level, f) = p := by
  rw [addFile] at h
  rcases eq_or_ne level p.1 with rfl | hne
  · rw [Function.update_self] at h
    exact (mem_of_mem_insertOrdered h).symm.imp_right fun hf => by rw [hf]
  · rw [Function.update_of_ne hne] at h
    exact .inl h

theorem Apart.addFile (h : b.Apart base) {p : Level × FileMetaData κ} (hp : b.Takes base p) :
    (b.addFile p).Apart base := by
  intro level f hf g hg
  rcases mem_addFile hf with hf | rfl
  · exact h level f hf g hg
  · exact (hp.1 g hg).symm

/-- One more file is saved in its place. -/
theorem saveTo_addFile (hbase : ∀ level, Increasing (bySmallestKey cmp) (base.files level))
    (h : b.Apart base) {p : Level × FileMetaData κ} (hp : b.Takes base p) (level : Level) :
    ((b.addFile p).saveTo base).files level =
      if p.1 = level then insertOrdered (bySmallestKey cmp) p.2 ((b.saveTo base).files level)
      else (b.saveTo base).files level := by
  have hold := increasing_saveTo b level (hbase level) (h level)
  obtain ⟨at_, f⟩ := p
  rcases eq_or_ne at_ level with rfl | hne
  · have hself : (b.addFile (at_, f)) at_ =
        ⟨(b at_).deletedFiles.erase f.number, (b at_).addedFiles.insert f⟩ :=
      Function.update_self ..
    rw [if_pos rfl]
    refine @Increasing.eq_of_mem_iff _ (bySmallestKey cmp) _ _ _ ?_
      (increasing_insertOrdered hold) fun g => ?_
    · exact increasing_saveTo _ at_ (hbase at_) (h.addFile hp at_)
    · have hadded : g ∈ (b.addFile (at_, f) at_).addedFiles.toList ↔ g ∈ (b at_).addedFiles.toList ∨
          g = f ∧ ∀ c ∈ (b at_).addedFiles.toList, bySmallestKey cmp f c ≠ .eq := by
        rw [hself]
        exact (b at_).addedFiles.increasing.mem_insertOrdered
      have hdeleted : g.number ∉ (b.addFile (at_, f) at_).deletedFiles ↔
          g.number = f.number ∨ g.number ∉ (b at_).deletedFiles := by
        rw [hself, Finset.mem_erase, not_and_or, not_not]
      have hkept : ∀ c ∈ (b at_).addedFiles.toList, c.number = f.number →
          c ∈ (b.saveTo base).files at_ := by
        intro c hc hnumber
        exact (mem_saveTo b at_).mpr ⟨.inr hc, hnumber ▸ hp.2 c hc hnumber⟩
      rw [hold.mem_insertOrdered, mem_saveTo, hadded, hdeleted]
      constructor
      · rintro ⟨hg | hg | ⟨rfl, hnew⟩, hnumber⟩
        · have hne := hp.1 g hg
          exact .inl ((mem_saveTo b at_).mpr ⟨.inl hg, hnumber.resolve_left hne⟩)
        · rcases hnumber with hnumber | hnumber
          · exact .inl (hkept g hg hnumber)
          · exact .inl ((mem_saveTo b at_).mpr ⟨.inr hg, hnumber⟩)
        · refine .inr ⟨rfl, fun c hc heq => ?_⟩
          have hnumber := number_eq_of_bySmallestKey heq
          rcases ((mem_saveTo b at_).mp hc).1 with hc | hc
          · exact hp.1 c hc hnumber.symm
          · exact hnew c hc heq
      · rintro (hg | ⟨rfl, hnew⟩)
        · obtain ⟨hmem, hnumber⟩ := (mem_saveTo b at_).mp hg
          exact ⟨hmem.imp_right .inl, .inr hnumber⟩
        · refine ⟨.inr (.inr ⟨rfl, fun c hc heq => ?_⟩), .inl rfl⟩
          exact hnew c (hkept c hc (number_eq_of_bySmallestKey heq).symm) heq
  · have hother : (b.addFile (at_, f)) level = b level := Function.update_of_ne hne.symm _ _
    rw [if_neg hne]
    simp only [saveTo, hother]

theorem Takes.addFile {p q : Level × FileMetaData κ} (hq : b.Takes base q) :
    (b.addFile p).Takes base q := by
  refine ⟨hq.1, fun g hg hnumber => ?_⟩
  have hstep : ∀ n, n ∈ (b.addFile p q.1).deletedFiles →
      n ∈ (b q.1).deletedFiles ∧ ∀ f, (q.1, f) = p → f.number ≠ n := by
    intro n hn
    rw [Builder.addFile] at hn
    rcases eq_or_ne q.1 p.1 with heq | hne
    · rw [heq, Function.update_self, Finset.mem_erase] at hn
      refine ⟨heq ▸ hn.2, fun f hf => ?_⟩
      rw [← hf] at hn
      exact hn.1.symm
    · rw [Function.update_of_ne hne] at hn
      exact ⟨hn, fun f hf => absurd (congrArg Prod.fst hf) hne⟩
  intro hdeleted
  obtain ⟨hold, hnew⟩ := hstep _ hdeleted
  rcases mem_addFile hg with hg | hg
  · exact hq.2 g hg hnumber hold
  · exact hnew g hg hnumber

/-- The new files of an edit are saved in their places, one after the other. -/
theorem saveTo_foldl_addFile
    (hbase : ∀ level, Increasing (bySmallestKey cmp) (base.files level))
    (l : List (Level × FileMetaData κ)) (h : b.Apart base) (hl : ∀ p ∈ l, b.Takes base p)
    (level : Level) :
    (l.foldl Builder.addFile b).Apart base ∧
      ((l.foldl Builder.addFile b).saveTo base).files level =
        (l.filterMap fun p => if p.1 = level then some p.2 else none).foldl
          (fun files f => insertOrdered (bySmallestKey cmp) f files)
          ((b.saveTo base).files level) := by
  induction l generalizing b with
  | nil => exact ⟨h, rfl⟩
  | cons p l ih =>
    have hp := hl p List.mem_cons_self
    have hrest : ∀ q ∈ l, (b.addFile p).Takes base q := fun q hq =>
      (hl q (List.mem_cons_of_mem _ hq)).addFile
    obtain ⟨hapart, hfiles⟩ := ih (h.addFile hp) hrest
    refine ⟨hapart, ?_⟩
    rw [List.foldl_cons, hfiles, saveTo_addFile hbase h hp level, List.filterMap_cons]
    split_ifs <;> rfl

omit [Std.TransCmp cmp] in
/-- Deleted files are not saved. -/
theorem saveTo_foldl_deleteFile (l : List (Level × Nat)) (level : Level) :
    ((l.foldl deleteFile b).saveTo base).files level =
      ((b.saveTo base).files level).filter fun f => (level, f.number) ∉ l := by
  simp only [saveTo, addedFiles_foldl_deleteFile, List.filter_filter]
  refine List.filter_congr fun f _ => ?_
  rw [← Bool.decide_and, decide_eq_decide, mem_deletedFiles_foldl_deleteFile, not_or, and_comm]

/-- The new files of an edit are in no version before it. -/
def New (b : Builder cmp) (base : Version κ) (edit : VersionEdit κ) : Prop :=
  ∀ p ∈ edit.newFiles, (∀ g ∈ base.files p.1, g.number ≠ p.2.number) ∧
    ∀ g ∈ (b p.1).addedFiles.toList, g.number ≠ p.2.number

/-- A builder that takes in one more edit saves what the edit makes of what it saved before. -/
theorem saveTo_apply_eq (hbase : ∀ level, Increasing (bySmallestKey cmp) (base.files level))
    (h : b.Apart base) {edit : VersionEdit κ} (hnew : b.New base edit) :
    (b.apply edit).Apart base ∧
      (b.apply edit).saveTo base = (b.saveTo base).applyEdit cmp edit := by
  have hadded := fun level => addedFiles_foldl_deleteFile b level edit.deletedFiles.toList
  have hapart : (edit.deletedFiles.toList.foldl deleteFile b).Apart base := by
    intro level f hf
    rw [hadded] at hf
    exact h level f hf
  have htakes : ∀ p ∈ edit.newFiles,
      (edit.deletedFiles.toList.foldl deleteFile b).Takes base p := by
    intro p hp
    obtain ⟨hfiles, hearlier⟩ := hnew p hp
    refine ⟨hfiles, fun g hg hnumber => ?_⟩
    rw [hadded] at hg
    exact absurd hnumber (hearlier g hg)
  have hstep := saveTo_foldl_addFile hbase edit.newFiles hapart htakes
  refine ⟨(hstep 0).1, ?_⟩
  rw [Version.mk.injEq]
  ext1 level
  rw [apply, (hstep level).2, saveTo_foldl_deleteFile]
  rfl

/-- A file of an edit is added, or was there. -/
theorem mem_apply {edit : VersionEdit κ} {level : Level} {f : FileMetaData κ}
    (hf : f ∈ (b.apply edit level).addedFiles.toList) :
    f ∈ (b level).addedFiles.toList ∨ (level, f) ∈ edit.newFiles := by
  have hfold : ∀ (l : List (Level × FileMetaData κ)) (b : Builder cmp),
      f ∈ ((l.foldl Builder.addFile b) level).addedFiles.toList →
        f ∈ (b level).addedFiles.toList ∨ (level, f) ∈ l := by
    intro l
    induction l with
    | nil => exact fun b => .inl
    | cons p l ih =>
      intro b hf
      rcases ih (b.addFile p) hf with hf | hf
      · rcases mem_addFile hf with hf | rfl
        · exact .inl hf
        · exact .inr List.mem_cons_self
      · exact .inr (List.mem_cons_of_mem _ hf)
  have hsplit := hfold edit.newFiles _ hf
  rwa [addedFiles_foldl_deleteFile] at hsplit

/-- The later edit adds no file with the level and the number of one that the earlier added. -/
def AddsOthers (earlier later : VersionEdit κ) : Prop :=
  ∀ p ∈ earlier.newFiles, ∀ q ∈ later.newFiles, p.1 = q.1 → p.2.number ≠ q.2.number

theorem New.apply {edit later : VersionEdit κ} (h : b.New base later)
    (hother : AddsOthers edit later) : (b.apply edit).New base later := by
  intro q hq
  obtain ⟨hfiles, hearlier⟩ := h q hq
  refine ⟨hfiles, fun g hg => ?_⟩
  rcases mem_apply hg with hg | hg
  · exact hearlier g hg
  · exact hother _ hg q hq rfl

theorem saveTo_foldl_apply (hbase : ∀ level, Increasing (bySmallestKey cmp) (base.files level))
    (edits : List (VersionEdit κ)) (h : b.Apart base) (hnew : ∀ edit ∈ edits, b.New base edit)
    (hothers : edits.Pairwise AddsOthers) :
    (edits.foldl apply b).saveTo base = edits.foldl (Version.applyEdit cmp) (b.saveTo base) := by
  induction edits generalizing b with
  | nil => rfl
  | cons edit edits ih =>
    obtain ⟨hhead, hothers⟩ := List.pairwise_cons.mp hothers
    obtain ⟨hapart, hsave⟩ := saveTo_apply_eq hbase h (hnew edit List.mem_cons_self)
    rw [List.foldl_cons, List.foldl_cons, ← hsave]
    refine ih hapart (fun later hlater => ?_) hothers
    exact (hnew later (List.mem_cons_of_mem _ hlater)).apply (hhead later hlater)

omit [Std.TransCmp cmp] in
/-- A builder that took in nothing saves its base. -/
theorem saveTo_init (base : Version κ) : (init cmp).saveTo base = base := by
  obtain ⟨files⟩ := base
  rw [saveTo, Version.mk.injEq]
  ext1 level
  simp [init, OrderedSet.empty, mergeOrdered]

theorem increasing_applyEdit {v : Version κ}
    (hv : ∀ level, Increasing (bySmallestKey cmp) (v.files level)) (edit : VersionEdit κ)
    (level : Level) : Increasing (bySmallestKey cmp) ((v.applyEdit cmp edit).files level) := by
  have hfold : ∀ l files : List (FileMetaData κ), Increasing (bySmallestKey cmp) files →
      Increasing (bySmallestKey cmp)
        (l.foldl (fun files f => insertOrdered (bySmallestKey cmp) f files) files) := by
    intro l
    induction l with
    | nil => exact fun files => id
    | cons f l ih => exact fun files hfiles => ih _ (increasing_insertOrdered hfiles)
  exact hfold _ _ ((hv level).filter _)

/-- Any number of edits, taken in by one builder over a version in order, is saved as the edits
one after the other leave the version, in the order of the smallest keys and each file once, if
they leave the levels above the lowest disjoint and no edit adds a file with the level and the
number of one that the version or an earlier edit has. -/
theorem saveLevel_edits {edits : List (VersionEdit κ)}
    (hbase : ∀ level, Increasing (bySmallestKey cmp) (base.files level))
    (hdisjoint : ∀ done, done <+: edits →
      (done.foldl (Version.applyEdit cmp) base).Disjoint cmp)
    (hnew : ∀ edit ∈ edits, ∀ p ∈ edit.newFiles, ∀ g ∈ base.files p.1, g.number ≠ p.2.number)
    (hothers : edits.Pairwise AddsOthers) (level : Level) :
    (edits.foldl apply (init cmp)).saveLevel base level =
        some ((edits.foldl (Version.applyEdit cmp) base).files level) ∧
      Increasing (bySmallestKey cmp) ((edits.foldl (Version.applyEdit cmp) base).files level) := by
  have hsave : (edits.foldl apply (init cmp)).saveTo base =
      edits.foldl (Version.applyEdit cmp) base := by
    have hinit := saveTo_foldl_apply (b := init cmp) hbase edits (fun _ f hf => by cases hf)
      (fun edit hedit p hp => ⟨hnew edit hedit p hp, fun g hg => (by cases hg)⟩) hothers
    rwa [saveTo_init] at hinit
  have hincreasing : ∀ level, Increasing (bySmallestKey cmp)
      ((edits.foldl (Version.applyEdit cmp) base).files level) := by
    clear hsave hdisjoint hnew hothers
    induction edits generalizing base with
    | nil => exact hbase
    | cons edit edits ih => exact ih fun level => increasing_applyEdit hbase edit level
  refine ⟨?_, hincreasing level⟩
  rw [← hsave]
  apply saveLevel_eq
  rw [hsave]
  exact hdisjoint edits (List.prefix_refl _) level

end Sequence

section Example

/-- A version with one file, on the level after the first. -/
private def oneFile : Version Nat := ⟨fun level => if level = 1 then [⟨5, 9, 10, 20⟩] else []⟩

/-- The file is split. -/
private def splitEdit : VersionEdit Nat :=
  ((VersionEdit.empty.deleteFile 1 5).addFile 1 ⟨8, 4, 16, 20⟩).addFile 1 ⟨7, 4, 10, 15⟩

/-- One half moves down a level. -/
private def moveEdit : VersionEdit Nat :=
  (VersionEdit.empty.deleteFile 1 7).addFile 2 ⟨7, 4, 10, 15⟩

theorem saveLevel_split_move :
    ([splitEdit, moveEdit].foldl apply (init compare)).saveLevel oneFile 1 =
      some [⟨8, 4, 16, 20⟩] := by
  have hsave := @saveLevel_edits Nat compare _ oneFile [splitEdit, moveEdit]
    (by unfold Increasing; decide)
    (by
      intro done hdone
      rw [← List.mem_inits] at hdone
      revert done
      unfold Version.Disjoint
      decide)
    (by decide) (by unfold AddsOthers; decide) 1
  exact hsave.1

end Example

end Builder

end WiscKey
