import WiscKey.Version.Edit
import Mathlib.Data.Finset.Basic
import Mathlib.Logic.Function.Basic

/-!
# Building versions

A builder gathers the changes of one or more edits, level by level, and merges them into
the files of a base version. The seeks that a file is allowed are left out.
-/

namespace WiscKey

variable {κ : Type}

/-- `BySmallestKey`: ties are broken by file number. -/
def bySmallestKey (cmp : κ → κ → Ordering) (f₁ f₂ : FileMetaData κ) : Ordering :=
  (cmp f₁.smallest f₂.smallest).then (compare f₁.number f₂.number)

instance (cmp : κ → κ → Ordering) [Std.TransCmp cmp] : Std.TransCmp (bySmallestKey cmp) :=
  letI : Ord κ := ⟨cmp⟩
  haveI : Std.TransOrd κ := inferInstanceAs (Std.TransCmp cmp)
  inferInstanceAs (Std.TransCmp
    (compareLex (compareOn FileMetaData.smallest) (compareOn FileMetaData.number)))

/-- Files that count as one in a set of files have the same number. -/
theorem number_eq_of_bySmallestKey {cmp : κ → κ → Ordering} {f g : FileMetaData κ}
    (h : bySmallestKey cmp f g = .eq) : f.number = g.number := by
  rw [bySmallestKey, Ordering.then_eq_eq] at h
  exact Nat.compare_eq_eq.mp h.2

/-- `Version`: the files of each level. -/
structure Version (κ : Type) where
  files : Level → List (FileMetaData κ)

/-- A version without files. -/
def Version.empty : Version κ := ⟨fun _ => []⟩

/-- `LevelState`. -/
structure LevelState (cmp : κ → κ → Ordering) where
  deletedFiles : Finset Nat
  addedFiles : OrderedSet (bySmallestKey cmp)

/-- `Builder`, without the base version. -/
abbrev Builder (cmp : κ → κ → Ordering) := Level → LevelState cmp

namespace Builder

variable {cmp : κ → κ → Ordering}

/-- The constructor. -/
def init (cmp : κ → κ → Ordering) : Builder cmp := fun _ => ⟨∅, .empty _⟩

/-- A file deleted from a level. -/
def deleteFile (b : Builder cmp) (p : Level × Nat) : Builder cmp :=
  Function.update b p.1 { b p.1 with deletedFiles := insert p.2 (b p.1).deletedFiles }

/-- A file added to a level. -/
def addFile [Std.TransCmp cmp] (b : Builder cmp) (p : Level × FileMetaData κ) : Builder cmp :=
  Function.update b p.1
    ⟨(b p.1).deletedFiles.erase p.2.number, (b p.1).addedFiles.insert p.2⟩

/-- `Apply`, without the compaction pointers. -/
def apply [Std.TransCmp cmp] (b : Builder cmp) (edit : VersionEdit κ) : Builder cmp :=
  edit.newFiles.foldl addFile (edit.deletedFiles.toList.foldl deleteFile b)

/-- `SaveTo`, for a builder of this base: deleted files are dropped by `MaybeAddFile`. -/
def saveTo (b : Builder cmp) (base : Version κ) : Version κ where
  files level := (mergeOrdered (bySmallestKey cmp) (base.files level)
    (b level).addedFiles.toList).filter fun f => f.number ∉ (b level).deletedFiles

variable (b : Builder cmp) (level : Level)

theorem addedFiles_foldl_deleteFile (l : List (Level × Nat)) :
    ((l.foldl deleteFile b) level).addedFiles = (b level).addedFiles := by
  induction l generalizing b with
  | nil => rfl
  | cons p l ih =>
    rw [List.foldl_cons, ih, deleteFile]
    rcases eq_or_ne level p.1 with rfl | hne
    · rw [Function.update_self]
    · rw [Function.update_of_ne hne]

theorem mem_deletedFiles_foldl_deleteFile (l : List (Level × Nat)) (n : Nat) :
    n ∈ ((l.foldl deleteFile b) level).deletedFiles ↔
      n ∈ (b level).deletedFiles ∨ (level, n) ∈ l := by
  induction l generalizing b with
  | nil => simp
  | cons p l ih =>
    rw [List.foldl_cons, ih, deleteFile, List.mem_cons]
    rcases eq_or_ne level p.1 with rfl | hne
    · rw [Function.update_self, Finset.mem_insert, Prod.ext_iff]
      tauto
    · rw [Function.update_of_ne hne, Prod.ext_iff]
      tauto

variable [Std.TransCmp cmp]

theorem mem_deletedFiles_foldl_addFile (l : List (Level × FileMetaData κ)) (n : Nat) :
    n ∈ ((l.foldl addFile b) level).deletedFiles ↔
      n ∈ (b level).deletedFiles ∧ ∀ f, (level, f) ∈ l → f.number ≠ n := by
  induction l generalizing b with
  | nil => simp
  | cons p l ih =>
    obtain ⟨at_, g⟩ := p
    have hcons : (∀ f, (level, f) ∈ (at_, g) :: l → f.number ≠ n) ↔
        (level = at_ → g.number ≠ n) ∧ ∀ f, (level, f) ∈ l → f.number ≠ n := by
      simp only [List.mem_cons, Prod.mk.injEq]
      constructor
      · exact fun h => ⟨fun hl => h g (.inl ⟨hl, rfl⟩), fun f hf => h f (.inr hf)⟩
      · rintro ⟨hhead, htail⟩ f (⟨hl, rfl⟩ | hf)
        · exact hhead hl
        · exact htail f hf
    rw [List.foldl_cons, ih, addFile, hcons]
    rcases eq_or_ne level at_ with rfl | hne
    · rw [Function.update_self, Finset.mem_erase]
      tauto
    · rw [Function.update_of_ne hne]
      tauto

/-- The files added to a level, where a number stands for one file. -/
theorem mem_addedFiles_foldl_addFile (l : List (Level × FileMetaData κ))
    (h : ∀ f g, f ∈ (b level).addedFiles.toList ∨ (level, f) ∈ l →
      g ∈ (b level).addedFiles.toList ∨ (level, g) ∈ l → f.number = g.number → f = g)
    (f : FileMetaData κ) :
    f ∈ ((l.foldl addFile b) level).addedFiles.toList ↔
      f ∈ (b level).addedFiles.toList ∨ (level, f) ∈ l := by
  induction l generalizing b with
  | nil => simp
  | cons p l ih =>
    obtain ⟨at_, g⟩ := p
    rw [List.foldl_cons, List.mem_cons, Prod.mk.injEq]
    rcases eq_or_ne level at_ with rfl | hne
    · have hinsert : ∀ f, f ∈ ((b.addFile (level, g)) level).addedFiles.toList ↔
          f = g ∨ f ∈ (b level).addedFiles.toList := by
        intro f
        rw [addFile, Function.update_self]
        refine mem_insertOrdered_iff fun f hf heq => ?_
        exact h g f (.inr (List.mem_cons_self ..)) (.inl hf) (number_eq_of_bySmallestKey heq)
      have hold : ∀ f, f ∈ ((b.addFile (level, g)) level).addedFiles.toList ∨ (level, f) ∈ l →
          f ∈ (b level).addedFiles.toList ∨ (level, f) ∈ (level, g) :: l := by
        rintro f (hf | hf)
        · rcases (hinsert f).mp hf with rfl | hf
          · exact .inr (List.mem_cons_self ..)
          · exact .inl hf
        · exact .inr (List.mem_cons_of_mem _ hf)
      rw [ih (b.addFile (level, g)) fun f f' hf hf' => h f f' (hold f hf) (hold f' hf'), hinsert]
      tauto
    · have hsame : (b.addFile (at_, g)) level = b level := Function.update_of_ne hne _ _
      rw [ih (b.addFile (at_, g)), hsame]
      · tauto
      · rw [hsame]
        intro f f' hf hf'
        exact h f f' (hf.imp_right (List.mem_cons_of_mem _)) (hf'.imp_right (List.mem_cons_of_mem _))

section Apply

variable (edit : VersionEdit κ)

theorem mem_deletedFiles_apply (n : Nat) : n ∈ (b.apply edit level).deletedFiles ↔
    (n ∈ (b level).deletedFiles ∨ (level, n) ∈ edit.deletedFiles.toList) ∧
      ∀ f, (level, f) ∈ edit.newFiles → f.number ≠ n := by
  rw [apply, mem_deletedFiles_foldl_addFile, mem_deletedFiles_foldl_deleteFile]

theorem mem_addedFiles_apply
    (h : ∀ f g, f ∈ (b level).addedFiles.toList ∨ (level, f) ∈ edit.newFiles →
      g ∈ (b level).addedFiles.toList ∨ (level, g) ∈ edit.newFiles → f.number = g.number → f = g)
    (f : FileMetaData κ) : f ∈ (b.apply edit level).addedFiles.toList ↔
      f ∈ (b level).addedFiles.toList ∨ (level, f) ∈ edit.newFiles := by
  rw [apply, mem_addedFiles_foldl_addFile]
  · rw [addedFiles_foldl_deleteFile]
  · rw [addedFiles_foldl_deleteFile]
    exact h

omit [Std.TransCmp cmp] in
theorem mem_saveTo {base : Version κ} {f : FileMetaData κ} : f ∈ (b.saveTo base).files level ↔
    (f ∈ base.files level ∨ f ∈ (b level).addedFiles.toList) ∧
      f.number ∉ (b level).deletedFiles := by
  rw [saveTo, List.mem_filter, mem_mergeOrdered, decide_eq_true_eq]

/-- A version of files in order, merged with added files that are not there yet. -/
theorem increasing_saveTo {base : Version κ}
    (hbase : Increasing (bySmallestKey cmp) (base.files level))
    (h : ∀ f ∈ (b level).addedFiles.toList, ∀ g ∈ base.files level, f.number ≠ g.number) :
    Increasing (bySmallestKey cmp) ((b.saveTo base).files level) := by
  refine List.Pairwise.filter _ (increasing_mergeOrdered hbase (b level).addedFiles.increasing ?_)
  intro f hf g hg heq
  exact h f hf g hg (number_eq_of_bySmallestKey heq)

/-- One edit on the version that a history of edits built from nothing gives the version that the
history with the edit builds, where a number stands for one file. -/
theorem saveTo_apply
    (hmeta : ∀ level f g, f ∈ (b level).addedFiles.toList ∨ (level, f) ∈ edit.newFiles →
      g ∈ (b level).addedFiles.toList ∨ (level, g) ∈ edit.newFiles → f.number = g.number → f = g)
    (hnew : ∀ level f, (level, f) ∈ edit.newFiles → f ∉ (b.saveTo .empty).files level) :
    ((init cmp).apply edit).saveTo (b.saveTo .empty) = (b.apply edit).saveTo .empty := by
  have hadded : ∀ level f, f ∈ ((init cmp).apply edit level).addedFiles.toList ↔
      (level, f) ∈ edit.newFiles := by
    intro level f
    rw [mem_addedFiles_apply]
    · simp [init, OrderedSet.empty]
    · rintro f g (hf | hf) (hg | hg)
      · cases hf
      · cases hf
      · cases hg
      · exact hmeta level f g (.inr hf) (.inr hg)
  have hempty : ∀ level, ((Version.empty : Version κ).files level) = [] := fun _ => rfl
  have hincreasing : ∀ (b : Builder cmp) level,
      Increasing (bySmallestKey cmp) ((b.saveTo .empty).files level) := by
    intro b level
    refine b.increasing_saveTo level List.Pairwise.nil fun f _ g hg => ?_
    cases hg
  have hfiles : ∀ level, (((init cmp).apply edit).saveTo (b.saveTo .empty)).files level =
      ((b.apply edit).saveTo .empty).files level := by
    intro level
    have hold : ∀ f, (level, f) ∈ edit.newFiles → ∀ g ∈ (b.saveTo .empty).files level,
        f.number ≠ g.number := by
      intro f hf g hg hnumber
      have hadd := ((b.mem_saveTo level).mp hg).1.resolve_left (by simp [hempty])
      have heq := hmeta level f g (.inr hf) (.inl hadd) hnumber
      exact hnew level f hf (heq ▸ hg)
    refine @Increasing.eq_of_mem_iff _ (bySmallestKey cmp) _ _ _ ?_ (hincreasing _ level) fun f => ?_
    · refine increasing_saveTo _ level (hincreasing b level) fun f hf => ?_
      exact hold f ((hadded level f).mp hf)
    · rw [mem_saveTo, mem_saveTo, mem_saveTo, hadded, mem_deletedFiles_apply,
        mem_deletedFiles_apply, mem_addedFiles_apply _ _ _ (hmeta level), hempty]
      have hnone : f.number ∉ ((init cmp) level).deletedFiles := Finset.notMem_empty _
      by_cases hf : (level, f) ∈ edit.newFiles
      · have hreadded : ¬ ∀ g, (level, g) ∈ edit.newFiles → g.number ≠ f.number :=
          fun h => h f hf rfl
        simp only [hf, hreadded, or_true, and_false, not_false_eq_true, and_self]
      · have hother : f ∈ (b level).addedFiles.toList →
            ∀ g, (level, g) ∈ edit.newFiles → g.number ≠ f.number := by
          intro hadd g hg hnumber
          exact hf (hmeta level g f (.inr hg) (.inl hadd) hnumber ▸ hg)
        simp only [List.not_mem_nil, false_or, hf, or_false, hnone]
        tauto
  rw [Version.mk.injEq]
  exact funext hfiles

end Apply

end Builder

end WiscKey
