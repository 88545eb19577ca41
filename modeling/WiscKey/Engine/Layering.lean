import WiscKey.Engine.Database
import WiscKey.Version.BuilderSequence
import WiscKey.Version.GetNewest

/-!
# Versions that stay layered

The files of a version are in their levels as readers need it, no user key is in two files of a
level above the lowest, and no two files have one number. An edit that puts files into one level
keeps the ranges apart if those of the new files are apart from the others, the ages if the new
files are newer than what is below and older than what is above, and the user keys if the new files
have none of others of their level.
-/

namespace WiscKey

namespace Version

variable {ucmp : Comparator} {tables tables' : Tables} {v v' : Version Bytes} {n n' : Nat}
  {level target : Level} {f g : TableFile} {edit : VersionEdit Bytes} {files : List TableFile}

/-- What a database keeps of its current version; the numbers of its files are below the next
one. -/
structure Sound (ucmp : Comparator) (tables : Tables) (v : Version Bytes) (n : Nat) : Prop where
  layered : Layered ucmp tables v
  apart : ∀ level, level ≠ 0 →
    (v.files level).Pairwise fun f g => f.userRange.Before ucmp.compare g.userRange
  ordered : ∀ level, Increasing (bySmallestKey ucmp.internalCompare) (v.files level)
  below : ∀ level, ∀ f ∈ v.files level, f.number < n
  unique : ∀ level level' f g, f ∈ v.files level → g ∈ v.files level' → f.number = g.number →
    level = level' ∧ f = g

/-- What a version keeps however old its levels are: the files of a level above the lowest have
ranges of internal keys that are apart, and no two files have an entry in common. -/
structure Ranged (ucmp : Comparator) (tables : Tables) (v : Version Bytes) (n : Nat) : Prop where
  tableOf : ∀ level, ∀ f ∈ v.files level, TableOf ucmp tables f
  apart : ∀ level, level ≠ 0 →
    (v.files level).Pairwise fun f g => f.range.Before ucmp.internalCompare g.range
  ordered : ∀ level, Increasing (bySmallestKey ucmp.internalCompare) (v.files level)
  below : ∀ level, ∀ f ∈ v.files level, f.number < n
  unique : ∀ level level' f g, f ∈ v.files level → g ∈ v.files level' → f.number = g.number →
    level = level' ∧ f = g
  disjoint : ∀ level level' f g, f ∈ v.files level → g ∈ v.files level' → f ≠ g →
    ∀ a ∈ (tables f.number).2, ∀ b ∈ (tables g.number).2, compareKeys ucmp a b ≠ .eq

/-- The levels of a version are newer than those below them, and in level 0 the files of larger
numbers are. -/
structure Aged (ucmp : Comparator) (tables : Tables) (v : Version Bytes) : Prop where
  levelZero : ∀ f ∈ v.files 0, ∀ g ∈ v.files 0, g.number < f.number →
    NewerThan ucmp (tables f.number).2 (tables g.number).2
  deeper : ∀ level level', level < level' → ∀ f ∈ v.files level, ∀ g ∈ v.files level',
    NewerThan ucmp (tables f.number).2 (tables g.number).2

/-- No user key is in two files of a level above the lowest. -/
def Apart (ucmp : Comparator) (v : Version Bytes) : Prop :=
  ∀ level, level ≠ 0 →
    (v.files level).Pairwise fun f g => f.userRange.Before ucmp.compare g.userRange

theorem Ranged.layered (h : Ranged ucmp tables v n) (haged : Aged ucmp tables v) :
    Layered ucmp tables v := ⟨h.tableOf, haged.levelZero, h.apart, haged.deeper⟩

theorem Ranged.sound (h : Ranged ucmp tables v n) (haged : Aged ucmp tables v)
    (hapart : Apart ucmp v) : Sound ucmp tables v n :=
  ⟨h.layered haged, hapart, h.ordered, h.below, h.unique⟩

section Edit

/-- The files of a version with an edit are those that it does not delete, and the new ones. -/
theorem mem_logAndApply
    (hdistinct : ∀ level f g, (level, f) ∈ edit.newFiles → (level, g) ∈ edit.newFiles →
      f.number = g.number → f = g)
    (hnew : ∀ level f, (level, f) ∈ edit.newFiles → ∀ g ∈ v.files level, g.number ≠ f.number) :
    f ∈ (v.logAndApply ucmp edit).files level ↔
      (f ∈ v.files level ∧ (level, f.number) ∉ edit.deletedFiles.toList) ∨
        (level, f) ∈ edit.newFiles := by
  have hadded : ∀ f, f ∈ ((Builder.init ucmp.internalCompare).apply edit level).addedFiles.toList ↔
      (level, f) ∈ edit.newFiles := by
    intro f
    rw [Builder.mem_addedFiles_apply]
    · simp [Builder.init, OrderedSet.empty]
    · rintro f g (hf | hf) (hg | hg)
      · cases hf
      · cases hf
      · cases hg
      · exact hdistinct level f g hf hg
  rw [logAndApply, Builder.mem_saveTo, hadded, Builder.mem_deletedFiles_apply]
  have hnone : f.number ∉ ((Builder.init ucmp.internalCompare) level).deletedFiles :=
    Finset.notMem_empty _
  constructor
  · rintro ⟨hf | hf, hkept⟩
    · refine .inl ⟨hf, fun hdeleted => hkept ⟨.inr hdeleted, fun g hg heq => ?_⟩⟩
      exact hnew level g hg f hf heq.symm
    · exact .inr hf
  · rintro (⟨hf, hkept⟩ | hf)
    · refine ⟨.inl hf, fun hdeleted => hkept (hdeleted.1.resolve_left hnone)⟩
    · exact ⟨.inr hf, fun hdeleted => hdeleted.2 f hf rfl⟩

theorem increasing_logAndApply
    (hordered : ∀ level, Increasing (bySmallestKey ucmp.internalCompare) (v.files level))
    (hdistinct : ∀ level f g, (level, f) ∈ edit.newFiles → (level, g) ∈ edit.newFiles →
      f.number = g.number → f = g)
    (hnew : ∀ level f, (level, f) ∈ edit.newFiles → ∀ g ∈ v.files level, g.number ≠ f.number) :
    Increasing (bySmallestKey ucmp.internalCompare) ((v.logAndApply ucmp edit).files level) := by
  refine Builder.increasing_saveTo _ level (hordered level) fun f hf g hg heq => ?_
  rw [Builder.mem_addedFiles_apply] at hf
  · have hf := hf.resolve_left (by simp [Builder.init, OrderedSet.empty])
    exact hnew level f hf g hg heq.symm
  · rintro f g (hf | hf) (hg | hg)
    · cases hf
    · cases hf
    · cases hg
    · exact hdistinct level f g hf hg

end Edit

section Order

theorem TableOf.userRange_proper (h : TableOf ucmp tables f) :
    f.userRange.Proper ucmp.compare := WiscKey.userRange_proper h.proper

/-- Files in the order of their smallest keys, no two of which meet, are before one another. -/
theorem pairwise_before_of_increasing {cmp : Bytes → Bytes → Ordering} [Std.TransCmp cmp]
    (range : TableFile → KeyRange Bytes)
    (hfirst : ∀ f g : TableFile, ucmp.internalCompare f.smallest g.smallest ≠ .gt →
      cmp (range f).first (range g).first ≠ .gt)
    (hincreasing : Increasing (bySmallestKey ucmp.internalCompare) files)
    (hproper : ∀ f ∈ files, (range f).Proper cmp)
    (happart : ∀ f ∈ files, ∀ g ∈ files, f ≠ g → ¬ (range f).Meets cmp (range g)) :
    files.Pairwise fun f g => (range f).Before cmp (range g) := by
  refine hincreasing.imp_of_mem fun {f g} hf hg hlt => ?_
  have hne : f ≠ g := by
    rintro rfl
    have hself : bySmallestKey ucmp.internalCompare f f = .eq := Std.ReflCmp.compare_self
    rw [hself] at hlt
    cases hlt
  by_contra hnot
  refine happart f hf g hg hne ⟨hnot, fun hbefore => ?_⟩
  -- the file that is first would be behind the other one
  have hle : ucmp.internalCompare f.smallest g.smallest ≠ .gt := by
    intro hgt
    rw [bySmallestKey, hgt] at hlt
    cases hlt
  have hlt' := lt_of_not_gt_of_lt (hproper g hg) hbefore
  exact hfirst f g hle (Std.OrientedCmp.gt_of_lt hlt')

/-- Files that are before one another in a level do not meet. -/
theorem not_meets_of_pairwise {cmp : Bytes → Bytes → Ordering} {range : TableFile → KeyRange Bytes}
    (h : files.Pairwise fun f g => (range f).Before cmp (range g)) (hf : f ∈ files) (hg : g ∈ files)
    (hne : f ≠ g) : ¬ (range f).Meets cmp (range g) := by
  have hsymm : Std.Symm fun f g : TableFile => ¬ (range f).Meets cmp (range g) :=
    ⟨fun f g hnot hmeets => hnot hmeets.symm⟩
  exact (h.imp (S := fun f g => ¬ (range f).Meets cmp (range g))
    fun hbefore hmeets => hmeets.1 hbefore).forall hf hg hne

/-- Two files of a level above the lowest have no user key in common. -/
theorem Apart.not_meets (h : Apart ucmp v) (hlevel : level ≠ 0) (hf : f ∈ v.files level)
    (hg : g ∈ v.files level) (hne : f ≠ g) : ¬ f.userRange.Meets ucmp.compare g.userRange :=
  not_meets_of_pairwise (h level hlevel) hf hg hne

theorem Ranged.not_meets (h : Ranged ucmp tables v n) (hlevel : level ≠ 0) (hf : f ∈ v.files level)
    (hg : g ∈ v.files level) (hne : f ≠ g) : ¬ f.range.Meets ucmp.internalCompare g.range :=
  not_meets_of_pairwise (h.apart level hlevel) hf hg hne

/-- Files that meet have user keys that do. -/
theorem meets_userRange (h : f.range.Meets ucmp.internalCompare g.range) :
    f.userRange.Meets ucmp.compare g.userRange :=
  ⟨fun hbefore => h.1 (before_of_userRange hbefore), fun hbefore => h.2 (before_of_userRange hbefore)⟩

theorem user_not_gt_of_before (h : f.range.Before ucmp.internalCompare g.range) :
    ucmp.compare f.userRange.last g.userRange.first ≠ .gt := by
  refine user_not_gt_of_internal ?_
  rw [show ucmp.internalCompare f.largest g.smallest = .lt from h]
  exact Ordering.noConfusion

/-- Entries of files that do not meet have different user keys. -/
theorem newerThan_of_not_meets (hf : TableOf ucmp tables f) (hg : TableOf ucmp tables' g)
    (h : ¬ f.userRange.Meets ucmp.compare g.userRange) :
    NewerThan ucmp (tables f.number).2 (tables' g.number).2 := by
  intro e he e' he' ikey ikey' hparse hparse' heq
  obtain ⟨huser, -⟩ := parseInternalKey_spec hparse
  obtain ⟨huser', -⟩ := parseInternalKey_spec hparse'
  have heq' := Std.OrientedCmp.eq_symm heq
  rw [huser, huser'] at heq heq'
  refine absurd (KeyRange.meets_of_has (k := extractUserKey e.key)
    ⟨user_not_gt_of_internal (hf.smallest_le he), user_not_gt_of_internal (hf.le_largest he)⟩
    ⟨not_gt_trans (user_not_gt_of_internal (hg.smallest_le he')) ?_,
      not_gt_trans ?_ (user_not_gt_of_internal (hg.le_largest he'))⟩) h
  · rw [heq']
    exact Ordering.noConfusion
  · rw [heq]
    exact Ordering.noConfusion

end Order

section Update

/-- A table is the same for the reader when its contents are. -/
theorem TableOf.congr (h : TableOf ucmp tables f) (heq : tables' f.number = tables f.number) :
    TableOf ucmp tables' f := by
  obtain ⟨hok, hparsed, hincreasing, hsmallest, hlargest⟩ := h
  rw [← heq] at hok hparsed hincreasing hsmallest hlargest
  exact ⟨hok, hparsed, hincreasing, hsmallest, hlargest⟩

/-- How a version changes that keeps some of its files and gets new ones in one level. -/
structure Edited (ucmp : Comparator) (tables tables' : Tables) (v v' : Version Bytes) (n' : Nat)
    (kept : Level → TableFile → Prop) (target : Level) (outs : List TableFile) : Prop where
  mem : ∀ level f, f ∈ v'.files level ↔
    (f ∈ v.files level ∧ kept level f) ∨ (level = target ∧ f ∈ outs)
  ordered : ∀ level, Increasing (bySmallestKey ucmp.internalCompare) (v'.files level)
  tables : ∀ level, ∀ f ∈ v.files level, kept level f → tables' f.number = tables f.number
  tableOf : ∀ f ∈ outs, TableOf ucmp tables' f
  below : ∀ f ∈ outs, f.number < n'
  fresh : ∀ f ∈ outs, ∀ level, ∀ g ∈ v.files level, kept level g → g.number ≠ f.number
  distinct : ∀ f ∈ outs, ∀ g ∈ outs, f.number = g.number → f = g

/-- The new files are newer than what is below them, and older than what is above. -/
structure Ages (ucmp : Comparator) (tables tables' : Tables) (v v' : Version Bytes) (n' : Nat)
    (kept : Level → TableFile → Prop) (target : Level) (outs : List TableFile) : Prop
    extends Edited ucmp tables tables' v v' n' kept target outs where
  levelZero : target = 0 → ∀ f ∈ outs, (∀ g ∈ outs, f = g) ∧ ∀ g ∈ v.files 0, kept 0 g →
    g.number < f.number ∧ NewerThan ucmp (tables' f.number).2 (tables' g.number).2
  above : ∀ level < target, ∀ g ∈ v.files level, kept level g → ∀ f ∈ outs,
    NewerThan ucmp (tables' g.number).2 (tables' f.number).2
  deeper : ∀ level, target < level → ∀ g ∈ v.files level, kept level g → ∀ f ∈ outs,
    NewerThan ucmp (tables' f.number).2 (tables' g.number).2

/-- The new files are apart from each other and from the others of their level, and have no entry
in common with others. -/
structure Rearranges (ucmp : Comparator) (tables tables' : Tables) (v v' : Version Bytes) (n' : Nat)
    (kept : Level → TableFile → Prop) (target : Level) (outs : List TableFile) : Prop
    extends Edited ucmp tables tables' v v' n' kept target outs where
  apart : target ≠ 0 → ∀ f ∈ outs, (∀ g ∈ outs, f ≠ g →
    ¬ f.range.Meets ucmp.internalCompare g.range) ∧ ∀ g ∈ v.files target, kept target g →
      ¬ f.range.Meets ucmp.internalCompare g.range
  among : ∀ f ∈ outs, ∀ g ∈ outs, f ≠ g → ∀ a ∈ (tables' f.number).2, ∀ b ∈ (tables' g.number).2,
    compareKeys ucmp a b ≠ .eq
  disjoint : ∀ f ∈ outs, ∀ level, ∀ g ∈ v.files level, kept level g →
    ∀ a ∈ (tables' f.number).2, ∀ b ∈ (tables' g.number).2, compareKeys ucmp a b ≠ .eq

variable {kept : Level → TableFile → Prop} {outs : List TableFile}

/-- A version that stays as it is. -/
theorem Edited.refl (h : Ranged ucmp tables v n) :
    Edited ucmp tables tables v v n (fun _ _ => True) 0 [] :=
  ⟨fun level f => by simp, h.ordered, fun _ _ _ _ => rfl, fun f hf => (by cases hf),
    fun f hf => (by cases hf), fun f hf => (by cases hf), fun f hf => (by cases hf)⟩

theorem Ages.refl (h : Ranged ucmp tables v n) :
    Ages ucmp tables tables v v n (fun _ _ => True) 0 [] :=
  ⟨.refl h, fun _ f hf => (by cases hf), fun level _ g _ _ f hf => (by cases hf),
    fun level _ g _ _ f hf => (by cases hf)⟩

theorem Rearranges.refl (h : Ranged ucmp tables v n) :
    Rearranges ucmp tables tables v v n (fun _ _ => True) 0 [] :=
  ⟨.refl h, fun _ f hf => (by cases hf), fun f hf => (by cases hf), fun f hf => (by cases hf)⟩

theorem Edited.tableOf_all (he : Edited ucmp tables tables' v v' n' kept target outs)
    (h : ∀ level, ∀ f ∈ v.files level, TableOf ucmp tables f) (level : Level) :
    ∀ f ∈ v'.files level, TableOf ucmp tables' f := by
  intro f hf
  rcases (he.mem level f).mp hf with ⟨hf, hkept⟩ | ⟨-, hf⟩
  · exact (h level f hf).congr (he.tables level f hf hkept)
  · exact he.tableOf f hf

theorem Edited.below_all (he : Edited ucmp tables tables' v v' n' kept target outs)
    (h : ∀ level, ∀ f ∈ v.files level, f.number < n) (hn : n ≤ n') (level : Level) :
    ∀ f ∈ v'.files level, f.number < n' := by
  intro f hf
  rcases (he.mem level f).mp hf with ⟨hf, -⟩ | ⟨-, hf⟩
  · exact (h level f hf).trans_le hn
  · exact he.below f hf

theorem Edited.unique_all (he : Edited ucmp tables tables' v v' n' kept target outs)
    (h : ∀ level level' f g, f ∈ v.files level → g ∈ v.files level' → f.number = g.number →
      level = level' ∧ f = g) (level level' : Level) (f g : TableFile) (hf : f ∈ v'.files level)
    (hg : g ∈ v'.files level') (heq : f.number = g.number) : level = level' ∧ f = g := by
  rcases (he.mem level f).mp hf with ⟨hf, hkept⟩ | ⟨rfl, hf⟩
  · rcases (he.mem level' g).mp hg with ⟨hg, -⟩ | ⟨rfl, hg⟩
    · exact h level level' f g hf hg heq
    · exact absurd heq (he.fresh g hg level f hf hkept)
  · rcases (he.mem level' g).mp hg with ⟨hg, hkept⟩ | ⟨hlevel', hg⟩
    · exact absurd heq.symm (he.fresh f hf level' g hg hkept)
    · exact ⟨hlevel'.symm, he.distinct f hf g hg heq⟩

/-- Two different files of a level do not meet afterwards, whatever ranges are compared. -/
theorem Edited.not_meets (he : Edited ucmp tables tables' v v' n' kept target outs)
    {cmp : Bytes → Bytes → Ordering} {range : TableFile → KeyRange Bytes}
    (h : ∀ f ∈ v.files level, ∀ g ∈ v.files level, f ≠ g → ¬ (range f).Meets cmp (range g))
    (houts : level = target → ∀ f ∈ outs, (∀ g ∈ outs, f ≠ g → ¬ (range f).Meets cmp (range g)) ∧
      ∀ g ∈ v.files target, kept target g → ¬ (range f).Meets cmp (range g))
    (hf : f ∈ v'.files level) (hg : g ∈ v'.files level) (hne : f ≠ g) :
    ¬ (range f).Meets cmp (range g) := by
  rcases (he.mem level f).mp hf with ⟨hf, hkept⟩ | ⟨rfl, hf⟩
  · rcases (he.mem level g).mp hg with ⟨hg, -⟩ | ⟨rfl, hg⟩
    · exact h f hf g hg hne
    · exact fun hmeets => (houts rfl g hg).2 f hf hkept hmeets.symm
  · rcases (he.mem level g).mp hg with ⟨hg, hkept⟩ | ⟨-, hg⟩
    · exact (houts rfl f hf).2 g hg hkept
    · exact (houts rfl f hf).1 g hg hne

theorem Ages.newerThan_levelZero (ha : Ages ucmp tables tables' v v' n' kept target outs)
    (h : Aged ucmp tables v) (hf : f ∈ v'.files 0) (hg : g ∈ v'.files 0)
    (hlt : g.number < f.number) : NewerThan ucmp (tables' f.number).2 (tables' g.number).2 := by
  rcases (ha.mem 0 f).mp hf with ⟨hf, hkept⟩ | ⟨htarget, hf⟩
  · rcases (ha.mem 0 g).mp hg with ⟨hg, hkept'⟩ | ⟨htarget, hg⟩
    · rw [ha.tables 0 f hf hkept, ha.tables 0 g hg hkept']
      exact h.levelZero f hf g hg hlt
    · have hlt' := ((ha.levelZero htarget.symm g hg).2 f hf hkept).1
      exact absurd hlt (Nat.lt_asymm hlt')
  · rcases (ha.mem 0 g).mp hg with ⟨hg, hkept⟩ | ⟨-, hg⟩
    · exact ((ha.levelZero htarget.symm f hf).2 g hg hkept).2
    · obtain rfl := (ha.levelZero htarget.symm f hf).1 g hg
      exact absurd hlt (Nat.lt_irrefl _)

theorem Ages.newerThan_deeper (ha : Ages ucmp tables tables' v v' n' kept target outs)
    (h : Aged ucmp tables v) {level' : Level} (hlt : level < level') (hf : f ∈ v'.files level)
    (hg : g ∈ v'.files level') : NewerThan ucmp (tables' f.number).2 (tables' g.number).2 := by
  rcases (ha.mem level f).mp hf with ⟨hf, hkept⟩ | ⟨rfl, hf⟩
  · rcases (ha.mem level' g).mp hg with ⟨hg, hkept'⟩ | ⟨rfl, hg⟩
    · rw [ha.tables level f hf hkept, ha.tables level' g hg hkept']
      exact h.deeper level level' hlt f hf g hg
    · exact ha.above level hlt f hf hkept g hg
  · rcases (ha.mem level' g).mp hg with ⟨hg, hkept⟩ | ⟨rfl, -⟩
    · exact ha.deeper level' hlt g hg hkept f hf
    · exact absurd hlt (lt_irrefl _)

/-- A version that changes this way stays aged. -/
theorem Aged.change (h : Aged ucmp tables v)
    (ha : Ages ucmp tables tables' v v' n' kept target outs) : Aged ucmp tables' v' :=
  ⟨fun _ hf _ hg => ha.newerThan_levelZero h hf hg,
    fun _ _ hlt _ hf _ hg => ha.newerThan_deeper h hlt hf hg⟩

/-- A version that is rearranged this way keeps its ranges apart. -/
theorem Ranged.change (h : Ranged ucmp tables v n) (hn : n ≤ n')
    (hc : Rearranges ucmp tables tables' v v' n' kept target outs) : Ranged ucmp tables' v' n' := by
  have htables := hc.tableOf_all h.tableOf
  refine ⟨htables, fun level hlevel => ?_, hc.ordered, hc.below_all h.below hn,
    hc.unique_all h.unique, fun level level' f g hf hg hne => ?_⟩
  · exact pairwise_before_of_increasing FileMetaData.range (fun f g hle => hle) (hc.ordered level)
      (fun f hf => (htables level f hf).proper)
      fun f hf g hg hne => hc.not_meets (fun f hf g hg hne => h.not_meets hlevel hf hg hne)
        (fun htarget => hc.apart (htarget ▸ hlevel)) hf hg hne
  · rcases (hc.mem level f).mp hf with ⟨hf, hkept⟩ | ⟨-, hf⟩
    · rcases (hc.mem level' g).mp hg with ⟨hg, hkept'⟩ | ⟨-, hg⟩
      · rw [hc.tables level f hf hkept, hc.tables level' g hg hkept']
        exact h.disjoint level level' f g hf hg hne
      · exact fun a ha b hb heq =>
          hc.disjoint g hg level f hf hkept b hb a ha (Std.OrientedCmp.eq_symm heq)
    · rcases (hc.mem level' g).mp hg with ⟨hg, hkept'⟩ | ⟨-, hg⟩
      · exact hc.disjoint f hf level' g hg hkept'
      · exact hc.among f hf g hg hne

/-- User keys stay apart where the new files have none of others of their level. -/
theorem Apart.change (h : Apart ucmp v) (he : Edited ucmp tables tables' v v' n' kept target outs)
    (hranged : Ranged ucmp tables' v' n')
    (houts : target ≠ 0 → ∀ f ∈ outs, (∀ g ∈ outs, f ≠ g →
      ¬ f.userRange.Meets ucmp.compare g.userRange) ∧ ∀ g ∈ v.files target, kept target g →
        ¬ f.userRange.Meets ucmp.compare g.userRange) : Apart ucmp v' := fun level hlevel =>
  pairwise_before_of_increasing FileMetaData.userRange
    (fun _ _ hle => user_not_gt_of_internal hle) (he.ordered level)
    (fun f hf => (hranged.tableOf level f hf).userRange_proper)
    fun _ hf _ hg hne => he.not_meets (fun _ hf _ hg hne => h.not_meets hlevel hf hg hne)
      (fun htarget => houts (htarget ▸ hlevel)) hf hg hne

end Update

section Ranged

/-- Entries that are newer than others have other internal keys. -/
theorem NewerThan.compareKeys_ne {entries entries' : List TableEntry} {e e' : TableEntry}
    (h : NewerThan ucmp entries entries') (he : e ∈ entries) (he' : e' ∈ entries')
    (hparse : (parseInternalKey e.key).isSome) (hparse' : (parseInternalKey e'.key).isSome) :
    compareKeys ucmp e e' ≠ .eq := by
  intro heq
  obtain ⟨ikey, hikey⟩ := Option.isSome_iff_exists.mp hparse
  obtain ⟨ikey', hikey'⟩ := Option.isSome_iff_exists.mp hparse'
  obtain ⟨huser, htag⟩ := parseInternalKey_spec hikey
  obtain ⟨huser', htag'⟩ := parseInternalKey_spec hikey'
  rw [compareKeys, Comparator.internalCompare, Ordering.then_eq_eq] at heq
  have hlt := h e he e' he' ikey ikey' hikey hikey' (by rw [huser, huser']; exact heq.1)
  have htags := Nat.compare_eq_eq.mp heq.2
  rw [htag, htag'] at htags
  have hcode : ikey.type.code ≤ 1 := by cases ikey.type <;> decide
  have hcode' : ikey'.type.code ≤ 1 := by cases ikey'.type <;> decide
  omega

theorem Ranged.nodup (h : Ranged ucmp tables v n) : (v.files level).Nodup := by
  refine (h.ordered level).imp fun {f g} hlt heq => ?_
  subst heq
  rw [show bySmallestKey ucmp.internalCompare f f = .eq from Std.ReflCmp.compare_self] at hlt
  cases hlt

theorem Ranged.sortedLevel (h : Ranged ucmp tables v n) (hlevel : level ≠ 0) :
    SortedLevel ucmp (v.files level) :=
  ⟨fun f hf => (h.tableOf level f hf).proper, h.apart level hlevel⟩

/-- More numbers can be given, and files of other numbers can be written. -/
theorem Ranged.mono (h : Ranged ucmp tables v n) (hn : n ≤ n')
    (htables : ∀ m < n, tables' m = tables m) : Ranged ucmp tables' v n' := by
  have hsame : ∀ level, ∀ f ∈ v.files level, tables' f.number = tables f.number :=
    fun level f hf => htables f.number (h.below level f hf)
  refine ⟨fun level f hf => (h.tableOf level f hf).congr (hsame level f hf), h.apart, h.ordered,
    fun level f hf => (h.below level f hf).trans_le hn, h.unique,
    fun level level' f g hf hg hne => ?_⟩
  rw [hsame level f hf, hsame level' g hg]
  exact h.disjoint level level' f g hf hg hne

end Ranged

end Version

end WiscKey
