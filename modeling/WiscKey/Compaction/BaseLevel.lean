import WiscKey.Version.Compaction
import WiscKey.Version.OverlapSearch

/-!
# The test for a base level

A compaction asks for user keys in order whether a level below its outputs has a file with the key
in its range. The places that it keeps in these levels go forward only, past files that end before
the key.
-/

namespace WiscKey

variable {ucmp : Comparator} {v : Version Bytes} {c : Compaction} {userKey userKey' : Bytes}
  {files : List TableFile} {levels : List Level} {ptrs : Level → Nat}

theorem SortedLevel.of_cons {f : TableFile} (h : SortedLevel ucmp (f :: files)) :
    SortedLevel ucmp files :=
  ⟨fun g hg => h.proper g (List.mem_cons_of_mem _ hg), (List.pairwise_cons.mp h.apart).2⟩

theorem SortedLevel.drop (h : SortedLevel ucmp files) (n : Nat) :
    SortedLevel ucmp (files.drop n) :=
  ⟨fun f hf => h.proper f (List.mem_of_mem_drop hf), h.apart.drop⟩

/-- The search leaves files behind that end before the key, and finds the file that has the key in
its range. -/
theorem scanForKey_spec (h : SortedLevel ucmp files) (userKey : Bytes) :
    (∀ f ∈ files.take (scanForKey ucmp userKey files).1,
      ucmp.compare (extractUserKey f.largest) userKey = .lt) ∧
    ((scanForKey ucmp userKey files).2 = true ↔
      ∃ f ∈ files, f.userRange.Has ucmp.compare userKey) := by
  induction files with
  | nil => simp [scanForKey]
  | cons f files ih =>
    rw [scanForKey]
    split
    · rename_i hle
      refine ⟨by simp, ?_⟩
      simp only [decide_eq_true_eq]
      constructor
      · exact fun hge => ⟨f, List.mem_cons_self, not_gt_iff_not_lt.mpr hge, hle⟩
      · rintro ⟨g, hg, hfirst, -⟩
        rcases List.mem_cons.mp hg with rfl | hg
        · exact not_gt_iff_not_lt.mp hfirst
        · have hlt : ucmp.internalCompare f.smallest g.smallest = .lt :=
            lt_of_not_gt_of_lt (h.proper f List.mem_cons_self)
              ((List.pairwise_cons.mp h.apart).1 g hg)
          have hbegin := @user_not_gt_of_internal ucmp f.smallest g.smallest
            (by rw [hlt]; exact Ordering.noConfusion)
          exact not_gt_iff_not_lt.mp (not_gt_trans hbegin hfirst)
    · rename_i hgt
      rw [ne_eq, not_not] at hgt
      obtain ⟨hpassed, hrange⟩ := ih h.of_cons
      simp only
      refine ⟨?_, ?_⟩
      · intro g hg
        rcases List.mem_cons.mp hg with rfl | hg
        · exact Std.OrientedCmp.lt_of_gt hgt
        · exact hpassed g hg
      · rw [hrange]
        constructor
        · rintro ⟨g, hg, hhas⟩
          exact ⟨g, List.mem_cons_of_mem _ hg, hhas⟩
        · rintro ⟨g, hg, hhas⟩
          rcases List.mem_cons.mp hg with rfl | hg
          · exact absurd hgt hhas.2
          · exact ⟨g, hg, hhas⟩

/-- The files in front of the places in the levels end before the key. -/
def Passed (ucmp : Comparator) (v : Version Bytes) (ptrs : Level → Nat) (userKey : Bytes) : Prop :=
  ∀ level, ∀ f ∈ (v.files level).take (ptrs level),
    ucmp.compare (extractUserKey f.largest) userKey = .lt

theorem Passed.mono (h : Passed ucmp v ptrs userKey)
    (hle : ucmp.compare userKey userKey' ≠ .gt) : Passed ucmp v ptrs userKey' :=
  fun level f hf => lt_of_lt_of_not_gt (h level f hf) hle

/-- No place has been taken at the beginning. -/
theorem passed_zero (h : ∀ level, ptrs level = 0) : Passed ucmp v ptrs userKey := by
  intro level f hf
  rw [h level] at hf
  exact nomatch hf

theorem baseLevelLoop_spec (hsorted : ∀ level ∈ levels, SortedLevel ucmp (v.files level))
    (h : Passed ucmp v ptrs userKey) :
    ((baseLevelLoop ucmp v userKey levels ptrs).1 = true ↔ ∀ level ∈ levels, ∀ f ∈ v.files level,
      ¬ f.userRange.Has ucmp.compare userKey) ∧
    Passed ucmp v (baseLevelLoop ucmp v userKey levels ptrs).2 userKey := by
  induction levels generalizing ptrs with
  | nil => exact ⟨by simp [baseLevelLoop], h⟩
  | cons level levels ih =>
    obtain ⟨hpassed, hrange⟩ :=
      scanForKey_spec ((hsorted level List.mem_cons_self).drop (ptrs level)) userKey
    rw [baseLevelLoop]
    generalize scanForKey ucmp userKey ((v.files level).drop (ptrs level)) = r at hpassed hrange
    obtain ⟨n, inRange⟩ := r
    -- the files that are left behind end before the key
    have hnext : Passed ucmp v (Function.update ptrs level (ptrs level + n)) userKey := by
      intro l f hf
      rcases eq_or_ne l level with rfl | hne
      · rw [Function.update_self, List.take_add] at hf
        rcases List.mem_append.mp hf with hf | hf
        · exact h l f hf
        · exact hpassed f hf
      · rw [Function.update_of_ne hne] at hf
        exact h l f hf
    have hlevel : inRange = false ↔
        ∀ f ∈ v.files level, ¬ f.userRange.Has ucmp.compare userKey := by
      rw [← Bool.not_eq_true, hrange, not_exists]
      constructor
      · intro hnone f hf hhas
        rw [← List.take_append_drop (ptrs level) (v.files level)] at hf
        rcases List.mem_append.mp hf with hf | hf
        · exact hhas.2 (Std.OrientedCmp.gt_of_lt (h level f hf))
        · exact hnone f ⟨hf, hhas⟩
      · rintro hnone f ⟨hf, hhas⟩
        exact hnone f (List.mem_of_mem_drop hf) hhas
    simp only
    split
    · rename_i hin
      refine ⟨?_, hnext⟩
      simp only [Bool.false_eq_true, false_iff]
      intro hall
      rw [hlevel.mpr (hall level List.mem_cons_self)] at hin
      exact Bool.noConfusion hin
    · rename_i hout
      obtain ⟨hrest, hends⟩ := ih (fun l hl => hsorted l (List.mem_cons_of_mem _ hl)) hnext
      refine ⟨?_, hends⟩
      rw [hrest, List.forall_mem_cons]
      exact (and_iff_right (hlevel.mp (by simpa using hout))).symm

theorem mem_levelsFrom {n : Nat} {level : Level} : level ∈ levelsFrom n ↔ n ≤ level.val := by
  simp [levelsFrom]

theorem pairwise_levelsFrom (n : Nat) : (levelsFrom n).Pairwise (· < ·) :=
  (List.pairwise_lt_finRange kNumLevels).filter _

namespace Compaction

/-- No file of a level behind the outputs has the user key in its range. -/
def IsBaseLevel (ucmp : Comparator) (c : Compaction) (userKey : Bytes) : Prop :=
  ∀ level : Level, c.level.val + 2 ≤ level.val → ∀ f ∈ c.inputVersion.files level,
    ¬ f.userRange.Has ucmp.compare userKey

/-- The test for a base level is exact, for user keys in order. -/
theorem isBaseLevelForKey_spec (hsorted : ∀ level : Level, c.level.val + 2 ≤ level.val →
      SortedLevel ucmp (c.inputVersion.files level))
    (h : Passed ucmp c.inputVersion c.levelPtrs userKey) :
    ((c.isBaseLevelForKey ucmp userKey).1 = true ↔ c.IsBaseLevel ucmp userKey) ∧
    Passed ucmp c.inputVersion (c.isBaseLevelForKey ucmp userKey).2.levelPtrs userKey := by
  obtain ⟨hbase, hpassed⟩ := @baseLevelLoop_spec ucmp _ _ (levelsFrom (c.level.val + 2)) _
    (fun level hlevel => hsorted level (mem_levelsFrom.mp hlevel)) h
  refine ⟨hbase.trans ?_, hpassed⟩
  simp only [mem_levelsFrom, IsBaseLevel]

end Compaction

end WiscKey
