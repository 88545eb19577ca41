import WiscKey.Compaction.Selection
import WiscKey.Compaction.Survivors

/-!
# Base levels over the calls of a compaction

Most entries of a compaction are not asked about, and a test can end in the middle of the levels.
The places in the levels are kept from one test to the next, and every answer is still that of a
search that begins anew.
-/

namespace WiscKey

variable {ucmp : Comparator} {v : Version Bytes} {userKey : Bytes} {files : List TableFile}
  {levels : List Level} {ptrs : Level → Nat}

/-- The places do not go beyond the files of a level. -/
def InLevels (v : Version Bytes) (ptrs : Level → Nat) : Prop :=
  ∀ level, ptrs level ≤ (v.files level).length

theorem scanForKey_le (userKey : Bytes) (files : List TableFile) :
    (scanForKey ucmp userKey files).1 ≤ files.length := by
  induction files with
  | nil => exact Nat.zero_le _
  | cons f files ih =>
    rw [scanForKey]
    split
    · exact Nat.zero_le _
    · exact Nat.succ_le_succ ih

/-- The places only go forward. -/
theorem baseLevelLoop_advance (h : InLevels v ptrs) :
    (∀ level, ptrs level ≤ (baseLevelLoop ucmp v userKey levels ptrs).2 level) ∧
      InLevels v (baseLevelLoop ucmp v userKey levels ptrs).2 := by
  induction levels generalizing ptrs with
  | nil => exact ⟨fun _ => le_rfl, h⟩
  | cons level levels ih =>
    have hscan := @scanForKey_le ucmp userKey ((v.files level).drop (ptrs level))
    rw [List.length_drop] at hscan
    rw [baseLevelLoop]
    generalize scanForKey ucmp userKey ((v.files level).drop (ptrs level)) = r at hscan
    obtain ⟨n, inRange⟩ := r
    simp only at hscan ⊢
    have hforward : ∀ l, ptrs l ≤ Function.update ptrs level (ptrs level + n) l := by
      intro l
      rcases eq_or_ne l level with rfl | hne
      · rw [Function.update_self]
        exact Nat.le_add_right _ _
      · rw [Function.update_of_ne hne]
    have hnext : InLevels v (Function.update ptrs level (ptrs level + n)) := by
      intro l
      have hl := h l
      rcases eq_or_ne l level with rfl | hne
      · rw [Function.update_self]
        omega
      · rwa [Function.update_of_ne hne]
    split
    · exact ⟨hforward, hnext⟩
    · obtain ⟨hrest, hends⟩ := ih hnext
      exact ⟨fun l => (hforward l).trans (hrest l), hends⟩

/-- What is asked of a compaction while its input is read. -/
inductive CompactionQuery
  | isBaseLevelForKey (userKey : Bytes)
  | shouldStopBefore (internalKey : Bytes)

/-- The user key of a test for a base level. -/
def CompactionQuery.userKey? : CompactionQuery → Option Bytes
  | .isBaseLevelForKey userKey => some userKey
  | .shouldStopBefore _ => none

/-- A test for a base level, with the places in the levels before and after it. -/
structure BaseLevelTest where
  userKey : Bytes
  base : Bool
  before : Level → Nat
  after : Level → Nat

namespace Compaction

/-- The tests for a base level among calls, one after the other. -/
def baseLevelTests (ucmp : Comparator) (maxFileSize : Nat) :
    Compaction → List CompactionQuery → List BaseLevelTest
  | _, [] => []
  | c, .isBaseLevelForKey userKey :: queries =>
    let (base, c') := c.isBaseLevelForKey ucmp userKey
    ⟨userKey, base, c.levelPtrs, c'.levelPtrs⟩ :: c'.baseLevelTests ucmp maxFileSize queries
  | c, .shouldStopBefore internalKey :: queries =>
    (c.shouldStopBefore ucmp maxFileSize internalKey).2.baseLevelTests ucmp maxFileSize queries

/-- A test is exact, and has passed files that end before its key alone. -/
structure TestedRight (ucmp : Comparator) (c : Compaction) (t : BaseLevelTest) : Prop where
  answer : t.base = true ↔ c.IsBaseLevel ucmp t.userKey
  forward : ∀ level, t.before level ≤ t.after level
  inLevels : InLevels c.inputVersion t.after
  passed : Passed ucmp c.inputVersion t.after t.userKey

variable {c c' : Compaction} {maxFileSize : Nat} {queries : List CompactionQuery}

theorem filterMap_isBaseLevelForKey (userKey : Bytes) :
    (CompactionQuery.isBaseLevelForKey userKey :: queries).filterMap CompactionQuery.userKey? =
      userKey :: queries.filterMap CompactionQuery.userKey? := rfl

theorem map_userKey_baseLevelTests : (c.baseLevelTests ucmp maxFileSize queries).map
    BaseLevelTest.userKey = queries.filterMap CompactionQuery.userKey? := by
  induction queries generalizing c with
  | nil => rfl
  | cons query queries ih =>
    cases query with
    | isBaseLevelForKey userKey =>
      rw [baseLevelTests, List.map_cons, ih, filterMap_isBaseLevelForKey]
    | shouldStopBefore internalKey =>
      rw [baseLevelTests, ih, List.filterMap_cons]
      rfl

/-- The levels and the version stay as they are. -/
theorem testedRight_congr (hlevel : c.level = c'.level) (hversion : c.inputVersion = c'.inputVersion)
    {t : BaseLevelTest} (h : TestedRight ucmp c t) : TestedRight ucmp c' t where
  answer := by
    have hanswer := h.answer
    rwa [IsBaseLevel, hlevel, hversion] at hanswer
  forward := h.forward
  inLevels := hversion ▸ h.inLevels
  passed := hversion ▸ h.passed

/-- From places that earlier keys have left, all tests for later keys are right. -/
theorem testedRight_of_passed (hsorted : c.SortedBelow ucmp)
    (hin : InLevels c.inputVersion c.levelPtrs)
    (hordered : (queries.filterMap CompactionQuery.userKey?).Pairwise
      fun a b => ucmp.compare a b ≠ .gt)
    (hpassed : ∀ userKey ∈ queries.filterMap CompactionQuery.userKey?,
      Passed ucmp c.inputVersion c.levelPtrs userKey) :
    ∀ t ∈ c.baseLevelTests ucmp maxFileSize queries, TestedRight ucmp c t := by
  induction queries generalizing c with
  | nil => exact fun t ht => absurd ht List.not_mem_nil
  | cons query queries ih =>
    cases query with
    | shouldStopBefore internalKey =>
      -- the places in the levels are not touched
      obtain ⟨hlevel, hversion, hptrs⟩ := @sameBase_shouldStopBefore ucmp c maxFileSize internalKey
      rw [baseLevelTests]
      generalize (c.shouldStopBefore ucmp maxFileSize internalKey).2 = c' at hlevel hversion hptrs
      refine fun t ht => testedRight_congr hlevel.symm hversion.symm (ih ?_ ?_ hordered ?_ t ht)
      · rwa [SortedBelow, ← hlevel, ← hversion]
      · rwa [← hversion, ← hptrs]
      · rwa [← hversion, ← hptrs]
    | isBaseLevelForKey userKey =>
      rw [filterMap_isBaseLevelForKey] at hordered hpassed
      obtain ⟨hfirst, hrest⟩ := List.pairwise_cons.mp hordered
      obtain ⟨hanswer, hafter⟩ := isBaseLevelForKey_spec hsorted (hpassed _ List.mem_cons_self)
      obtain ⟨hforward, hends⟩ := @baseLevelLoop_advance ucmp c.inputVersion userKey
        (levelsFrom (c.level.val + 2)) c.levelPtrs hin
      rw [baseLevelTests]
      refine List.forall_mem_cons.mpr ⟨⟨hanswer, hforward, hends, hafter⟩, ?_⟩
      -- the next keys are no smaller
      refine fun t ht => @testedRight_congr ucmp (c.isBaseLevelForKey ucmp userKey).2 c rfl rfl t
        (@ih (c.isBaseLevelForKey ucmp userKey).2 hsorted hends hrest ?_ t ht)
      exact fun k hk => hafter.mono (hfirst k hk)

/-- In every compaction whose deeper levels are sorted, asked for user keys in order, each test for
a base level is exact: the answer is that no file of a level behind the outputs has the key in its
range. The places in the levels go forward only, past files that end before the key. -/
theorem baseLevelTests_right (ucmp : Comparator) (maxFileSize : Nat) (c : Compaction)
    (queries : List CompactionQuery) (hsorted : c.SortedBelow ucmp)
    (hstart : ∀ level, c.levelPtrs level = 0)
    (hordered : (queries.filterMap CompactionQuery.userKey?).Pairwise
      fun a b => ucmp.compare a b ≠ .gt) :
    (c.baseLevelTests ucmp maxFileSize queries).map BaseLevelTest.userKey =
        queries.filterMap CompactionQuery.userKey? ∧
      ∀ t ∈ c.baseLevelTests ucmp maxFileSize queries, TestedRight ucmp c t := by
  refine ⟨map_userKey_baseLevelTests, testedRight_of_passed hsorted (fun level => ?_) hordered
    fun _ _ => passed_zero hstart⟩
  rw [hstart level]
  exact Nat.zero_le _

/-- A compaction of level 0 over two files in level 2. -/
def twoBelow : Compaction :=
  .new 100 0 ⟨fun level => if level = 2 then
    [⟨1, 900, appendInternalKey ⟨ascii ['a'], 1, .value⟩, appendInternalKey ⟨ascii ['c'], 1, .value⟩⟩,
      ⟨2, 900, appendInternalKey ⟨ascii ['e'], 1, .value⟩, appendInternalKey ⟨ascii ['g'], 1, .value⟩⟩]
    else []⟩ []

theorem baseLevelTests_right_twoBelow :
    ¬ twoBelow.IsBaseLevel bytewiseComparator (ascii ['b']) ∧
      twoBelow.IsBaseLevel bytewiseComparator (ascii ['d']) := by
  have hsorted : twoBelow.SortedBelow bytewiseComparator := by
    intro level _
    simp only [twoBelow, Compaction.new]
    split
    · refine ⟨?_, ?_⟩
      · intro f hf
        simp only [List.mem_cons, List.not_mem_nil, or_false] at hf
        rcases hf with rfl | rfl
        all_goals
          rw [KeyRange.Proper]
          decide +kernel
      · simp only [List.pairwise_cons, KeyRange.Before]
        decide +kernel
    · exact ⟨fun f hf => absurd hf List.not_mem_nil, .nil⟩
  have hright := (baseLevelTests_right bytewiseComparator 100 twoBelow
    [.isBaseLevelForKey (ascii ['b']), .shouldStopBefore (ascii ['c']),
      .isBaseLevelForKey (ascii ['d'])] hsorted (fun _ => rfl)
    (by
      simp only [List.filterMap_cons, CompactionQuery.userKey?, List.filterMap_nil,
        List.pairwise_cons]
      decide +kernel)).2
  simp only [baseLevelTests, List.forall_mem_cons] at hright
  obtain ⟨hfirst, hsecond, -⟩ := hright
  refine ⟨fun hbase => absurd (hfirst.answer.mpr hbase) (by decide +kernel), ?_⟩
  exact hsecond.answer.mp (by decide +kernel)

end Compaction

end WiscKey
