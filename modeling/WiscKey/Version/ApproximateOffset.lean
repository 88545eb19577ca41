import Mathlib.Algebra.Order.BigOperators.Group.List
import WiscKey.Table.TableRun
import WiscKey.Version.OverlapSearch

/-!
# Approximate offsets in a version

The bytes of a version in front of a key are counted by the sizes of whole files, and for a file
around the key by the index of its table. A key that is not behind another one has no greater
offset, so that the sizes of adjacent ranges add up.
-/

namespace WiscKey

section Definitions

variable (snappy : Snappy) (options : TableOptions) (contents : Nat → Option Bytes)

/-- The table that `TableCache::NewIterator` sets: none where a file is not there, or is not opened
as a table. -/
def findTable (f : TableFile) : Option (Option Table) :=
  match contents f.number with
  | none => some none
  | some file => do
    match ← Table.openTable snappy options file f.fileSize with
    | .error _ => return none
    | .ok t => return some t

/-- The loop of `ApproximateOffsetOf` over the files of a level. -/
def levelOffset (isLevelZero : Bool) (ikey : Bytes) : Nat → List TableFile → Option Nat
  | result, [] => some result
  | result, f :: files =>
    if options.comparator.compare f.largest ikey ≠ .gt then
      levelOffset isLevelZero ikey ((result + f.fileSize) % 2 ^ 64) files
    else if options.comparator.compare f.smallest ikey = .gt then
      if isLevelZero then levelOffset isLevelZero ikey result files else some result
    else do
      match ← findTable snappy options contents f with
      | some t =>
        levelOffset isLevelZero ikey ((result + t.approximateOffsetOf ikey) % 2 ^ 64) files
      | none => levelOffset isLevelZero ikey result files

/-- `ApproximateOffsetOf`. -/
def Version.approximateOffsetOf (v : Version Bytes) (ikey : Bytes) : Option Nat :=
  (List.finRange kNumLevels).foldlM
    (fun result level =>
      levelOffset snappy options contents (level = 0) ikey result (v.files level)) 0

/-- The sizes of all files of a version. -/
def Version.totalSize (v : Version Bytes) : Nat :=
  ((List.finRange kNumLevels).map fun level => ((v.files level).map FileMetaData.fileSize).sum).sum

/-- What a file adds to the offset of a key. -/
def fileOffset (ikey : Bytes) (f : TableFile) : Nat :=
  if options.comparator.compare f.largest ikey ≠ .gt then f.fileSize
  else if options.comparator.compare f.smallest ikey = .gt then 0
  else match findTable snappy options contents f with
    | some (some t) => t.approximateOffsetOf ikey
    | _ => 0

end Definitions

section Files

variable {snappy : Snappy} {options : TableOptions} {contents : Nat → Option Bytes} {n : Nat}
  {ucmp : Comparator} {f : TableFile} {files : List TableFile} {k k' : Bytes}

/-- The offsets that a file gives: they rise with the key, and stay inside the file. -/
structure Measured (snappy : Snappy) (options : TableOptions) (contents : Nat → Option Bytes)
    (f : TableFile) : Prop where
  found : ∃ o, findTable snappy options contents f = some o
  rises : ∀ t, findTable snappy options contents f = some (some t) → ∀ k k',
    options.comparator.compare k k' ≠ .gt → t.approximateOffsetOf k ≤ t.approximateOffsetOf k'
  inside : ∀ t, findTable snappy options contents f = some (some t) → ∀ k,
    t.approximateOffsetOf k ≤ f.fileSize

namespace Measured

theorem fileOffset_le (h : Measured snappy options contents f) (k : Bytes) :
    fileOffset snappy options contents k f ≤ f.fileSize := by
  obtain ⟨o, ho⟩ := h.found
  rw [fileOffset, ho]
  split_ifs
  · exact le_rfl
  · exact Nat.zero_le _
  · cases o with
    | none => exact Nat.zero_le _
    | some t => exact h.inside t ho k

end Measured

/-- Files behind the key add nothing. -/
theorem fileOffset_of_gt (hsmallest : options.comparator.compare f.smallest k = .gt)
    (hproper : options.comparator.compare f.smallest f.largest ≠ .gt) :
    fileOffset snappy options contents k f = 0 := by
  have hlargest : ¬ options.comparator.compare f.largest k ≠ .gt := fun hle =>
    not_gt_trans hproper hle hsmallest
  rw [fileOffset, if_neg hlargest, if_pos hsmallest]

/-- The loop over the files of a level adds up what they add, if the sum does not wrap around. -/
theorem levelOffset_eq (hmeasured : ∀ f ∈ files, Measured snappy options contents f)
    {isLevelZero : Bool} (hsorted : isLevelZero = false →
      (∀ f ∈ files, options.comparator.compare f.smallest f.largest ≠ .gt) ∧
        files.Pairwise fun f g => options.comparator.compare f.largest g.smallest = .lt)
    {result : Nat} (hsum : result + (files.map FileMetaData.fileSize).sum < 2 ^ 64) (k : Bytes) :
    levelOffset snappy options contents isLevelZero k result files =
      some (result + (files.map (fileOffset snappy options contents k)).sum) := by
  induction files generalizing result with
  | nil => rfl
  | cons f files ih =>
    obtain ⟨hf, hrest⟩ := List.forall_mem_cons.mp hmeasured
    have hsorted' : isLevelZero = false →
        (∀ f ∈ files, options.comparator.compare f.smallest f.largest ≠ .gt) ∧
          files.Pairwise fun f g => options.comparator.compare f.largest g.smallest = .lt := by
      intro hlevel
      obtain ⟨hproper, hapart⟩ := hsorted hlevel
      exact ⟨fun g hg => hproper g (List.mem_cons_of_mem _ hg), hapart.tail⟩
    rw [List.map_cons, List.sum_cons] at hsum
    have hle := hf.fileOffset_le k
    -- a round that adds what the file adds
    have hround : ∀ m, m = fileOffset snappy options contents k f →
        levelOffset snappy options contents isLevelZero k ((result + m) % 2 ^ 64) files =
          some (result + ((f :: files).map (fileOffset snappy options contents k)).sum) := by
      rintro m rfl
      rw [Nat.mod_eq_of_lt (by omega), ih hrest hsorted' (by omega), List.map_cons, List.sum_cons,
        Nat.add_assoc]
    rw [levelOffset]
    by_cases hlargest : options.comparator.compare f.largest k ≠ .gt
    · rw [if_pos hlargest]
      exact hround _ (by rw [fileOffset, if_pos hlargest])
    · rw [if_neg hlargest]
      by_cases hsmallest : options.comparator.compare f.smallest k = .gt
      · rw [if_pos hsmallest]
        have hzero : fileOffset snappy options contents k f = 0 := by
          rw [fileOffset, if_neg hlargest, if_pos hsmallest]
        cases isLevelZero with
        | true =>
          rw [if_pos rfl, ih hrest hsorted' (by omega), List.map_cons, List.sum_cons, hzero,
            Nat.zero_add]
        | false =>
          obtain ⟨hproper, hapart⟩ := hsorted rfl
          -- the files behind are behind the key too
          have hnone : ∀ g ∈ files, fileOffset snappy options contents k g = 0 := by
            intro g hg
            refine fileOffset_of_gt ?_ (hproper g (List.mem_cons_of_mem _ hg))
            have hbefore := (List.pairwise_cons.mp hapart).1 g hg
            have hfront := lt_of_not_gt_of_lt (hproper f List.mem_cons_self) hbefore
            exact Std.OrientedCmp.gt_of_lt
              (Std.TransCmp.lt_trans (Std.OrientedCmp.lt_of_gt hsmallest) hfront)
          rw [if_neg Bool.false_ne_true, List.map_cons, List.sum_cons, hzero,
            List.sum_eq_zero (List.forall_mem_map.mpr hnone)]
          rfl
      · rw [if_neg hsmallest]
        obtain ⟨o, ho⟩ := hf.found
        rw [ho]
        cases o with
        | none =>
          have hzero : fileOffset snappy options contents k f = 0 := by
            rw [fileOffset, if_neg hlargest, if_neg hsmallest, ho]
          have hsame := hround 0 hzero.symm
          rw [Nat.add_zero, Nat.mod_eq_of_lt (by omega)] at hsame
          exact hsame
        | some t =>
          exact hround _ (by rw [fileOffset, if_neg hlargest, if_neg hsmallest, ho])

end Files

section Versions

variable {snappy : Snappy} {options : TableOptions} {contents : Nat → Option Bytes} {n : Nat}
  {ucmp : Comparator} {v : Version Bytes} {k k' : Bytes}

/-- What all files of a version add. -/
def Version.offsetSum (snappy : Snappy) (options : TableOptions) (contents : Nat → Option Bytes)
    (v : Version Bytes) (ikey : Bytes) : Nat :=
  ((List.finRange kNumLevels).map fun level =>
    ((v.files level).map (fileOffset snappy options contents ikey)).sum).sum

theorem Version.foldlM_levelOffset (hinternal : options.comparator.toComparator = ucmp.internal)
    (hsorted : ∀ level : Level, level ≠ 0 → SortedLevel ucmp (v.files level))
    (hmeasured : ∀ level, ∀ f ∈ v.files level, Measured snappy options contents f) (k : Bytes)
    {levels : List Level} {result : Nat} (hsize : result + (levels.map fun level =>
      ((v.files level).map FileMetaData.fileSize).sum).sum < 2 ^ 64) :
    levels.foldlM (fun result (level : Level) =>
      levelOffset snappy options contents (level = 0) k result (v.files level)) result =
    some (result + (levels.map fun level =>
      ((v.files level).map (fileOffset snappy options contents k)).sum).sum) := by
  have hcompare : ∀ a b, options.comparator.compare a b = ucmp.internalCompare a b := fun a b =>
    congrArg (fun cmp : Comparator => cmp.compare a b) hinternal
  induction levels generalizing result with
  | nil => rfl
  | cons level levels ih =>
    rw [List.map_cons, List.sum_cons] at hsize
    have hlevel : levelOffset snappy options contents (level = 0) k result (v.files level) =
        some (result + ((v.files level).map (fileOffset snappy options contents k)).sum) := by
      refine levelOffset_eq (hmeasured level) (fun hne => ?_) (by omega) k
      have h := hsorted level (of_decide_eq_false hne)
      simp only [hcompare]
      exact ⟨h.proper, h.apart⟩
    have hle := List.sum_le_sum fun f hf => (hmeasured level f hf).fileOffset_le k
    rw [List.foldlM_cons, hlevel]
    simp only [Option.bind_eq_bind, Option.bind_some]
    rw [ih (by omega), List.map_cons, List.sum_cons, Nat.add_assoc]

/-- The loop over the levels adds up what the files add, if the sum does not wrap around. -/
theorem Version.approximateOffsetOf_eq (hinternal : options.comparator.toComparator = ucmp.internal)
    (hsorted : ∀ level : Level, level ≠ 0 → SortedLevel ucmp (v.files level))
    (hmeasured : ∀ level, ∀ f ∈ v.files level, Measured snappy options contents f)
    (hsize : v.totalSize < 2 ^ 64) (k : Bytes) :
    v.approximateOffsetOf snappy options contents k =
      some (v.offsetSum snappy options contents k) := by
  have hsize' : 0 + v.totalSize < 2 ^ 64 := by rwa [Nat.zero_add]
  rw [approximateOffsetOf, foldlM_levelOffset hinternal hsorted hmeasured k hsize', Nat.zero_add,
    offsetSum]

end Versions

section Sample

end Sample

end WiscKey
