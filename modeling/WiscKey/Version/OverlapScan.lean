import WiscKey.Library.KeyRange
import WiscKey.Version.OverlapSearch

/-!
# The file searches are scans

The binary search over the files of a sorted level gives the index that a scan gives. The question
whether some file overlaps a range of user keys has the answer of a scan too, whether it looks at
one file of a sorted level or at all files.
-/

namespace WiscKey

variable {ucmp : Comparator} {files : List TableFile} {f : TableFile} {key : Bytes}
  {smallest largest : Option Bytes}

/-- The largest key of the file is not before the key. -/
def reaches (ucmp : Comparator) (key : Bytes) (f : TableFile) : Bool :=
  ucmp.internalCompare f.largest key ≠ .lt

/-- A place between the files before a key and the others is where a scan stops. -/
theorem Between.eq_findIdx {i : Nat} (h : Between ucmp files key i i) :
    i = files.findIdx (reaches ucmp key) := by
  have hbelow : ∀ f ∈ files.take i, reaches ucmp key f = false := by
    intro f hf
    rw [reaches, h.below f hf]
    rfl
  rw [← List.take_append_drop i files, List.findIdx_append,
    List.findIdx_eq_length.mpr hbelow, if_neg (Nat.lt_irrefl _), List.length_take_of_le h.bound]
  cases hdrop : files.drop i with
  | nil => rw [List.findIdx_nil, Nat.zero_add]
  | cons f rest =>
    have habove : reaches ucmp key f = true :=
      decide_eq_true (h.above f (by rw [hdrop]; exact List.mem_cons_self))
    rw [List.findIdx_cons, habove, cond_true, Nat.zero_add]

/-- The file is neither entirely before the smallest key nor entirely after the largest one. -/
theorem meets_iff_sides : Interval.Meets ucmp.compare ⟨smallest, largest⟩ f.userRange ↔
    afterFile ucmp smallest f = false ∧ beforeFile ucmp largest f = false := by
  refine and_congr ?_ ?_
  · cases smallest with
    | none => simp [afterFile]
    | some a =>
      simp only [afterFile, Option.mem_some, forall_eq', decide_eq_false_iff_not]
      exact not_congr Std.OrientedCmp.gt_iff_lt.symm
  · cases largest with
    | none => simp [beforeFile]
    | some b =>
      simp only [beforeFile, Option.mem_some, forall_eq', decide_eq_false_iff_not]
      exact not_congr Std.OrientedCmp.gt_iff_lt

/-- Where all files are looked at, the flag is that of the scan. -/
theorem someFileOverlapsRange_false_iff :
    someFileOverlapsRange ucmp false files smallest largest = true ↔
      ∃ f ∈ files, Interval.Meets ucmp.compare ⟨smallest, largest⟩ f.userRange := by
  have hany : someFileOverlapsRange ucmp false files smallest largest =
      files.any fun f => !(afterFile ucmp smallest f || beforeFile ucmp largest f) := by
    simp [someFileOverlapsRange]
  rw [hany, List.any_eq_true]
  refine exists_congr fun f => and_congr_right fun _ => ?_
  rw [meets_iff_sides, Bool.not_eq_true', Bool.or_eq_false_iff]

/-- The files of a sorted level up to a place are before the smallest key, those from there on are
not. -/
structure SplitAt (ucmp : Comparator) (files : List TableFile) (smallest : Option Bytes) (i : Nat) :
    Prop where
  below : ∀ f ∈ files.take i, afterFile ucmp smallest f = true
  above : ∀ f ∈ files.drop i, afterFile ucmp smallest f = false

/-- The synthetic key of the search is in front of all entries of the smallest user key. -/
theorem splitAt_findFile (hs : SortedLevel ucmp files) (hd : ∀ f ∈ files, Decoded f) (k : Bytes) :
    SplitAt ucmp files (some k)
      (findFile ucmp files (appendInternalKey ⟨k, kMaxSequenceNumber, .value⟩)) := by
  have hb := findFile_between hs (appendInternalKey ⟨k, kMaxSequenceNumber, .value⟩)
  refine ⟨fun f hf => ?_, fun f hf => ?_⟩
  · have hlt := (internalCompare_lookup (hd f (List.mem_of_mem_take hf)) k).mp (hb.below f hf)
    exact decide_eq_true (Std.OrientedCmp.gt_of_lt hlt)
  · refine decide_eq_false fun hgt => hb.above f hf ?_
    exact (internalCompare_lookup (hd f (List.mem_of_mem_drop hf)) k).mpr
      (Std.OrientedCmp.lt_of_gt hgt)

/-- A later file of a sorted level begins no earlier. -/
theorem SortedLevel.starts_le (h : SortedLevel ucmp files) {i j : Nat} (hi : i < files.length)
    (hj : j < files.length) (hij : i ≤ j) : ucmp.compare (extractUserKey files[i].smallest)
      (extractUserKey files[j].smallest) ≠ .gt := by
  rcases hij.eq_or_lt with rfl | hlt
  · exact not_gt_self
  · have happart := List.pairwise_iff_getElem.mp h.apart i j hi hj hlt
    have hbegins : ucmp.internalCompare files[i].smallest files[j].smallest = .lt :=
      lt_of_not_gt_of_lt (h.proper _ (List.getElem_mem hi)) happart
    refine user_not_gt_of_internal ?_
    rw [hbegins]
    exact Ordering.noConfusion

/-- A key that is before a file is before those that begin later. -/
theorem beforeFile_mono {g : TableFile}
    (hle : ucmp.compare (extractUserKey f.smallest) (extractUserKey g.smallest) ≠ .gt)
    (h : beforeFile ucmp largest f = true) : beforeFile ucmp largest g = true := by
  cases largest with
  | none => exact absurd h Bool.false_ne_true
  | some b => exact decide_eq_true (lt_of_lt_of_not_gt (of_decide_eq_true h) hle)

/-- The one file that is looked at tells of all files of a sorted level. -/
theorem SplitAt.overlaps_iff {i : Nat} (h : SplitAt ucmp files smallest i)
    (hs : SortedLevel ucmp files) :
    (∃ f ∈ files, Interval.Meets ucmp.compare ⟨smallest, largest⟩ f.userRange) ↔
      ∃ f ∈ files[i]?, beforeFile ucmp largest f = false := by
  constructor
  · rintro ⟨f, hf, hmeets⟩
    obtain ⟨hafter, hbefore⟩ := meets_iff_sides.mp hmeets
    rw [← List.take_append_drop i files] at hf
    rcases List.mem_append.mp hf with hf | hf
    · rw [h.below f hf] at hafter
      exact Bool.noConfusion hafter
    · -- a file that meets the range is at the place or begins later
      obtain ⟨j, hj, rfl⟩ := List.mem_drop_iff_getElem.mp hf
      have hi : i < files.length := by omega
      refine ⟨files[i], List.getElem?_eq_getElem hi, ?_⟩
      rw [← Bool.not_eq_true] at hbefore ⊢
      exact fun hpast => hbefore (beforeFile_mono (hs.starts_le hi (by omega) (by omega)) hpast)
  · rintro ⟨f, hf, hbefore⟩
    obtain ⟨hi, rfl⟩ := List.getElem?_eq_some_iff.mp hf
    refine ⟨files[i], List.getElem_mem hi, meets_iff_sides.mpr ⟨?_, hbefore⟩⟩
    exact h.above _ (List.mem_drop_iff_getElem.mpr ⟨0, by omega, rfl⟩)

/-- Where the files are sorted, the flag is that of the scan. -/
theorem someFileOverlapsRange_true_iff (hs : SortedLevel ucmp files)
    (hd : ∀ f ∈ files, Decoded f) :
    someFileOverlapsRange ucmp true files smallest largest = true ↔
      ∃ f ∈ files, Interval.Meets ucmp.compare ⟨smallest, largest⟩ f.userRange := by
  have hsplit : ∃ i, SplitAt ucmp files smallest i ∧
      someFileOverlapsRange ucmp true files smallest largest =
        (files[i]?).any fun f => !beforeFile ucmp largest f := by
    cases smallest with
    | none =>
      refine ⟨0, ⟨fun f hf => absurd hf List.not_mem_nil, fun f _ => rfl⟩, ?_⟩
      simp only [someFileOverlapsRange, if_true]
      cases files[0]? with
      | none => rfl
      | some f => rfl
    | some k =>
      refine ⟨_, splitAt_findFile hs hd k, ?_⟩
      simp only [someFileOverlapsRange, if_true]
      cases files[findFile ucmp files (appendInternalKey ⟨k, kMaxSequenceNumber, .value⟩)]? with
      | none => rfl
      | some f => rfl
  obtain ⟨i, hi, heq⟩ := hsplit
  rw [heq, hi.overlaps_iff hs, Option.any_eq_true]
  simp only [Bool.not_eq_true']
  rfl

/-- In a sorted level the binary search gives the first file whose largest key is not before the
key, or the number of files. Some file of a list overlaps a range of user keys exactly when the
flag says so, where the list is sorted if it is said to be; an end that is absent does not bound the
range. A file overlaps a range that is not reversed when they have a user key in common. -/
theorem fileSearch_eq_scan (ucmp : Comparator) (files : List TableFile) :
    (SortedLevel ucmp files → ∀ key,
      findFile ucmp files key = files.findIdx (reaches ucmp key)) ∧
    ∀ (disjointSortedFiles : Bool) (smallest largest : Option Bytes),
      (disjointSortedFiles = true → SortedLevel ucmp files ∧ ∀ f ∈ files, Decoded f) →
      (someFileOverlapsRange ucmp disjointSortedFiles files smallest largest = true ↔
        ∃ f ∈ files, Interval.Meets ucmp.compare ⟨smallest, largest⟩ f.userRange) ∧
      (Interval.Proper ucmp.compare ⟨smallest, largest⟩ →
        (∀ f ∈ files, f.userRange.Proper ucmp.compare) →
        (someFileOverlapsRange ucmp disjointSortedFiles files smallest largest = true ↔
          ∃ f ∈ files, ∃ k, Interval.Has ucmp.compare ⟨smallest, largest⟩ k ∧
            f.userRange.Has ucmp.compare k)) := by
  refine ⟨fun hs key => (findFile_between hs key).eq_findIdx,
    fun disjointSortedFiles smallest largest hflag => ?_⟩
  have hscan : someFileOverlapsRange ucmp disjointSortedFiles files smallest largest = true ↔
      ∃ f ∈ files, Interval.Meets ucmp.compare ⟨smallest, largest⟩ f.userRange := by
    cases disjointSortedFiles with
    | true => exact someFileOverlapsRange_true_iff (hflag rfl).1 (hflag rfl).2
    | false => exact someFileOverlapsRange_false_iff
  refine ⟨hscan, fun hproper hfiles => hscan.trans ?_⟩
  exact exists_congr fun f => and_congr_right fun hf =>
    Interval.meets_iff_exists_has hproper (hfiles f hf)

/-- Two files with entries of one user key at their boundary. -/
def sharedBoundary : List TableFile :=
  [⟨1, 900, appendInternalKey ⟨ascii ['a'], 1, .value⟩, appendInternalKey ⟨ascii ['c'], 5, .value⟩⟩,
    ⟨2, 900, appendInternalKey ⟨ascii ['c'], 3, .value⟩, appendInternalKey ⟨ascii ['g'], 1, .value⟩⟩]

theorem fileSearch_eq_scan_sharedBoundary :
    findFile bytewiseComparator sharedBoundary (appendInternalKey ⟨ascii ['c'], 4, .value⟩) = 1 ∧
    (∃ f ∈ sharedBoundary, ∃ k, Interval.Has bytewiseComparator.compare
      ⟨some (ascii ['c']), some (ascii ['d'])⟩ k ∧ f.userRange.Has bytewiseComparator.compare k) := by
  have hs : SortedLevel bytewiseComparator sharedBoundary := by
    refine ⟨?_, ?_⟩
    · intro f hf
      simp only [sharedBoundary, List.mem_cons, List.not_mem_nil, or_false] at hf
      rcases hf with rfl | rfl
      all_goals
        rw [KeyRange.Proper]
        decide +kernel
    · simp only [sharedBoundary, List.pairwise_cons, KeyRange.Before]
      decide +kernel
  have hd : ∀ f ∈ sharedBoundary, Decoded f := by
    intro f hf
    simp only [sharedBoundary, List.mem_cons, List.not_mem_nil, or_false] at hf
    rcases hf with rfl | rfl
    all_goals
      rw [Decoded]
      decide +kernel
  obtain ⟨hfind, hoverlap⟩ := fileSearch_eq_scan bytewiseComparator sharedBoundary
  refine ⟨(hfind hs _).trans (by decide +kernel), ?_⟩
  have hranges : ∀ f ∈ sharedBoundary, f.userRange.Proper bytewiseComparator.compare :=
    fun f hf => userRange_proper (hs.proper f hf)
  refine ((hoverlap true _ _ fun _ => ⟨hs, hd⟩).2 ?_ hranges).mp ?_
  · simp only [Interval.Proper, Option.mem_some, forall_eq']
    decide +kernel
  · decide +kernel

end WiscKey
