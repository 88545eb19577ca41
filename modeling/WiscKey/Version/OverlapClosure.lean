import WiscKey.Library.KeyRange
import WiscKey.Version.OverlapSearch

/-!
# The inputs of level 0 are those of a closure

`GetOverlappingInputs` starts over whenever a file of level 0 expands the range. It ends, with the
files that meet the least interval around the range that covers every file it meets.
-/

namespace WiscKey

variable {ucmp : Comparator} {isLevelZero : Bool} {files inputs : List TableFile} {f : TableFile}

/-- The interval between two bounds that are internal keys. -/
def askedFor (first last : Option Bytes) : Interval Bytes :=
  ⟨first.map extractUserKey, last.map extractUserKey⟩

/-- The user keys of each file. -/
def fileRanges (files : List TableFile) : List (KeyRange Bytes) := files.map FileMetaData.userRange

/-- The passes over a level, from a range on: one that does not end starts the next. -/
inductive Passes (ucmp : Comparator) (isLevelZero : Bool) (files : List TableFile) :
    Option Bytes → Option Bytes → List TableFile → Prop
  | done {b e : Option Bytes} {inputs : List TableFile}
    (h : overlapPass ucmp isLevelZero b e [] files = .done inputs) :
    Passes ucmp isLevelZero files b e inputs
  | restart {b e b' e' : Option Bytes} {inputs : List TableFile}
    (h : overlapPass ucmp isLevelZero b e [] files = .restart b' e')
    (rest : Passes ucmp isLevelZero files b' e' inputs) :
    Passes ucmp isLevelZero files b e inputs

/-- The passes come to an end: each one leaves fewer bounds of files outside of the range. -/
theorem passes_overlapPasses {fuel : Nat} {b e : Option Bytes}
    (hfuel : outside ucmp files b e < fuel) :
    Passes ucmp isLevelZero files b e (overlapPasses ucmp isLevelZero files fuel b e) := by
  induction fuel generalizing b e with
  | zero => exact absurd hfuel (Nat.not_lt_zero _)
  | succ fuel ih =>
    rw [overlapPasses]
    rcases @overlapPass_spec ucmp isLevelZero b e [] files with
      ⟨hdone, -⟩ | ⟨f, hf, b', e', -, -, hexpands, hrestart⟩
    · rw [hdone]
      exact .done hdone
    · rw [hrestart]
      have hlt := outside_lt hf hexpands
      exact .restart hrestart (ih (by omega))

theorem overlaps_iff_meets_interval {b e : Option Bytes} :
    overlaps ucmp b e f = true ↔ Interval.Meets ucmp.compare ⟨b, e⟩ f.userRange := by
  cases b <;> cases e <;>
    simp [overlaps, Interval.Meets, FileMetaData.userRange]

theorem filter_overlaps (b e : Option Bytes) : files.filter (overlaps ucmp b e) =
    files.filter fun f => Interval.Meets ucmp.compare ⟨b, e⟩ f.userRange := by
  refine List.filter_congr fun f _ => ?_
  rw [Bool.eq_iff_iff, overlaps_iff_meets_interval, decide_eq_true_iff]

/-- A range that no file expands covers the files it meets. -/
theorem absorbs_of_inside {b e : Option Bytes}
    (h : ∀ f ∈ files, overlaps ucmp b e f = true →
      startsBefore ucmp b f = false ∧ endsAfter ucmp e f = false) :
    Interval.Absorbs ucmp.compare ⟨b, e⟩ (fileRanges files) := by
  intro r hr hmeets
  obtain ⟨f, hf, rfl⟩ := List.mem_map.mp hr
  obtain ⟨hfront, hback⟩ := h f hf (overlaps_iff_meets_interval.mpr hmeets)
  refine ⟨fun a ha => ?_, fun c hc => ?_⟩
  · rw [show b = some a from ha, startsBefore, Option.any_some] at hfront
    exact of_decide_eq_false hfront
  · rw [show e = some c from hc, endsAfter, Option.any_some] at hback
    exact of_decide_eq_false hback

namespace Version

variable {v : Version Bytes} {first last : Option Bytes}

/-- In level 0 the files found are those that meet the closure of the range. -/
theorem getOverlappingInputs_isClosure : ∃ closure : Interval Bytes,
    Interval.IsClosure ucmp.compare (fileRanges (v.files 0)) (askedFor first last) closure ∧
      v.getOverlappingInputs ucmp 0 first last =
        (v.files 0).filter fun f => closure.Meets ucmp.compare f.userRange := by
  obtain ⟨b, e, ⟨hwithin, hleast⟩, heq, hinside⟩ := @getOverlappingInputs_spec ucmp v 0 first last
    (fun b e => (askedFor first last).Within ucmp.compare ⟨b, e⟩ ∧
      ∀ j, (askedFor first last).Within ucmp.compare j →
        j.Absorbs ucmp.compare (fileRanges (v.files 0)) → Interval.Within ucmp.compare ⟨b, e⟩ j)
    ⟨.refl, fun j hj _ => hj⟩ (by
      rintro - b e b' e' f hf ⟨hwithin, hleast⟩ hover hexpands
      have hr : f.userRange ∈ fileRanges (v.files 0) := List.mem_map_of_mem hf
      have hmeets := overlaps_iff_meets_interval.mp hover
      cases hexpands with
      | front h =>
        refine ⟨⟨fun a ha => ?_, hwithin.2⟩, fun j hj habsorbs =>
          (hleast j hj habsorbs).growFront hr hmeets habsorbs⟩
        obtain ⟨c, hc, hlt⟩ := (Option.any_eq_true _ _).mp h
        obtain ⟨a', ha', hle⟩ := hwithin.1 c hc
        refine ⟨a', ha', ?_⟩
        rw [← show extractUserKey f.smallest = a from Option.some.inj ha,
          lt_of_lt_of_not_gt (of_decide_eq_true hlt) hle]
        exact Ordering.noConfusion
      | back h =>
        refine ⟨⟨hwithin.1, fun a ha => ?_⟩, fun j hj habsorbs =>
          (hleast j hj habsorbs).growBack hr hmeets habsorbs⟩
        obtain ⟨c, hc, hgt⟩ := (Option.any_eq_true _ _).mp h
        obtain ⟨a', ha', hle⟩ := hwithin.2 c hc
        refine ⟨a', ha', ?_⟩
        rw [← show extractUserKey f.largest = a from Option.some.inj ha]
        refine not_gt_trans hle ?_
        rw [Std.OrientedCmp.lt_of_gt (of_decide_eq_true hgt)]
        exact Ordering.noConfusion)
  refine ⟨⟨b, e⟩, ⟨hwithin, absorbs_of_inside (hinside rfl), hleast⟩, ?_⟩
  rw [heq, filter_overlaps]

/-- In the deeper levels they are those that meet the range. -/
theorem getOverlappingInputs_deep {level : Level} (hlevel : level ≠ 0) :
    v.getOverlappingInputs ucmp level first last = (v.files level).filter fun f =>
      (askedFor first last).Meets ucmp.compare f.userRange := by
  obtain ⟨b, e, ⟨rfl, rfl⟩, heq, -⟩ := @getOverlappingInputs_spec ucmp v level first last
    (fun b e => b = first.map extractUserKey ∧ e = last.map extractUserKey) ⟨rfl, rfl⟩
    fun hzero => absurd hzero hlevel
  rw [heq, filter_overlaps]
  rfl

/-- `GetOverlappingInputs` ends. In level 0 it finds the files that meet the least interval around
the range that covers every file it meets, in the deeper levels those that meet the range. Where the
range is not reversed, a file meets an interval when they have a user key in common. -/
theorem getOverlappingInputs_least (ucmp : Comparator) (v : Version Bytes)
    (first last : Option Bytes) :
    (∃ closure : Interval Bytes,
      Interval.IsClosure ucmp.compare (fileRanges (v.files 0)) (askedFor first last) closure) ∧
    (∀ closure : Interval Bytes,
      Interval.IsClosure ucmp.compare (fileRanges (v.files 0)) (askedFor first last) closure →
        (v.getOverlappingInputs ucmp 0 first last =
          (v.files 0).filter fun f => closure.Meets ucmp.compare f.userRange) ∧
        ((askedFor first last).Proper ucmp.compare → ∀ f : TableFile,
          f.userRange.Proper ucmp.compare → (closure.Meets ucmp.compare f.userRange ↔
            ∃ k, closure.Has ucmp.compare k ∧ f.userRange.Has ucmp.compare k))) ∧
    ∀ level : Level,
      Passes ucmp (level.val = 0) (v.files level) (first.map extractUserKey)
        (last.map extractUserKey) (v.getOverlappingInputs ucmp level first last) ∧
      (level ≠ 0 → v.getOverlappingInputs ucmp level first last =
        (v.files level).filter fun f => (askedFor first last).Meets ucmp.compare f.userRange) := by
  obtain ⟨least, hleast, heq⟩ := @getOverlappingInputs_isClosure ucmp v first last
  refine ⟨⟨least, hleast⟩, fun closure hclosure => ⟨?_, fun hproper f hf => ?_⟩, fun level =>
    ⟨passes_overlapPasses (outside_lt_fuel _ _ _), getOverlappingInputs_deep⟩⟩
  · rw [heq]
    refine List.filter_congr fun f _ => ?_
    rw [Bool.eq_iff_iff, decide_eq_true_iff, decide_eq_true_iff]
    exact hleast.meets_iff hclosure
  · exact Interval.meets_iff_exists_has (hclosure.within.proper hproper) hf

/-- A table from one user key to another. -/
def tableOver (number : Nat) (a b : UInt8) : TableFile :=
  ⟨number, 4096, appendInternalKey ⟨[a], 9, .value⟩, appendInternalKey ⟨[b], 2, .value⟩⟩

/-- The first two files of level 0 have the key 3 in common, the second one and that of level 1 the
key 5. -/
def chainedVersion : Version Bytes where
  files level := match level.val with
    | 0 => [tableOver 4 1 3, tableOver 5 3 5, tableOver 6 7 8]
    | 1 => [tableOver 7 5 6, tableOver 8 8 9]
    | _ => []

/-- Around the key 5 the passes over level 0 start over twice, and reach the first file. -/
theorem getOverlappingInputs_least_chained :
    let key := some (appendInternalKey ⟨[5], 4, .value⟩)
    chainedVersion.getOverlappingInputs bytewiseComparator 0 key key =
      [tableOver 4 1 3, tableOver 5 3 5] ∧
    chainedVersion.getOverlappingInputs bytewiseComparator 1 key key = [tableOver 7 5 6] ∧
    (∃ closure : Interval Bytes,
      Interval.IsClosure bytewiseComparator.compare (fileRanges (chainedVersion.files 0))
        (askedFor key key) closure ∧
      [tableOver 4 1 3, tableOver 5 3 5] = ((chainedVersion.files 0).filter fun f =>
        closure.Meets bytewiseComparator.compare f.userRange) ∧
      ∃ k, closure.Has bytewiseComparator.compare k ∧
        (tableOver 4 1 3).userRange.Has bytewiseComparator.compare k) ∧
    Passes bytewiseComparator true (chainedVersion.files 0) (some [5]) (some [5])
      [tableOver 4 1 3, tableOver 5 3 5] ∧
    (chainedVersion.files 1).filter (fun f =>
      (askedFor key key).Meets bytewiseComparator.compare f.userRange) = [tableOver 7 5 6] := by
  intro key
  obtain ⟨⟨closure, hclosure⟩, hzero, hlevels⟩ :=
    getOverlappingInputs_least bytewiseComparator chainedVersion key key
  obtain ⟨hfiles, hcommon⟩ := hzero closure hclosure
  have hfirst : chainedVersion.getOverlappingInputs bytewiseComparator 0 key key =
      [tableOver 4 1 3, tableOver 5 3 5] := by decide +kernel
  have hsecond : chainedVersion.getOverlappingInputs bytewiseComparator 1 key key =
      [tableOver 7 5 6] := by decide +kernel
  rw [hfirst] at hfiles
  have hmeets : closure.Meets bytewiseComparator.compare (tableOver 4 1 3).userRange := by
    have hmem : tableOver 4 1 3 ∈ (chainedVersion.files 0).filter fun f =>
        closure.Meets bytewiseComparator.compare f.userRange := by
      rw [← hfiles]
      exact List.mem_cons_self
    exact of_decide_eq_true (List.mem_filter.mp hmem).2
  have hasked : (askedFor key key).Proper bytewiseComparator.compare := by
    intro a ha b hb
    rw [Option.some.inj (Option.mem_def.mp ha).symm, Option.some.inj (Option.mem_def.mp hb).symm]
    exact not_gt_self
  have hproper : (tableOver 4 1 3).userRange.Proper bytewiseComparator.compare := by
    unfold KeyRange.Proper
    decide
  refine ⟨hfirst, hsecond, ⟨closure, hclosure, hfiles, ?_⟩, ?_, ?_⟩
  · exact (hcommon hasked _ hproper).mp hmeets
  · have hpasses := (hlevels 0).1
    rw [hfirst] at hpasses
    exact hpasses
  · rw [← (hlevels 1).2 (by decide), hsecond]

end Version

end WiscKey
