import WiscKey.Library.KeyRange
import WiscKey.Version.Overlap
import WiscKey.Iterator.VisibleMap

/-!
# What the searches for overlapping files find

The binary search of a sorted level ends at the first file that does not end before the key. The
files that overlap a range are those that meet it; in level 0 the range grows by each of them until
it has them all.
-/

namespace WiscKey

namespace FileMetaData

/-- The user keys of a table. -/
def userRange (f : TableFile) : KeyRange Bytes :=
  ⟨extractUserKey f.smallest, extractUserKey f.largest⟩

/-- The internal keys of a table. -/
def range (f : TableFile) : KeyRange Bytes := ⟨f.smallest, f.largest⟩

end FileMetaData

/-- The files of a level are sorted and disjoint; `MaybeAddFile` asserts this of neighbours. -/
structure SortedLevel (ucmp : Comparator) (files : List TableFile) : Prop where
  proper : ∀ f ∈ files, f.range.Proper ucmp.internalCompare
  apart : files.Pairwise fun f g => f.range.Before ucmp.internalCompare g.range

variable {ucmp : Comparator} {files inputs : List TableFile} {f g : TableFile} {key : Bytes}

section InternalOrder

variable {a b : Bytes}

theorem internalCompare_of_user_lt (h : ucmp.compare (extractUserKey a) (extractUserKey b) = .lt) :
    ucmp.internalCompare a b = .lt := by
  rw [Comparator.internalCompare, h]
  rfl

theorem user_not_gt_of_internal (h : ucmp.internalCompare a b ≠ .gt) :
    ucmp.compare (extractUserKey a) (extractUserKey b) ≠ .gt := by
  intro hgt
  rw [Comparator.internalCompare, hgt] at h
  exact h rfl

/-- Files whose user keys are apart have internal keys that are. -/
theorem before_of_userRange (h : f.userRange.Before ucmp.compare g.userRange) :
    f.range.Before ucmp.internalCompare g.range := internalCompare_of_user_lt h

theorem userRange_proper (h : f.range.Proper ucmp.internalCompare) :
    f.userRange.Proper ucmp.compare := user_not_gt_of_internal h

end InternalOrder

section FindFile

/-- The files up to a place end before the key, and those from another one on do not. -/
structure Between (ucmp : Comparator) (files : List TableFile) (key : Bytes) (left right : Nat) :
    Prop where
  le : left ≤ right
  bound : right ≤ files.length
  below : ∀ f ∈ files.take left, ucmp.internalCompare f.largest key = .lt
  above : ∀ f ∈ files.drop right, ucmp.internalCompare f.largest key ≠ .lt

theorem SortedLevel.ends (h : SortedLevel ucmp files) :
    files.Pairwise fun f g => ucmp.internalCompare f.largest g.largest = .lt := by
  refine h.apart.imp_of_mem fun {f g} _ hg hfg => ?_
  exact lt_of_lt_of_not_gt hfg (h.proper g hg)

theorem ends_le_of_mem_take {i j : Nat} (hi : i < files.length) (hf : f ∈ files.take j)
    (hj : j ≤ i + 1) (h : SortedLevel ucmp files) :
    ucmp.internalCompare f.largest files[i].largest ≠ .gt := by
  obtain ⟨k, hk, rfl⟩ := List.mem_take_iff_getElem.mp hf
  rcases Nat.lt_or_ge k i with hlt | hge
  · rw [List.pairwise_iff_getElem.mp h.ends k i (by omega) hi hlt]
    exact Ordering.noConfusion
  · obtain rfl : k = i := by omega
    exact not_gt_self

theorem findFileLoop_between (h : SortedLevel ucmp files) {fuel left right : Nat}
    (hb : Between ucmp files key left right) (hfuel : right - left ≤ fuel) :
    Between ucmp files key (findFileLoop ucmp files key fuel left right)
      (findFileLoop ucmp files key fuel left right) := by
  induction fuel generalizing left right with
  | zero =>
    obtain rfl : left = right := by
      have hle := hb.le
      omega
    exact hb
  | succ fuel ih =>
    have hle := hb.le
    have hbound := hb.bound
    rw [findFileLoop]
    split
    · rename_i hlt
      have hmid : (left + right) / 2 < files.length := by omega
      simp only [List.getElem?_eq_getElem hmid]
      split
      · rename_i hbefore
        refine ih ⟨by omega, hbound, fun f hf => ?_, hb.above⟩ (by omega)
        exact lt_of_not_gt_of_lt (ends_le_of_mem_take hmid hf le_rfl h) hbefore
      · rename_i hnot
        refine ih ⟨by omega, by omega, hb.below, fun f hf => ?_⟩ (by omega)
        obtain ⟨k, hk, rfl⟩ := List.mem_drop_iff_getElem.mp hf
        intro hlt'
        refine hnot (lt_of_not_gt_of_lt ?_ hlt')
        exact ends_le_of_mem_take (by omega)
          (List.mem_take_iff_getElem.mpr ⟨(left + right) / 2, by omega, rfl⟩)
          (by omega : (left + right) / 2 + 1 ≤ _) h
    · obtain rfl : left = right := by omega
      exact hb

/-- The search of a sorted level ends between the files before the key and the others. -/
theorem findFile_between (h : SortedLevel ucmp files) (key : Bytes) :
    Between ucmp files key (findFile ucmp files key) (findFile ucmp files key) := by
  refine findFileLoop_between h ⟨Nat.zero_le _, le_rfl, ?_, ?_⟩ (by omega)
  · simp
  · simp

end FindFile

/-- The keys of a file are decoded. -/
def Decoded (f : TableFile) : Prop := (parseInternalKey f.largest).isSome

section Level

variable {v : Version Bytes} {level : Level} {smallest largest : Bytes} {maxFileSize : Nat}

/-- A lookup at the highest sequence number is in front of all entries of its user key. -/
theorem internalCompare_lookup {a : Bytes} (h : (parseInternalKey a).isSome) (userKey : Bytes) :
    ucmp.internalCompare a (appendInternalKey ⟨userKey, kMaxSequenceNumber, .value⟩) = .lt ↔
      ucmp.compare (extractUserKey a) userKey = .lt := by
  obtain ⟨ikey, hparse⟩ := Option.isSome_iff_exists.mp h
  exact internalCompare_seek (e := ⟨a, []⟩) le_rfl ⟨ikey, hparse, sequence_le_of_parse hparse⟩
    userKey

/-- In level 0 every file is looked at. -/
theorem not_meets_of_overlapInLevel_zero
    (h : v.overlapInLevel ucmp 0 (some smallest) (some largest) = false)
    (hf : f ∈ v.files 0) : ¬ f.userRange.Meets ucmp.compare ⟨smallest, largest⟩ := by
  rw [Version.overlapInLevel, someFileOverlapsRange, if_neg (by simp)] at h
  have hsides := List.any_eq_false.mp h f hf
  rintro ⟨hbefore, hafter⟩
  refine hsides ?_
  simp only [afterFile, beforeFile, Bool.not_eq_true', Bool.or_eq_false_iff, decide_eq_false_iff_not]
  exact ⟨fun hgt => hbefore (Std.OrientedCmp.lt_of_gt hgt), hafter⟩

/-- In a sorted level the one file that is looked at tells. -/
theorem not_meets_of_overlapInLevel (hlevel : level ≠ 0) (hs : SortedLevel ucmp (v.files level))
    (hd : ∀ f ∈ v.files level, Decoded f)
    (h : v.overlapInLevel ucmp level (some smallest) (some largest) = false)
    (hf : f ∈ v.files level) : ¬ f.userRange.Meets ucmp.compare ⟨smallest, largest⟩ := by
  have hpos : 0 < level.val := Nat.pos_of_ne_zero fun hzero => hlevel (Fin.ext hzero)
  have hb := findFile_between hs (appendInternalKey ⟨smallest, kMaxSequenceNumber, .value⟩)
  rw [Version.overlapInLevel, someFileOverlapsRange, if_pos (by simpa using hpos)] at h
  simp only at h
  generalize findFile ucmp (v.files level)
    (appendInternalKey ⟨smallest, kMaxSequenceNumber, .value⟩) = i at h hb
  rintro ⟨hbefore, hafter⟩
  rw [← List.take_append_drop i (v.files level)] at hf
  rcases List.mem_append.mp hf with hf | hf
  · exact hbefore ((internalCompare_lookup (hd f (List.mem_of_mem_take hf)) _).mp (hb.below f hf))
  · -- the file at the place begins behind the range, and so do those after it
    obtain ⟨k, hk, rfl⟩ := List.mem_drop_iff_getElem.mp hf
    have hi : i < (v.files level).length := by omega
    rw [List.getElem?_eq_getElem hi] at h
    have hbehind : ucmp.compare largest (extractUserKey (v.files level)[i].smallest) = .lt := by
      simpa [beforeFile] using h
    refine hafter (lt_of_lt_of_not_gt hbehind ?_)
    rcases Nat.eq_zero_or_pos k with rfl | hkpos
    · exact not_gt_self
    · have happart := List.pairwise_iff_getElem.mp hs.apart i (i + k) hi (by omega) (by omega)
      have hproper := hs.proper _ (List.getElem_mem hi)
      have hlt : ucmp.internalCompare (v.files level)[i].smallest
          (v.files level)[i + k].smallest = .lt := lt_of_not_gt_of_lt hproper happart
      refine user_not_gt_of_internal ?_
      rw [hlt]
      exact Ordering.noConfusion

/-- The loop of `PickLevelForMemTableOutput` goes down past levels that do not overlap. -/
theorem pickLevelLoop_spec {fuel start : Nat} (hfuel : kMaxMemCompactLevel ≤ start + fuel) :
    start ≤ v.pickLevelLoop ucmp maxFileSize smallest largest fuel start ∧
      (start ≤ kMaxMemCompactLevel →
        v.pickLevelLoop ucmp maxFileSize smallest largest fuel start ≤ kMaxMemCompactLevel) ∧
      ∀ l, start < l → l ≤ v.pickLevelLoop ucmp maxFileSize smallest largest fuel start →
        v.overlapInLevel ucmp (Fin.ofNat kNumLevels l) (some smallest) (some largest) = false := by
  induction fuel generalizing start with
  | zero => exact ⟨le_rfl, id, fun l hlt hle => absurd hle (Nat.not_le.mpr hlt)⟩
  | succ fuel ih =>
    have hstay : start ≤ start ∧ (start ≤ kMaxMemCompactLevel → start ≤ kMaxMemCompactLevel) ∧
        ∀ l, start < l → l ≤ start → v.overlapInLevel ucmp (Fin.ofNat kNumLevels l)
          (some smallest) (some largest) = false :=
      ⟨le_rfl, id, fun l hlt hle => absurd hle (Nat.not_le.mpr hlt)⟩
    rw [Version.pickLevelLoop]
    split
    · rename_i hlt
      split
      · exact hstay
      · rename_i hnone
        simp only
        split
        · exact hstay
        · obtain ⟨hge, hle, hall⟩ := @ih (start + 1) (by omega)
          refine ⟨by omega, fun _ => hle hlt, fun l hl hll => ?_⟩
          rcases Nat.lt_or_ge (start + 1) l with hl' | hl'
          · exact hall l hl' hll
          · obtain rfl : l = start + 1 := by omega
            simpa using hnone
    · exact hstay

/-- A memtable that goes below level 0 meets no file of its level, nor of those above it. -/
theorem pickLevel_spec (hs : ∀ l : Level, l ≠ 0 → SortedLevel ucmp (v.files l))
    (hd : ∀ l, ∀ f ∈ v.files l, Decoded f)
    (hpos : v.pickLevelForMemTableOutput ucmp maxFileSize smallest largest ≠ 0) {l : Level}
    (hl : l ≤ v.pickLevelForMemTableOutput ucmp maxFileSize smallest largest)
    (hf : f ∈ v.files l) : ¬ f.userRange.Meets ucmp.compare ⟨smallest, largest⟩ := by
  rw [Version.pickLevelForMemTableOutput] at hpos hl
  split at hpos
  · exact absurd rfl hpos
  · rename_i hzero
    rw [if_neg hzero] at hl
    obtain ⟨-, hle, hall⟩ := @pickLevelLoop_spec ucmp v smallest largest maxFileSize
      kMaxMemCompactLevel 0 (by omega)
    rcases eq_or_ne l 0 with rfl | hne
    · exact not_meets_of_overlapInLevel_zero (by simpa using hzero) hf
    · refine not_meets_of_overlapInLevel hne (hs l hne) (hd l) ?_ hf
      have hlval : l.val ≤ v.pickLevelLoop ucmp maxFileSize smallest largest kMaxMemCompactLevel 0 := by
        have hval : (Fin.ofNat kNumLevels (v.pickLevelLoop ucmp maxFileSize smallest largest
            kMaxMemCompactLevel 0)).val ≤ v.pickLevelLoop ucmp maxFileSize smallest largest
              kMaxMemCompactLevel 0 := Nat.mod_le _ _
        exact (Fin.le_def.mp hl).trans hval
      have hlpos : 0 < l.val := Nat.pos_of_ne_zero fun h => hne (Fin.ext h)
      have hnone := hall l.val hlpos hlval
      rwa [show Fin.ofNat kNumLevels l.val = l from Fin.ext (Nat.mod_eq_of_lt l.isLt)] at hnone

end Level

section OverlappingInputs

variable {isLevelZero : Bool} {userBegin userEnd userBegin' userEnd' : Option Bytes}

/-- The file is not completely before a range, nor after it. A bound that is absent does not
limit the range. -/
def overlaps (ucmp : Comparator) (userBegin userEnd : Option Bytes) (f : TableFile) : Bool :=
  !(userBegin.any fun b => ucmp.compare (extractUserKey f.largest) b = .lt) &&
    !(userEnd.any fun e => ucmp.compare (extractUserKey f.smallest) e = .gt)

/-- The file begins before a bound. -/
def startsBefore (ucmp : Comparator) (userBegin : Option Bytes) (f : TableFile) : Bool :=
  userBegin.any fun b => ucmp.compare (extractUserKey f.smallest) b = .lt

/-- The file ends after a bound. -/
def endsAfter (ucmp : Comparator) (userEnd : Option Bytes) (f : TableFile) : Bool :=
  userEnd.any fun e => ucmp.compare (extractUserKey f.largest) e = .gt

/-- A file expands a range to its first or its last user key. -/
inductive Expands (ucmp : Comparator) (f : TableFile) :
    Option Bytes → Option Bytes → Option Bytes → Option Bytes → Prop
  | front {b e : Option Bytes} (h : startsBefore ucmp b f = true) :
    Expands ucmp f b e (some (extractUserKey f.smallest)) e
  | back {b e : Option Bytes} (h : endsAfter ucmp e f = true) :
    Expands ucmp f b e b (some (extractUserKey f.largest))

/-- A pass ends with the files that overlap the range, or at one that expands it. -/
theorem overlapPass_spec (userBegin userEnd : Option Bytes) (inputs files : List TableFile) :
    (overlapPass ucmp isLevelZero userBegin userEnd inputs files =
        .done (inputs ++ files.filter (overlaps ucmp userBegin userEnd)) ∧
      (isLevelZero = true → ∀ f ∈ files, overlaps ucmp userBegin userEnd f = true →
        startsBefore ucmp userBegin f = false ∧ endsAfter ucmp userEnd f = false)) ∨
    ∃ f ∈ files, ∃ userBegin' userEnd', isLevelZero = true ∧
      overlaps ucmp userBegin userEnd f = true ∧
      Expands ucmp f userBegin userEnd userBegin' userEnd' ∧
      overlapPass ucmp isLevelZero userBegin userEnd inputs files =
        .restart userBegin' userEnd' := by
  induction files generalizing inputs with
  | nil => exact .inl ⟨by simp [overlapPass], fun _ f hf => absurd hf List.not_mem_nil⟩
  | cons f files ih =>
    have hskip : overlaps ucmp userBegin userEnd f = false →
        overlapPass ucmp isLevelZero userBegin userEnd inputs (f :: files) =
          overlapPass ucmp isLevelZero userBegin userEnd inputs files := by
      intro h
      rw [overlaps, Bool.and_eq_false_iff, Bool.not_eq_false', Bool.not_eq_false'] at h
      simp only [overlapPass]
      rcases h with h | h
      · rw [if_pos h]
      · rw [if_pos h, ite_self]
    cases hover : overlaps ucmp userBegin userEnd f with
    | false =>
      rw [hskip hover, List.filter_cons_of_neg (by simp [hover])]
      rcases ih inputs with ⟨hdone, hinside⟩ | ⟨g, hg, b, e, hzero, hgover, hexpands, hrestart⟩
      · refine .inl ⟨hdone, fun hzero g hg hgover => ?_⟩
        rcases List.mem_cons.mp hg with rfl | hg
        · exact absurd hgover (by simp [hover])
        · exact hinside hzero g hg hgover
      · exact .inr ⟨g, List.mem_cons_of_mem _ hg, b, e, hzero, hgover, hexpands, hrestart⟩
    | true =>
      have hparts := hover
      rw [overlaps, Bool.and_eq_true, Bool.not_eq_true', Bool.not_eq_true'] at hparts
      simp only [overlapPass]
      rw [if_neg (by simp [hparts.1]), if_neg (by simp [hparts.2])]
      simp only [← startsBefore.eq_1, ← endsAfter.eq_1]
      by_cases hfront : (isLevelZero && startsBefore ucmp userBegin f) = true
      · rw [if_pos hfront]
        rw [Bool.and_eq_true] at hfront
        exact .inr ⟨f, List.mem_cons_self, _, _, hfront.1, hover, .front hfront.2, rfl⟩
      rw [if_neg hfront]
      by_cases hback : (isLevelZero && endsAfter ucmp userEnd f) = true
      · rw [if_pos hback]
        rw [Bool.and_eq_true] at hback
        exact .inr ⟨f, List.mem_cons_self, _, _, hback.1, hover, .back hback.2, rfl⟩
      rw [if_neg hback, List.filter_cons_of_pos hover]
      rcases ih (inputs ++ [f]) with ⟨hdone, hinside⟩ | ⟨g, hg, b, e, hzero, hgover, hexpands, hrestart⟩
      · refine .inl ⟨by rw [hdone]; simp, fun hzero g hg hgover => ?_⟩
        rcases List.mem_cons.mp hg with rfl | hg
        · subst hzero
          exact ⟨by simpa using hfront, by simpa using hback⟩
        · exact hinside hzero g hg hgover
      · exact .inr ⟨g, List.mem_cons_of_mem _ hg, b, e, hzero, hgover, hexpands, hrestart⟩

/-- How many bounds of files are outside of a range. -/
def outside (ucmp : Comparator) (files : List TableFile) (userBegin userEnd : Option Bytes) : Nat :=
  files.countP (startsBefore ucmp userBegin) + files.countP (endsAfter ucmp userEnd)

theorem countP_lt {α : Type} {p q : α → Bool} {l : List α} {a : α} (h : ∀ x, p x = true → q x = true)
    (ha : a ∈ l) (hp : p a = false) (hq : q a = true) : l.countP p < l.countP q := by
  induction l with
  | nil => exact absurd ha List.not_mem_nil
  | cons b l ih =>
    rw [List.countP_cons, List.countP_cons]
    have hle := List.countP_mono_left (l := l) fun x _ => h x
    rcases List.mem_cons.mp ha with rfl | ha
    · rw [if_neg (by simp [hp]), if_pos hq]
      omega
    · have hlt := ih ha
      have hb := h b
      split_ifs
      all_goals first | omega | simp_all

/-- A file that expands a range is no longer outside of it. -/
theorem outside_lt (hf : f ∈ files) (h : Expands ucmp f userBegin userEnd userBegin' userEnd') :
    outside ucmp files userBegin' userEnd' < outside ucmp files userBegin userEnd := by
  have hself : ∀ k, ucmp.compare k k = .eq := fun k => Std.ReflCmp.compare_self
  rw [outside, outside]
  cases h with
  | front h =>
    refine Nat.add_lt_add_right (countP_lt (fun g hg => ?_) hf ?_ h) _
    · obtain ⟨b, rfl, hb⟩ := (Option.any_eq_true _ _).mp h
      simp only [startsBefore, Option.any_some, decide_eq_true_eq] at hg hb ⊢
      exact Std.TransCmp.lt_trans hg hb
    · simp [startsBefore, hself]
  | back h =>
    refine Nat.add_lt_add_left (countP_lt (fun g hg => ?_) hf ?_ h) _
    · obtain ⟨e, rfl, he⟩ := (Option.any_eq_true _ _).mp h
      simp only [endsAfter, Option.any_some, decide_eq_true_eq] at hg he ⊢
      exact Std.TransCmp.gt_trans hg he
    · simp [endsAfter, hself]

/-- What holds of the range at first and is kept when a file that overlaps it expands it holds of
the range whose files are found. -/
theorem overlapPasses_spec (holds : Option Bytes → Option Bytes → Prop) {fuel : Nat}
    (hfuel : outside ucmp files userBegin userEnd < fuel) (hholds : holds userBegin userEnd)
    (hexpand : isLevelZero = true → ∀ b e b' e', ∀ f ∈ files, holds b e →
      overlaps ucmp b e f = true → Expands ucmp f b e b' e' → holds b' e') :
    ∃ b e, holds b e ∧ overlapPasses ucmp isLevelZero files fuel userBegin userEnd =
        files.filter (overlaps ucmp b e) ∧
      (isLevelZero = true → ∀ f ∈ files, overlaps ucmp b e f = true →
        startsBefore ucmp b f = false ∧ endsAfter ucmp e f = false) := by
  induction fuel generalizing userBegin userEnd with
  | zero => exact absurd hfuel (Nat.not_lt_zero _)
  | succ fuel ih =>
    rw [overlapPasses]
    rcases @overlapPass_spec ucmp isLevelZero userBegin userEnd [] files with
      ⟨hdone, hinside⟩ | ⟨f, hf, b, e, hzero, hover, hexpands, hrestart⟩
    · rw [hdone]
      exact ⟨userBegin, userEnd, hholds, rfl, hinside⟩
    · rw [hrestart]
      have hlt := outside_lt hf hexpands
      exact ih (by omega) (hexpand hzero _ _ _ _ f hf hholds hover hexpands)

theorem outside_lt_fuel (files : List TableFile) (userBegin userEnd : Option Bytes) :
    outside ucmp files userBegin userEnd < 2 * files.length + 1 := by
  have hbegin : files.countP (startsBefore ucmp userBegin) ≤ files.length := List.countP_le_length
  have hend : files.countP (endsAfter ucmp userEnd) ≤ files.length := List.countP_le_length
  rw [outside]
  omega

/-- The files that `GetOverlappingInputs` finds are those that overlap a range. -/
theorem getOverlappingInputs_spec {v : Version Bytes} {level : Level} {first last : Option Bytes}
    (holds : Option Bytes → Option Bytes → Prop)
    (hholds : holds (first.map extractUserKey) (last.map extractUserKey))
    (hexpand : level = 0 → ∀ b e b' e', ∀ f ∈ v.files level, holds b e →
      overlaps ucmp b e f = true → Expands ucmp f b e b' e' → holds b' e') :
    ∃ b e, holds b e ∧ v.getOverlappingInputs ucmp level first last =
        (v.files level).filter (overlaps ucmp b e) ∧
      (level = 0 → ∀ f ∈ v.files level, overlaps ucmp b e f = true →
        startsBefore ucmp b f = false ∧ endsAfter ucmp e f = false) := by
  have hzero : decide (level.val = 0) = true ↔ level = 0 := by
    rw [decide_eq_true_iff, Fin.ext_iff]
    rfl
  obtain ⟨b, e, hbe, heq, hinside⟩ := @overlapPasses_spec ucmp (v.files level)
    (decide (level.val = 0)) _ _ holds _ (outside_lt_fuel _ _ _) hholds fun h => hexpand (hzero.mp h)
  exact ⟨b, e, hbe, heq, fun h => hinside (hzero.mpr h)⟩

end OverlappingInputs

end WiscKey
