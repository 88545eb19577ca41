import WiscKey.Compaction.Selection
import WiscKey.Version.OverlapSearch

/-!
# What a compaction takes in

A compaction takes in all files of the next level that meet its inputs, so the files it leaves
there are before all inputs or behind them. Between the inputs of a compaction that is picked there
is no gap; between those of a manual compaction there can be one.
-/

namespace WiscKey

variable {ucmp : Comparator} {maxFileSize : Nat} {v : Version Bytes} {level : Level}
  {inputs inputs0 inputs1 : List TableFile} {f g : TableFile} {r : Bytes × Bytes}

section Range

/-- The internal keys from the smallest to the largest of files. -/
def hull (ucmp : Comparator) (inputs : List TableFile) : KeyRange Bytes :=
  ⟨(getRange ucmp inputs).1, (getRange ucmp inputs).2⟩

/-- Their user keys. -/
def userHull (ucmp : Comparator) (inputs : List TableFile) : KeyRange Bytes :=
  ⟨extractUserKey (getRange ucmp inputs).1, extractUserKey (getRange ucmp inputs).2⟩

/-- The range is that of the files, from the smallest key of one to the largest of another. -/
structure IsRange (ucmp : Comparator) (inputs : List TableFile) (r : Bytes × Bytes) : Prop where
  first : ∃ f ∈ inputs, f.smallest = r.1
  last : ∃ g ∈ inputs, g.largest = r.2
  le : ∀ x ∈ inputs, ucmp.internalCompare r.1 x.smallest ≠ .gt
  ge : ∀ x ∈ inputs, ucmp.internalCompare x.largest r.2 ≠ .gt

theorem extendRange_fst : (extendRange ucmp r f).1 =
    if ucmp.internalCompare f.smallest r.1 = .lt then f.smallest else r.1 := rfl

theorem extendRange_snd : (extendRange ucmp r f).2 =
    if ucmp.internalCompare f.largest r.2 = .gt then f.largest else r.2 := rfl

/-- The range of one more file is in front of the range and of the file. -/
theorem extendRange_le : ucmp.internalCompare (extendRange ucmp r f).1 r.1 ≠ .gt ∧
    ucmp.internalCompare (extendRange ucmp r f).1 f.smallest ≠ .gt := by
  rw [extendRange_fst]
  split
  · rename_i hlt
    exact ⟨by simp [hlt], not_gt_self⟩
  · rename_i hnot
    exact ⟨not_gt_self, not_gt_iff_not_lt.mpr hnot⟩

/-- And it goes on to the end of both. -/
theorem extendRange_ge : ucmp.internalCompare r.2 (extendRange ucmp r f).2 ≠ .gt ∧
    ucmp.internalCompare f.largest (extendRange ucmp r f).2 ≠ .gt := by
  rw [extendRange_snd]
  split
  · rename_i hgt
    refine ⟨?_, not_gt_self⟩
    rw [Std.OrientedCmp.lt_of_gt hgt]
    exact Ordering.noConfusion
  · rename_i hnot
    exact ⟨not_gt_self, hnot⟩

theorem IsRange.extend (h : IsRange ucmp inputs r) (f : TableFile) :
    IsRange ucmp (inputs ++ [f]) (extendRange ucmp r f) := by
  obtain ⟨⟨a, ha, hfirst⟩, ⟨b, hb, hlast⟩, hle, hge⟩ := h
  refine ⟨?_, ?_, fun x hx => ?_, fun x hx => ?_⟩
  · rw [extendRange_fst]
    split
    · exact ⟨f, by simp, rfl⟩
    · exact ⟨a, List.mem_append_left _ ha, hfirst⟩
  · rw [extendRange_snd]
    split
    · exact ⟨f, by simp, rfl⟩
    · exact ⟨b, List.mem_append_left _ hb, hlast⟩
  · rcases List.mem_append.mp hx with hx | hx
    · exact not_gt_trans extendRange_le.1 (hle x hx)
    · rw [List.mem_singleton.mp hx]
      exact extendRange_le.2
  · rcases List.mem_append.mp hx with hx | hx
    · exact not_gt_trans (hge x hx) extendRange_ge.1
    · rw [List.mem_singleton.mp hx]
      exact extendRange_ge.2

theorem isRange_getRange (h : inputs ≠ []) : IsRange ucmp inputs (getRange ucmp inputs) := by
  have hfold : ∀ (files seen : List TableFile) (r : Bytes × Bytes), IsRange ucmp seen r →
      IsRange ucmp (seen ++ files) (files.foldl (extendRange ucmp) r) := by
    intro files
    induction files with
    | nil => exact fun seen r hr => by simpa using hr
    | cons f files ih =>
      intro seen r hr
      have hrest := ih (seen ++ [f]) _ (hr.extend f)
      rwa [List.append_assoc, List.singleton_append] at hrest
  cases inputs with
  | nil => exact absurd rfl h
  | cons f files =>
    refine hfold files [f] (f.smallest, f.largest) ⟨⟨f, by simp, rfl⟩, ⟨f, by simp, rfl⟩, ?_, ?_⟩
    all_goals
      intro x hx
      rw [List.mem_singleton.mp hx]
      exact not_gt_self

/-- A file is within the user keys of files that it is one of. -/
theorem meets_userHull (hf : f ∈ inputs) (hproper : f.range.Proper ucmp.internalCompare) :
    (userHull ucmp inputs).Meets ucmp.compare f.userRange := by
  obtain ⟨-, -, hle, hge⟩ := @isRange_getRange ucmp inputs (List.ne_nil_of_mem hf)
  have huser := user_not_gt_of_internal hproper
  have hfirst := user_not_gt_of_internal (hle f hf)
  have hlast := user_not_gt_of_internal (hge f hf)
  refine ⟨KeyRange.not_before_iff.mpr ?_, KeyRange.not_before_iff.mpr ?_⟩
  · exact not_gt_trans huser hlast
  · exact not_gt_trans hfirst huser

end Range

section InputsBetween

theorem overlaps_iff_meets {a b : Bytes} : overlaps ucmp (some a) (some b) f = true ↔
    KeyRange.Meets ucmp.compare ⟨a, b⟩ f.userRange := by
  simp only [overlaps, Option.any_some, Bool.and_eq_true, Bool.not_eq_true', decide_eq_false_iff_not,
    KeyRange.Meets, KeyRange.Before, FileMetaData.userRange]
  rw [Std.OrientedCmp.gt_iff_lt]
  exact and_comm

/-- The files found are files of the level, in its order. -/
theorem getOverlappingInputs_sublist (first last : Option Bytes) :
    (v.getOverlappingInputs ucmp level first last).Sublist (v.files level) := by
  obtain ⟨b, e, -, heq, -⟩ := @getOverlappingInputs_spec ucmp v level first last
    (fun _ _ => True) trivial fun _ _ _ _ _ _ _ _ _ _ => trivial
  rw [heq]
  exact List.filter_sublist

/-- In the deeper levels they are the files that meet the range. -/
theorem inputsBetween_deep (hlevel : level ≠ 0) (r : Bytes × Bytes) :
    v.inputsBetween ucmp level r = (v.files level).filter
      (overlaps ucmp (some (extractUserKey r.1)) (some (extractUserKey r.2))) := by
  obtain ⟨b, e, ⟨rfl, rfl⟩, heq, -⟩ := @getOverlappingInputs_spec ucmp v level (some r.1) (some r.2)
    (fun b e => b = some (extractUserKey r.1) ∧ e = some (extractUserKey r.2)) ⟨rfl, rfl⟩
    fun hzero => absurd hzero hlevel
  exact heq

/-- In level 0 the range has grown, by files that fill it further. -/
theorem inputsBetween_spec {rs : List (KeyRange Bytes)} (r : Bytes × Bytes)
    (hrs : ∀ f ∈ v.files level, f.userRange ∈ rs)
    (hfills : KeyRange.Fills ucmp.compare rs ⟨extractUserKey r.1, extractUserKey r.2⟩) :
    ∃ q, KeyRange.Fills ucmp.compare rs q ∧
      (∀ x, KeyRange.Meets ucmp.compare ⟨extractUserKey r.1, extractUserKey r.2⟩ x →
        KeyRange.Meets ucmp.compare q x) ∧
      v.inputsBetween ucmp level r =
        (v.files level).filter (overlaps ucmp (some q.first) (some q.last)) := by
  obtain ⟨b, e, ⟨q, rfl, rfl, hq, hmeets⟩, heq, -⟩ :=
    @getOverlappingInputs_spec ucmp v level (some r.1) (some r.2) (fun b e => ∃ q : KeyRange Bytes,
      b = some q.first ∧ e = some q.last ∧ KeyRange.Fills ucmp.compare rs q ∧
        ∀ x, KeyRange.Meets ucmp.compare ⟨extractUserKey r.1, extractUserKey r.2⟩ x →
          KeyRange.Meets ucmp.compare q x)
      ⟨⟨extractUserKey r.1, extractUserKey r.2⟩, rfl, rfl, hfills, fun _ h => h⟩ (by
        rintro - b e b' e' f hf ⟨q, rfl, rfl, hq, hmeets⟩ hover hexpands
        have hfq := overlaps_iff_meets.mp hover
        cases hexpands with
        | front h =>
          refine ⟨⟨extractUserKey f.smallest, q.last⟩, rfl, rfl, hq.growFront (hrs f hf) hfq,
            fun x hx => ⟨(hmeets x hx).1, fun hbefore => (hmeets x hx).2 ?_⟩⟩
          have hlt : ucmp.compare (extractUserKey f.smallest) q.first = .lt := by
            simpa [startsBefore] using h
          exact Std.TransCmp.lt_trans hbefore hlt
        | back h =>
          refine ⟨⟨q.first, extractUserKey f.largest⟩, rfl, rfl, hq.growBack (hrs f hf) hfq,
            fun x hx => ⟨fun hbefore => (hmeets x hx).1 ?_, (hmeets x hx).2⟩⟩
          have hgt : ucmp.compare (extractUserKey f.largest) q.last = .gt := by
            simpa [endsAfter] using h
          exact Std.TransCmp.lt_trans (Std.OrientedCmp.lt_of_gt hgt) hbefore)
  exact ⟨q, hq, hmeets, heq⟩

end InputsBetween

section GapFree

/-- The user keys of files, one range for each. -/
def userRanges (inputs : List TableFile) : List (KeyRange Bytes) :=
  inputs.map FileMetaData.userRange

/-- Every user key from the smallest of the files to the largest is in the range of one of them. -/
def GapFree (ucmp : Comparator) (inputs : List TableFile) : Prop :=
  KeyRange.Fills ucmp.compare (userRanges inputs) (userHull ucmp inputs)

theorem mem_userRanges (hf : f ∈ inputs) : f.userRange ∈ userRanges inputs :=
  List.mem_map_of_mem hf

/-- Files that fill a range and all meet it have no gap. -/
theorem gapFree_of_meets {q : KeyRange Bytes}
    (h : KeyRange.Fills ucmp.compare (userRanges inputs) q) (hne : inputs ≠ [])
    (hmeets : ∀ f ∈ inputs, q.Meets ucmp.compare f.userRange) : GapFree ucmp inputs := by
  obtain ⟨⟨a, ha, hfirst⟩, ⟨b, hb, hlast⟩, -, -⟩ := @isRange_getRange ucmp inputs hne
  have hgrow := h.grow (mem_userRanges ha) (hmeets a ha) (mem_userRanges hb) (hmeets b hb)
  rw [GapFree, userHull, ← hfirst, ← hlast]
  exact hgrow

/-- What files fill is filled by those of them that meet it. -/
theorem fills_filter {files : List TableFile} {rs : List (KeyRange Bytes)} {q : KeyRange Bytes}
    (h : KeyRange.Fills ucmp.compare (userRanges files ++ rs) q) : KeyRange.Fills ucmp.compare
      (userRanges (files.filter (overlaps ucmp (some q.first) (some q.last))) ++ rs) q := by
  intro k hk
  obtain ⟨x, hx, hhas⟩ := h k hk
  refine ⟨x, ?_, hhas⟩
  rcases List.mem_append.mp hx with hx | hx
  · obtain ⟨f, hf, rfl⟩ := List.mem_map.mp hx
    refine List.mem_append_left _ (mem_userRanges (List.mem_filter.mpr ⟨hf, ?_⟩))
    exact overlaps_iff_meets.mpr (KeyRange.meets_of_has hk hhas)
  · exact List.mem_append_right _ hx

/-- More files have a wider range. -/
theorem meets_userHull_mono {more : List TableFile} {x : KeyRange Bytes} (hne : inputs ≠ [])
    (hsub : ∀ f ∈ inputs, f ∈ more) (h : (userHull ucmp inputs).Meets ucmp.compare x) :
    (userHull ucmp more).Meets ucmp.compare x := by
  obtain ⟨⟨a, ha, hfirst⟩, ⟨b, hb, hlast⟩, -, -⟩ := @isRange_getRange ucmp inputs hne
  obtain ⟨-, -, hle, hge⟩ := @isRange_getRange ucmp more (List.ne_nil_of_mem (hsub a ha))
  have hfirst' := user_not_gt_of_internal (hfirst ▸ hle a (hsub a ha))
  have hlast' := user_not_gt_of_internal (hlast ▸ hge b (hsub b hb))
  refine ⟨KeyRange.not_before_iff.mpr ?_, KeyRange.not_before_iff.mpr ?_⟩
  · exact not_gt_trans (KeyRange.not_before_iff.mp h.1) hlast'
  · exact not_gt_trans hfirst' (KeyRange.not_before_iff.mp h.2)

end GapFree

section Selected

/-- The inputs of a compaction: files of a level, and all files of the next that meet them. -/
structure Selected (ucmp : Comparator) (v : Version Bytes) (level : Level)
    (inputs0 inputs1 : List TableFile) : Prop where
  nonempty : inputs0 ≠ []
  sublist : inputs0.Sublist (v.files level)
  next : inputs1 = (v.files (nextLevel level)).filter
    (overlaps ucmp (some (userHull ucmp inputs0).first) (some (userHull ucmp inputs0).last))

theorem nextLevel_val (hlevel : level.val + 1 < kNumLevels) :
    (nextLevel level).val = level.val + 1 := Nat.mod_eq_of_lt hlevel

theorem nextLevel_ne_zero (hlevel : level.val + 1 < kNumLevels) : nextLevel level ≠ 0 := by
  intro h
  have hval := congrArg Fin.val h
  rw [nextLevel_val hlevel] at hval
  exact Nat.succ_ne_zero _ hval

theorem inputsBetween_sublist (r : Bytes × Bytes) :
    (v.inputsBetween ucmp level r).Sublist (v.files level) := getOverlappingInputs_sublist _ _

/-- Whatever files of the level a compaction starts from, its inputs take in what they meet. -/
theorem selected_expandInputs (hlevel : level.val + 1 < kNumLevels) (hne : inputs0 ≠ [])
    (hsub : inputs0.Sublist (v.files level)) : Selected ucmp v level
      (v.expandInputs ucmp maxFileSize level inputs0).1
      (v.expandInputs ucmp maxFileSize level inputs0).2 := by
  have hnext : ∀ inputs, v.inputsBetween ucmp (nextLevel level) (getRange ucmp inputs) =
      (v.files (nextLevel level)).filter (overlaps ucmp (some (userHull ucmp inputs).first)
        (some (userHull ucmp inputs).last)) :=
    fun inputs => inputsBetween_deep (nextLevel_ne_zero hlevel) (getRange ucmp inputs)
  have hstart := Selected.mk hne hsub (hnext inputs0)
  rw [Version.expandInputs]
  split
  · exact hstart
  · simp only
    split
    · rename_i hgrows
      split
      · exact ⟨List.ne_nil_of_length_pos (Nat.zero_lt_of_lt hgrows.1), inputsBetween_sublist _, hnext _⟩
      · exact hstart
    · exact hstart

/-- Inputs that start without a gap get none. -/
theorem gapFree_expandInputs (hlevel : level.val + 1 < kNumLevels) (hne : inputs0 ≠ [])
    (hsub : inputs0.Sublist (v.files level))
    (hproper : ∀ l, ∀ f ∈ v.files l, f.range.Proper ucmp.internalCompare)
    (hgap : GapFree ucmp inputs0) : GapFree ucmp
      ((v.expandInputs ucmp maxFileSize level inputs0).1 ++
        (v.expandInputs ucmp maxFileSize level inputs0).2) := by
  have hmeetsNext : ∀ inputs, ∀ f, f ∈ v.inputsBetween ucmp (nextLevel level)
      (getRange ucmp inputs) ↔ f ∈ v.files (nextLevel level) ∧
        (userHull ucmp inputs).Meets ucmp.compare f.userRange := by
    intro inputs f
    rw [inputsBetween_deep (nextLevel_ne_zero hlevel), List.mem_filter]
    exact and_congr_right fun _ => overlaps_iff_meets
  obtain ⟨inputs1, hinputs1⟩ : ∃ inputs1, v.inputsBetween ucmp (nextLevel level)
    (getRange ucmp inputs0) = inputs1 := ⟨_, rfl⟩
  have hnext : ∀ f, f ∈ inputs1 ↔ f ∈ v.files (nextLevel level) ∧
      (userHull ucmp inputs0).Meets ucmp.compare f.userRange := fun f =>
    hinputs1 ▸ hmeetsNext inputs0 f
  have hstart : GapFree ucmp (inputs0 ++ inputs1) := by
    refine gapFree_of_meets (hgap.mono fun x hx => ?_) (by simp [hne]) fun f hf => ?_
    · obtain ⟨f, hf, rfl⟩ := List.mem_map.mp hx
      exact mem_userRanges (List.mem_append_left _ hf)
    · rcases List.mem_append.mp hf with hf | hf
      · exact meets_userHull hf (hproper level f (hsub.subset hf))
      · exact ((hnext f).mp hf).2
  rw [Version.expandInputs]
  simp only [hinputs1]
  split
  · exact hstart
  split
  · split
    · -- the files of the level in the whole range, which has no gap
      obtain ⟨q, hfills, hmeets, hexpanded⟩ := @inputsBetween_spec ucmp v level
        (userRanges (v.files level) ++ userRanges inputs1) (getRange2 ucmp inputs0 inputs1)
        (fun f hf => List.mem_append_left _ (mem_userRanges hf))
        (hstart.mono fun x hx => by
          rw [userRanges, List.map_append] at hx
          rcases List.mem_append.mp hx with hx | hx
          · obtain ⟨f, hf, rfl⟩ := List.mem_map.mp hx
            exact List.mem_append_left _ (mem_userRanges (hsub.subset hf))
          · exact List.mem_append_right _ hx)
      have hfilled := fills_filter hfills
      rw [← hexpanded] at hfilled
      obtain ⟨expanded0, heq⟩ : ∃ expanded0, v.inputsBetween ucmp level
        (getRange2 ucmp inputs0 inputs1) = expanded0 := ⟨_, rfl⟩
      rw [heq] at hexpanded hfilled ⊢
      have hexpandedMeets : ∀ f ∈ expanded0, q.Meets ucmp.compare f.userRange := by
        intro f hf
        rw [hexpanded] at hf
        exact overlaps_iff_meets.mp (List.mem_filter.mp hf).2
      have hinputs0 : ∀ f ∈ inputs0, f ∈ expanded0 := by
        intro f hf
        rw [hexpanded]
        refine List.mem_filter.mpr ⟨hsub.subset hf, overlaps_iff_meets.mpr (hmeets _ ?_)⟩
        exact meets_userHull (List.mem_append_left _ hf) (hproper level f (hsub.subset hf))
      have hne' : expanded0 ≠ [] := by
        obtain ⟨a, ha⟩ := List.exists_mem_of_ne_nil inputs0 hne
        exact List.ne_nil_of_mem (hinputs0 a ha)
      obtain ⟨expanded1, hexpanded1⟩ : ∃ expanded1, v.inputsBetween ucmp (nextLevel level)
        (getRange ucmp expanded0) = expanded1 := ⟨_, rfl⟩
      have hnext' : ∀ f, f ∈ expanded1 ↔ f ∈ v.files (nextLevel level) ∧
          (userHull ucmp expanded0).Meets ucmp.compare f.userRange := fun f =>
        hexpanded1 ▸ hmeetsNext expanded0 f
      rw [hexpanded1]
      have hall : KeyRange.Fills ucmp.compare (userRanges (expanded0 ++ expanded1)) q := by
        refine hfilled.mono fun x hx => ?_
        rcases List.mem_append.mp hx with hx | hx
        · obtain ⟨f, hf, rfl⟩ := List.mem_map.mp hx
          exact mem_userRanges (List.mem_append_left _ hf)
        · obtain ⟨f, hf, rfl⟩ := List.mem_map.mp hx
          obtain ⟨hfile, hmeet⟩ := (hnext f).mp hf
          refine mem_userRanges (List.mem_append_right _ ((hnext' f).mpr ⟨hfile, ?_⟩))
          exact meets_userHull_mono hne hinputs0 hmeet
      obtain ⟨⟨a, ha, hfirst⟩, ⟨b, hb, hlast⟩, -, -⟩ := @isRange_getRange ucmp expanded0 hne'
      have hgrow := hall.grow (mem_userRanges (List.mem_append_left _ ha)) (hexpandedMeets a ha)
        (mem_userRanges (List.mem_append_left _ hb)) (hexpandedMeets b hb)
      refine @gapFree_of_meets ucmp _ (userHull ucmp expanded0) ?_ (by simp [hne']) fun f hf => ?_
      · rw [userHull, ← hfirst, ← hlast]
        exact hgrow
      · rcases List.mem_append.mp hf with hf | hf
        · refine meets_userHull hf (hproper level f ?_)
          rw [hexpanded] at hf
          exact (List.mem_filter.mp hf).1
        · exact ((hnext' f).mp hf).2
    · exact hstart
  · exact hstart

end Selected

end WiscKey
