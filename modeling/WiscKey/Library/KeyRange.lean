import WiscKey.Library.OrderedSet

/-!
# Ranges of keys

Closed ranges over a three-way comparison, and ranges that others fill without a gap. What meets
none of the ranges that fill a range is on one side of it.
-/

namespace WiscKey

variable {κ : Type}

/-- The keys from a first one to a last one. -/
structure KeyRange (κ : Type) where
  first : κ
  last : κ
  deriving DecidableEq

namespace KeyRange

variable (cmp : κ → κ → Ordering)

/-- The key is in the range. -/
def Has (r : KeyRange κ) (k : κ) : Prop := cmp r.first k ≠ .gt ∧ cmp k r.last ≠ .gt

/-- The range ends before the other one begins. -/
def Before (r r' : KeyRange κ) : Prop := cmp r.last r'.first = .lt

instance (r r' : KeyRange κ) : Decidable (Before cmp r r') :=
  inferInstanceAs (Decidable (cmp r.last r'.first = .lt))

/-- Neither range is before the other. -/
def Meets (r r' : KeyRange κ) : Prop := ¬ Before cmp r r' ∧ ¬ Before cmp r' r

/-- The range is not empty. -/
def Proper (r : KeyRange κ) : Prop := cmp r.first r.last ≠ .gt

/-- Every key of the range is in one of the others. -/
def Fills (rs : List (KeyRange κ)) (r : KeyRange κ) : Prop :=
  ∀ k, r.Has cmp k → ∃ r' ∈ rs, r'.Has cmp k

variable {cmp} {r r' : KeyRange κ} {rs rs' : List (KeyRange κ)}

theorem Meets.symm (h : Meets cmp r r') : Meets cmp r' r := ⟨h.2, h.1⟩

theorem Fills.mono (h : Fills cmp rs r) (hsub : ∀ x ∈ rs, x ∈ rs') : Fills cmp rs' r := by
  intro k hk
  obtain ⟨x, hx, hhas⟩ := h k hk
  exact ⟨x, hsub x hx, hhas⟩

variable [Std.TransCmp cmp]

theorem not_before_iff : ¬ Before cmp r r' ↔ cmp r'.first r.last ≠ .gt :=
  not_gt_iff_not_lt.symm

/-- A key in both of two ranges. -/
theorem meets_of_has {k : κ} (h : r.Has cmp k) (h' : r'.Has cmp k) : Meets cmp r r' :=
  ⟨not_before_iff.mpr (not_gt_trans h'.1 h.2), not_before_iff.mpr (not_gt_trans h.1 h'.2)⟩

/-- Two ranges that are not empty and meet have a key in common. -/
theorem Meets.exists_has (h : Meets cmp r r') (hr : r.Proper cmp) (hr' : r'.Proper cmp) :
    ∃ k, r.Has cmp k ∧ r'.Has cmp k := by
  have hfirst := not_before_iff.mp h.1
  have hfirst' := not_before_iff.mp h.2
  rcases eq_or_ne (cmp r.first r'.first) .gt with hgt | hle
  · refine ⟨r.first, ⟨not_gt_self, hr⟩, ?_, hfirst'⟩
    rw [Std.OrientedCmp.lt_of_gt hgt]
    exact Ordering.noConfusion
  · exact ⟨r'.first, ⟨hle, hfirst⟩, not_gt_self, hr'⟩

/-- A range around one that meets another meets it too. -/
theorem Meets.widen {q : KeyRange κ} (h : Meets cmp r r') (hfirst : cmp q.first r.first ≠ .gt)
    (hlast : cmp r.last q.last ≠ .gt) : Meets cmp q r' :=
  ⟨not_before_iff.mpr (not_gt_trans (not_before_iff.mp h.1) hlast),
    not_before_iff.mpr (not_gt_trans hfirst (not_before_iff.mp h.2))⟩

/-- What meets a range in front of another one, and not this one, is in front of it too. -/
theorem Before.of_meets {s : KeyRange κ} (h : Before cmp r s) (hmeets : Meets cmp r r')
    (hs : s.Proper cmp) (hapart : ¬ Meets cmp r' s) : Before cmp r' s := by
  by_contra hnot
  refine hapart ⟨hnot, fun hbehind => ?_⟩
  have hlt := Std.TransCmp.lt_trans (lt_of_lt_of_not_gt h hs) hbehind
  exact not_before_iff.mp hmeets.1 (Std.OrientedCmp.gt_of_lt hlt)

/-- And what meets a range behind it is behind. -/
theorem Before.of_meets_behind {s : KeyRange κ} (h : Before cmp s r) (hmeets : Meets cmp r r')
    (hs : s.Proper cmp) (hapart : ¬ Meets cmp r' s) : Before cmp s r' := by
  by_contra hnot
  refine hapart ⟨fun hbefore => ?_, hnot⟩
  have hlt := Std.TransCmp.lt_trans (lt_of_lt_of_not_gt hbefore hs) h
  exact not_before_iff.mp hmeets.2 (Std.OrientedCmp.gt_of_lt hlt)

/-- What meets none of the ranges that fill a range does not meet that range. -/
theorem Fills.not_meets (h : Fills cmp rs r) (hr : r.Proper cmp) (hr' : r'.Proper cmp)
    (hnone : ∀ x ∈ rs, ¬ Meets cmp x r') : ¬ Meets cmp r r' := by
  intro hmeets
  obtain ⟨k, hk, hk'⟩ := hmeets.exists_has hr hr'
  obtain ⟨x, hx, hxk⟩ := h k hk
  exact hnone x hx (meets_of_has hxk hk')

/-- A range that is filled grows by ranges that meet it, to the first key of one and to the last of
another. -/
theorem Fills.grow (h : Fills cmp rs r) {a b : KeyRange κ} (ha : a ∈ rs) (hmeetsA : Meets cmp r a)
    (hb : b ∈ rs) (hmeetsB : Meets cmp r b) : Fills cmp rs ⟨a.first, b.last⟩ := by
  rintro k ⟨hfirst, hlast⟩
  by_cases hfront : cmp r.first k = .gt
  · refine ⟨a, ha, hfirst, not_gt_trans ?_ (not_before_iff.mp hmeetsA.2)⟩
    rw [Std.OrientedCmp.lt_of_gt hfront]
    exact Ordering.noConfusion
  by_cases hback : cmp k r.last = .gt
  · refine ⟨b, hb, not_gt_trans (not_before_iff.mp hmeetsB.1) ?_, hlast⟩
    rw [Std.OrientedCmp.lt_of_gt hback]
    exact Ordering.noConfusion
  · exact h k ⟨hfront, hback⟩

/-- At the front alone. -/
theorem Fills.growFront (h : Fills cmp rs r) (hmem : r' ∈ rs) (hmeets : Meets cmp r r') :
    Fills cmp rs ⟨r'.first, r.last⟩ := by
  rintro k ⟨hfirst, hlast⟩
  by_cases hfront : cmp r.first k = .gt
  · refine ⟨r', hmem, hfirst, not_gt_trans ?_ (not_before_iff.mp hmeets.2)⟩
    rw [Std.OrientedCmp.lt_of_gt hfront]
    exact Ordering.noConfusion
  · exact h k ⟨hfront, hlast⟩

/-- At the end alone. -/
theorem Fills.growBack (h : Fills cmp rs r) (hmem : r' ∈ rs) (hmeets : Meets cmp r r') :
    Fills cmp rs ⟨r.first, r'.last⟩ := by
  rintro k ⟨hfirst, hlast⟩
  by_cases hback : cmp k r.last = .gt
  · refine ⟨r', hmem, not_gt_trans (not_before_iff.mp hmeets.1) ?_, hlast⟩
    rw [Std.OrientedCmp.lt_of_gt hback]
    exact Ordering.noConfusion
  · exact h k ⟨hfirst, hback⟩

end KeyRange

/-!
## Intervals and their closures

Closed intervals over a three-way comparison, where an end that is absent does not bound the
interval. The closure of an interval under ranges is the least interval around it that covers every
range it meets.
-/

/-- The keys from a first one to a last one, each of which can be absent. -/
structure Interval (κ : Type) where
  first : Option κ
  last : Option κ
  deriving DecidableEq

namespace Interval

variable (cmp : κ → κ → Ordering)

/-- The key is in the interval. -/
def Has (i : Interval κ) (k : κ) : Prop :=
  (∀ a ∈ i.first, cmp a k ≠ .gt) ∧ ∀ b ∈ i.last, cmp k b ≠ .gt

/-- The first key is not behind the last. -/
def Proper (i : Interval κ) : Prop := ∀ a ∈ i.first, ∀ b ∈ i.last, cmp a b ≠ .gt

/-- The range is neither in front of the interval nor behind it. -/
def Meets (i : Interval κ) (r : KeyRange κ) : Prop :=
  (∀ a ∈ i.first, cmp r.last a ≠ .lt) ∧ ∀ b ∈ i.last, cmp r.first b ≠ .gt

instance (i : Interval κ) (r : KeyRange κ) : Decidable (i.Meets cmp r) :=
  inferInstanceAs (Decidable (_ ∧ _))

/-- Both ends of the range are in the interval. -/
def Covers (i : Interval κ) (r : KeyRange κ) : Prop :=
  (∀ a ∈ i.first, cmp r.first a ≠ .lt) ∧ ∀ b ∈ i.last, cmp r.last b ≠ .gt

/-- The other interval begins no later and ends no earlier. -/
def Within (i j : Interval κ) : Prop :=
  (∀ a ∈ j.first, ∃ a' ∈ i.first, cmp a a' ≠ .gt) ∧ ∀ b ∈ j.last, ∃ b' ∈ i.last, cmp b' b ≠ .gt

/-- The interval covers what it meets. -/
def Absorbs (i : Interval κ) (rs : List (KeyRange κ)) : Prop :=
  ∀ r ∈ rs, i.Meets cmp r → i.Covers cmp r

/-- The least interval around one that covers what it meets. -/
structure IsClosure (rs : List (KeyRange κ)) (i j : Interval κ) : Prop where
  within : i.Within cmp j
  absorbs : j.Absorbs cmp rs
  least : ∀ j', i.Within cmp j' → j'.Absorbs cmp rs → j.Within cmp j'

variable {cmp} {i j : Interval κ} {r : KeyRange κ} {rs : List (KeyRange κ)} [Std.TransCmp cmp]

theorem Within.refl : i.Within cmp i :=
  ⟨fun a ha => ⟨a, ha, not_gt_self⟩, fun b hb => ⟨b, hb, not_gt_self⟩⟩

theorem Within.meets (h : i.Within cmp j) (hmeets : i.Meets cmp r) : j.Meets cmp r := by
  refine ⟨fun a ha => ?_, fun b hb => ?_⟩
  · obtain ⟨a', ha', hle⟩ := h.1 a ha
    exact not_gt_iff_not_lt.mp (not_gt_trans hle (not_gt_iff_not_lt.mpr (hmeets.1 a' ha')))
  · obtain ⟨b', hb', hle⟩ := h.2 b hb
    exact not_gt_trans (hmeets.2 b' hb') hle

theorem Within.proper (h : i.Within cmp j) (hproper : i.Proper cmp) : j.Proper cmp := by
  intro a ha b hb
  obtain ⟨a', ha', hle⟩ := h.1 a ha
  obtain ⟨b', hb', hle'⟩ := h.2 b hb
  exact not_gt_trans hle (not_gt_trans (hproper a' ha' b' hb') hle')

/-- Two closures of an interval meet the same ranges. -/
theorem IsClosure.meets_iff {j' : Interval κ} (h : IsClosure cmp rs i j)
    (h' : IsClosure cmp rs i j') : j.Meets cmp r ↔ j'.Meets cmp r :=
  ⟨(h.least j' h'.within h'.absorbs).meets, (h'.least j h.within h.absorbs).meets⟩

/-- An interval and a range that are not empty meet where they have a key in common. -/
theorem meets_iff_exists_has (hi : i.Proper cmp) (hr : r.Proper cmp) :
    i.Meets cmp r ↔ ∃ k, i.Has cmp k ∧ r.Has cmp k := by
  constructor
  · rintro ⟨hfirst, hlast⟩
    by_cases hbegins : ∀ a ∈ i.first, cmp a r.first ≠ .gt
    · exact ⟨r.first, ⟨hbegins, hlast⟩, not_gt_self, hr⟩
    · -- the interval begins inside the range
      push Not at hbegins
      obtain ⟨a, ha, hgt⟩ := hbegins
      refine ⟨a, ⟨fun a' ha' => ?_, hi a ha⟩, ?_, not_gt_iff_not_lt.mpr (hfirst a ha)⟩
      · rw [Option.mem_unique ha' ha]
        exact not_gt_self
      · rw [Std.OrientedCmp.lt_of_gt hgt]
        exact Ordering.noConfusion
  · rintro ⟨k, hk, hk'⟩
    refine ⟨fun a ha => not_gt_iff_not_lt.mp ?_, fun b hb => ?_⟩
    · exact not_gt_trans (hk.1 a ha) hk'.2
    · exact not_gt_trans hk'.1 (hk.2 b hb)

/-- An interval that grows to the first key of a range is within what absorbs the range. -/
theorem Within.growFront (h : i.Within cmp j) (hr : r ∈ rs) (hmeets : i.Meets cmp r)
    (habsorbs : j.Absorbs cmp rs) : Within cmp ⟨some r.first, i.last⟩ j := by
  refine ⟨fun a ha => ⟨r.first, rfl, not_gt_iff_not_lt.mpr ?_⟩, h.2⟩
  exact (habsorbs r hr (h.meets hmeets)).1 a ha

/-- And so is one that grows to the last key. -/
theorem Within.growBack (h : i.Within cmp j) (hr : r ∈ rs) (hmeets : i.Meets cmp r)
    (habsorbs : j.Absorbs cmp rs) : Within cmp ⟨i.first, some r.last⟩ j :=
  ⟨h.1, fun b hb => ⟨r.last, rfl, (habsorbs r hr (h.meets hmeets)).2 b hb⟩⟩

end Interval

end WiscKey
