import WiscKey.Beyond.Region
import Mathlib.Algebra.Order.Group.Int
import Mathlib.Tactic.Ring

/-!
# Intervals of written LBAs

The nodes of a tree, in order, are intervals one behind the other. Writing an interval removes it
from them: of each node the parts in front of it and behind it are left, and they keep their
places.
-/

namespace WiscKey.Beyond

namespace Extent

/-- The extent has the LBA. -/
def Covers (e : Extent) (x : Int) : Prop := e.lba ≤ x ∧ x < e.lba + e.length

/-- The block and the linear address of an LBA of the extent. -/
def place (maxSubPage : Int) (e : Extent) (x : Int) : Int × Int :=
  (e.blockAddr, e.pageAddr * maxSubPage + e.subPageOff + (x - e.lba))

/-- The extent has no LBA of the interval. -/
def Clear (lba len : Int) (e : Extent) : Prop := e.lba + e.length ≤ lba ∨ lba + len ≤ e.lba

instance (lba len : Int) (e : Extent) : Decidable (e.Clear lba len) :=
  inferInstanceAs (Decidable (_ ∨ _))

/-- What is left of an extent without an interval. -/
def without (maxSubPage lba len : Int) (e : Extent) : List Extent :=
  if e.Clear lba len then [e]
  else
    (if e.lba < lba then [e.take (lba - e.lba)] else []) ++
      if lba + len < e.lba + e.length then [e.drop maxSubPage (lba + len - e.lba)] else []

variable {maxSubPage lba len x : Int} {e f : Extent}

@[simp] theorem lba_take (n : Int) : (e.take n).lba = e.lba := rfl

@[simp] theorem length_take (n : Int) : (e.take n).length = n := rfl

@[simp] theorem lba_drop (n : Int) : (e.drop maxSubPage n).lba = e.lba + n := rfl

@[simp] theorem length_drop (n : Int) : (e.drop maxSubPage n).length = e.length - n := rfl

theorem place_take (n : Int) : (e.take n).place maxSubPage x = e.place maxSubPage x := rfl

/-- The page and the offset behind the first LBAs are carried over without a change of place. -/
theorem place_drop (n : Int) : (e.drop maxSubPage n).place maxSubPage x = e.place maxSubPage x := by
  simp only [place, drop, Prod.mk.injEq, true_and]
  ring

theorem without_of_clear (h : e.Clear lba len) : e.without maxSubPage lba len = [e] := if_pos h

/-- What is left of an extent is part of it, and clear of the interval. -/
theorem mem_without (he : 0 < e.length) (h : f ∈ e.without maxSubPage lba len) :
    0 < f.length ∧ e.lba ≤ f.lba ∧ f.lba + f.length ≤ e.lba + e.length ∧ f.Clear lba len ∧
      ∀ x, f.place maxSubPage x = e.place maxSubPage x := by
  unfold without at h
  split at h
  · rename_i hclear
    obtain rfl := List.mem_singleton.mp h
    exact ⟨he, le_rfl, le_rfl, hclear, fun _ => rfl⟩
  · rename_i hclear
    rw [Clear, not_or] at hclear
    rcases List.mem_append.mp h with h | h
    · split at h
      · obtain rfl := List.mem_singleton.mp h
        refine ⟨?_, le_rfl, ?_, .inl ?_, fun x => place_take _⟩
        all_goals simp only [lba_take, length_take]
        all_goals omega
      · exact absurd h List.not_mem_nil
    · split at h
      · obtain rfl := List.mem_singleton.mp h
        refine ⟨?_, ?_, ?_, .inr ?_, fun x => place_drop _⟩
        all_goals simp only [lba_drop, length_drop]
        all_goals omega
      · exact absurd h List.not_mem_nil

/-- The LBAs outside of the interval are left. -/
theorem exists_mem_without (h : e.Covers x) (hx : x < lba ∨ lba + len ≤ x) :
    ∃ f ∈ e.without maxSubPage lba len, f.Covers x := by
  unfold Covers at h
  unfold without
  split
  · exact ⟨e, List.mem_singleton_self e, h⟩
  · rcases hx with hx | hx
    · rw [if_pos (by omega)]
      refine ⟨e.take (lba - e.lba), by simp, ?_⟩
      simp only [Covers, lba_take, length_take]
      omega
    · rw [if_pos (by omega : lba + len < e.lba + e.length)]
      refine ⟨e.drop maxSubPage (lba + len - e.lba), by simp, ?_⟩
      simp only [Covers, lba_drop, length_drop]
      omega

/-- The part in front of the interval is in front of the part behind it. -/
theorem pairwise_without (hlen : 0 ≤ len) :
    (e.without maxSubPage lba len).Pairwise fun a b => a.lba + a.length ≤ b.lba := by
  unfold without
  split
  · exact List.pairwise_singleton ..
  · refine List.pairwise_append.mpr ⟨?_, ?_, fun a ha b hb => ?_⟩
    · split
      · exact List.pairwise_singleton ..
      · exact List.Pairwise.nil
    · split
      · exact List.pairwise_singleton ..
      · exact List.Pairwise.nil
    · split at ha
      · split at hb
        · rw [List.mem_singleton.mp ha, List.mem_singleton.mp hb]
          simp only [lba_take, length_take, lba_drop]
          omega
        · exact absurd hb List.not_mem_nil
      · exact absurd ha List.not_mem_nil

/-- Only the middle of an extent splits it. -/
theorem length_without_le (h : lba ≤ e.lba ∨ e.lba + e.length ≤ lba + len) :
    (e.without maxSubPage lba len).length ≤ 1 := by
  unfold without
  split
  · exact le_rfl
  · rcases h with h | h
    · rw [if_neg (by omega : ¬ e.lba < lba)]
      split
      · exact le_rfl
      · exact Nat.zero_le 1
    · rw [if_neg (by omega : ¬ lba + len < e.lba + e.length)]
      split
      · exact le_rfl
      · exact Nat.zero_le 1

end Extent

/-- Intervals one behind the other, none of them empty. -/
structure Apart (l : List Extent) : Prop where
  positive : ∀ e ∈ l, 0 < e.length
  sorted : l.Pairwise fun a b => a.lba + a.length ≤ b.lba

/-- The extents without an interval. -/
def removed (maxSubPage lba len : Int) (l : List Extent) : List Extent :=
  l.flatMap (Extent.without maxSubPage lba len)

section Removed

variable {maxSubPage lba len x : Int} {e f : Extent} {l xs ys : List Extent}

theorem apart_append : Apart (xs ++ ys) ↔
    Apart xs ∧ Apart ys ∧ ∀ e ∈ xs, ∀ f ∈ ys, e.lba + e.length ≤ f.lba := by
  constructor
  · rintro ⟨hpos, hsorted⟩
    obtain ⟨hxs, hys, hcross⟩ := List.pairwise_append.mp hsorted
    exact ⟨⟨fun e he => hpos e (List.mem_append_left _ he), hxs⟩,
      ⟨fun e he => hpos e (List.mem_append_right _ he), hys⟩, hcross⟩
  · rintro ⟨hxs, hys, hcross⟩
    refine ⟨fun e he => ?_, List.pairwise_append.mpr ⟨hxs.sorted, hys.sorted, hcross⟩⟩
    rcases List.mem_append.mp he with he | he
    · exact hxs.positive e he
    · exact hys.positive e he

theorem apart_cons : Apart (e :: l) ↔
    0 < e.length ∧ Apart l ∧ ∀ f ∈ l, e.lba + e.length ≤ f.lba := by
  have happend : Apart ([e] ++ l) ↔ _ := apart_append
  rw [List.singleton_append] at happend
  rw [happend]
  constructor
  · rintro ⟨he, hl, hcross⟩
    exact ⟨he.positive e (List.mem_singleton_self e), hl, hcross e (List.mem_singleton_self e)⟩
  · rintro ⟨he, hl, hcross⟩
    refine ⟨⟨fun f hf => ?_, List.pairwise_singleton ..⟩, hl, fun f hf => ?_⟩
    · rwa [List.mem_singleton.mp hf]
    · rwa [List.mem_singleton.mp hf]

@[simp] theorem removed_nil : removed maxSubPage lba len [] = [] := rfl

@[simp] theorem removed_append : removed maxSubPage lba len (xs ++ ys) =
    removed maxSubPage lba len xs ++ removed maxSubPage lba len ys := List.flatMap_append

@[simp] theorem removed_cons : removed maxSubPage lba len (e :: l) =
    e.without maxSubPage lba len ++ removed maxSubPage lba len l := List.flatMap_cons

theorem mem_removed : f ∈ removed maxSubPage lba len l ↔
    ∃ e ∈ l, f ∈ e.without maxSubPage lba len := List.mem_flatMap

/-- Extents that are clear of the interval stay. -/
theorem removed_of_clear (h : ∀ e ∈ l, e.Clear lba len) : removed maxSubPage lba len l = l := by
  induction l with
  | nil => rfl
  | cons e l ih =>
    rw [removed_cons, Extent.without_of_clear (h e List.mem_cons_self),
      ih fun f hf => h f (List.mem_cons_of_mem _ hf)]
    rfl

/-- Removing an interval leaves extents that are apart from each other and from others. -/
theorem Apart.removed_middle (h : Apart (xs ++ (l ++ ys))) (hlen : 0 ≤ len) :
    Apart (xs ++ (removed maxSubPage lba len l ++ ys)) := by
  obtain ⟨hxs, hrest, hxl⟩ := apart_append.mp h
  obtain ⟨hl, hys, hly⟩ := apart_append.mp hrest
  have hpart : ∀ f ∈ removed maxSubPage lba len l, ∃ e ∈ l, 0 < f.length ∧ e.lba ≤ f.lba ∧
      f.lba + f.length ≤ e.lba + e.length := by
    intro f hf
    obtain ⟨e, he, hfe⟩ := mem_removed.mp hf
    obtain ⟨hpos, hle, hge, -⟩ := Extent.mem_without (hl.positive e he) hfe
    exact ⟨e, he, hpos, hle, hge⟩
  refine apart_append.mpr ⟨hxs, apart_append.mpr ⟨⟨fun f hf => ?_, ?_⟩, hys, fun f hf y hy => ?_⟩,
    fun x hx f hf => ?_⟩
  · obtain ⟨e, -, hpos, -⟩ := hpart f hf
    exact hpos
  · refine List.pairwise_flatMap.mpr ⟨fun e _ => Extent.pairwise_without hlen, ?_⟩
    refine hl.sorted.imp_of_mem fun {a b} ha hb hab f hf f' hf' => ?_
    obtain ⟨-, -, hge, -⟩ := Extent.mem_without (hl.positive a ha) hf
    obtain ⟨-, hle, -⟩ := Extent.mem_without (hl.positive b hb) hf'
    omega
  · obtain ⟨e, he, -, -, hge⟩ := hpart f hf
    exact hge.trans (hly e he y hy)
  · rcases List.mem_append.mp hf with hf | hf
    · obtain ⟨e, he, -, hle, -⟩ := hpart f hf
      exact (hxl x hx e (List.mem_append_left _ he)).trans hle
    · exact hxl x hx f (List.mem_append_right _ hf)

theorem Apart.removed (h : Apart l) (hlen : 0 ≤ len) : Apart (removed maxSubPage lba len l) := by
  have hmiddle := @Apart.removed_middle maxSubPage lba len l [] [] (by simpa using h) hlen
  simpa using hmiddle

/-- What was removed once is gone. -/
theorem Apart.clear_of_mem_removed (h : Apart l) (hf : f ∈ Beyond.removed maxSubPage lba len l) :
    f.Clear lba len := by
  obtain ⟨e, he, hfe⟩ := mem_removed.mp hf
  exact (Extent.mem_without (h.positive e he) hfe).2.2.2.1

/-- Without an extent that has more LBAs on both sides of the interval, there are not more extents
than before. -/
theorem length_removed_le (h : ∀ e ∈ l, lba ≤ e.lba ∨ e.lba + e.length ≤ lba + len) :
    (removed maxSubPage lba len l).length ≤ l.length := by
  induction l with
  | nil => exact le_rfl
  | cons e l ih =>
    rw [removed_cons, List.length_append, List.length_cons]
    have hhead := @Extent.length_without_le maxSubPage _ _ _ (h e List.mem_cons_self)
    have htail := ih fun f hf => h f (List.mem_cons_of_mem _ hf)
    omega

/-- The extents around one are clear of any interval inside of it. -/
theorem Apart.clear_inside (h : Apart (xs ++ e :: ys)) (hfirst : e.lba ≤ lba)
    (hlast : lba + len ≤ e.lba + e.length) (hf : f ∈ xs ++ ys) : f.Clear lba len := by
  obtain ⟨-, hrest, hcross⟩ := apart_append.mp h
  rcases List.mem_append.mp hf with hf | hf
  · have hle := hcross f hf e List.mem_cons_self
    exact .inl (by omega)
  · have hle := (apart_cons.mp hrest).2.2 f hf
    exact .inr (by omega)

/-- An extent can be shortened. -/
theorem Apart.take (h : Apart (xs ++ e :: ys)) {n : Int} (hpos : 0 < n) (hle : n ≤ e.length) :
    Apart (xs ++ e.take n :: ys) := by
  obtain ⟨hxs, hrest, hcross⟩ := apart_append.mp h
  obtain ⟨-, hys, hbehind⟩ := apart_cons.mp hrest
  refine apart_append.mpr ⟨hxs, apart_cons.mpr ⟨hpos, hys, fun f hf => ?_⟩, fun f hf y hy => ?_⟩
  · have hlast := hbehind f hf
    rw [Extent.lba_take, Extent.length_take]
    omega
  · rcases List.mem_cons.mp hy with rfl | hy
    · exact hcross f hf e List.mem_cons_self
    · exact hcross f hf y (List.mem_cons_of_mem _ hy)

/-- An extent can be left out. -/
theorem Apart.erase (h : Apart (xs ++ e :: ys)) : Apart (xs ++ ys) := by
  obtain ⟨hxs, hrest, hcross⟩ := apart_append.mp h
  obtain ⟨-, hys, -⟩ := apart_cons.mp hrest
  exact apart_append.mpr ⟨hxs, hys, fun f hf y hy => hcross f hf y (List.mem_cons_of_mem _ hy)⟩

/-- The extents that are all removed do not begin in front of the interval. -/
theorem le_lba_of_removed_eq_nil (h : removed maxSubPage lba len l = []) (he : e ∈ l) :
    lba ≤ e.lba := by
  have hnil := List.flatMap_eq_nil_iff.mp h e he
  by_contra hlt
  unfold Extent.without at hnil
  split at hnil
  · exact absurd hnil (List.cons_ne_nil _ _)
  · rw [if_pos (by omega)] at hnil
    exact absurd hnil (List.cons_ne_nil _ _)

/-- Nor do they end behind it. -/
theorem Apart.end_le_of_removed_eq_nil (hl : Apart l)
    (h : Beyond.removed maxSubPage lba len l = []) (he : e ∈ l) :
    e.lba + e.length ≤ lba + len := by
  have hnil := List.flatMap_eq_nil_iff.mp h e he
  have hpos := hl.positive e he
  by_contra hlt
  unfold Extent.without at hnil
  split at hnil
  · exact absurd hnil (List.cons_ne_nil _ _)
  · rw [if_pos (by omega : lba + len < e.lba + e.length)] at hnil
    exact absurd hnil (by simp)

/-- An interval that ends in front of the end of an extent leaves those behind it. -/
theorem Apart.removed_front (h : Apart (xs ++ e :: ys)) (hp : lba + len ≤ e.lba + e.length) :
    Beyond.removed maxSubPage lba len (xs ++ e :: ys) =
      Beyond.removed maxSubPage lba len xs ++ (e.without maxSubPage lba len ++ ys) := by
  have hys : Beyond.removed maxSubPage lba len ys = ys := by
    refine removed_of_clear fun f hf => ?_
    have hle := (apart_cons.mp (apart_append.mp h).2.1).2.2 f hf
    exact .inr (by omega)
  rw [removed_append, removed_cons, hys]

/-- An interval that begins behind the beginning of an extent leaves those in front of it. -/
theorem Apart.removed_behind (h : Apart (xs ++ e :: ys)) (hp : e.lba ≤ lba) :
    Beyond.removed maxSubPage lba len (xs ++ e :: ys) =
      xs ++ (e.without maxSubPage lba len ++ Beyond.removed maxSubPage lba len ys) := by
  have hxs : Beyond.removed maxSubPage lba len xs = xs := by
    refine removed_of_clear fun f hf => ?_
    have hle := (apart_append.mp h).2.2 f hf e List.mem_cons_self
    exact .inl (by omega)
  rw [removed_append, removed_cons, hxs]

/-- An interval inside of an extent leaves all others. -/
theorem Apart.removed_inside (h : Apart (xs ++ e :: ys)) (hfirst : e.lba ≤ lba)
    (hlast : lba + len ≤ e.lba + e.length) :
    Beyond.removed maxSubPage lba len (xs ++ e :: ys) =
      xs ++ (e.without maxSubPage lba len ++ ys) := by
  have hxs : Beyond.removed maxSubPage lba len xs = xs :=
    removed_of_clear fun f hf => h.clear_inside hfirst hlast (List.mem_append_left _ hf)
  rw [h.removed_front hlast, hxs]

/-- Extents that are clear of an interval are in front of it or behind it. -/
theorem Apart.split (h : Apart l) (hclear : ∀ e ∈ l, e.Clear lba len) :
    ∃ xs ys, l = xs ++ ys ∧ (∀ f ∈ xs, f.lba + f.length ≤ lba) ∧ ∀ f ∈ ys, lba + len ≤ f.lba := by
  induction l with
  | nil => exact ⟨[], [], rfl, by simp, by simp⟩
  | cons e l ih =>
    obtain ⟨hpos, hl, hbehind⟩ := apart_cons.mp h
    rcases hclear e List.mem_cons_self with hfront | hback
    · obtain ⟨xs, ys, rfl, hxs, hys⟩ := ih hl fun f hf => hclear f (List.mem_cons_of_mem _ hf)
      refine ⟨e :: xs, ys, rfl, fun f hf => ?_, hys⟩
      rcases List.mem_cons.mp hf with rfl | hf
      · exact hfront
      · exact hxs f hf
    · refine ⟨[], e :: l, rfl, by simp, fun f hf => ?_⟩
      rcases List.mem_cons.mp hf with rfl | hf
      · exact hback
      · have hle := hbehind f hf
        omega

end Removed

end WiscKey.Beyond
