import WiscKey.Library.Cursor
import Mathlib.Data.List.Find

/-!
# Sorted unions

The union of increasing lists that have no elements in common. The first element of the union that
meets an upward closed condition is the least of the first ones of the lists, and the other lists go
on behind it.
-/

namespace WiscKey

variable {α : Type}

/-- No element of a list compares equal to one of another list. -/
def PairwiseDistinct (cmp : α → α → Ordering) (lists : List (List α)) : Prop :=
  lists.Pairwise fun l l' => ∀ a ∈ l, ∀ b ∈ l', cmp a b ≠ .eq

/-- The elements of all lists in increasing order. -/
def sortedUnion (cmp : α → α → Ordering) (lists : List (List α)) : List α :=
  lists.flatten.foldr (insertOrdered cmp) []

/-- The increasing list of the elements of increasing lists. -/
structure IsSortedUnion (cmp : α → α → Ordering) (lists : List (List α)) (union : List α) :
    Prop where
  increasing : Increasing cmp union
  mem : ∀ a, a ∈ union ↔ ∃ l ∈ lists, a ∈ l
  parts : ∀ l ∈ lists, Increasing cmp l

/-- What is not in front of an element that meets the condition meets it too. -/
def UpwardClosed (cmp : α → α → Ordering) (p : α → Bool) : Prop :=
  ∀ a b, p a = true → cmp a b ≠ .gt → p b = true

variable {cmp : α → α → Ordering} {lists : List (List α)} {union l : List α} {p : α → Bool}
  {a b e : α}

theorem PairwiseDistinct.ne [Std.TransCmp cmp] (h : PairwiseDistinct cmp lists) {i j : Nat}
    (hij : i ≠ j) {l l' : List α} (hl : lists[i]? = some l) (hl' : lists[j]? = some l') (ha : a ∈ l)
    (hb : b ∈ l') : cmp a b ≠ .eq := by
  obtain ⟨hi, rfl⟩ := List.getElem?_eq_some_iff.mp hl
  obtain ⟨hj, rfl⟩ := List.getElem?_eq_some_iff.mp hl'
  rcases Nat.lt_or_gt_of_ne hij with hlt | hgt
  · exact List.pairwise_iff_getElem.mp h i j hi hj hlt a ha b hb
  · intro heq
    exact List.pairwise_iff_getElem.mp h j i hj hi hgt b hb a ha (Std.OrientedCmp.eq_symm heq)

/-- Lists read backward have no elements in common either. -/
theorem PairwiseDistinct.reverse [Std.TransCmp cmp] (h : PairwiseDistinct cmp lists) :
    PairwiseDistinct (fun a b => cmp b a) (lists.map List.reverse) := by
  rw [PairwiseDistinct, List.pairwise_map]
  refine h.imp fun hne a ha b hb heq => ?_
  exact hne a (List.mem_reverse.mp ha) b (List.mem_reverse.mp hb) (Std.OrientedCmp.eq_symm heq)

/-- Read backward, the union is that of the lists read backward. -/
theorem IsSortedUnion.reverse (h : IsSortedUnion cmp lists union) :
    IsSortedUnion (fun a b => cmp b a) (lists.map List.reverse) union.reverse := by
  refine ⟨List.pairwise_reverse.mpr h.increasing, fun a => ?_, fun l hl => ?_⟩
  · rw [List.mem_reverse, h.mem]
    constructor
    · rintro ⟨l, hl, ha⟩
      exact ⟨l.reverse, List.mem_map_of_mem hl, List.mem_reverse.mpr ha⟩
    · rintro ⟨l, hl, ha⟩
      obtain ⟨l', hl', rfl⟩ := List.mem_map.mp hl
      exact ⟨l', hl', List.mem_reverse.mp ha⟩
  · obtain ⟨l', hl', rfl⟩ := List.mem_map.mp hl
    exact List.pairwise_reverse.mpr (h.parts l' hl')

/-- If no list has an element that meets the condition, the union has none. -/
theorem IsSortedUnion.find?_eq_none (h : IsSortedUnion cmp lists union)
    (hnone : ∀ l ∈ lists, l.find? p = none) : union.find? p = none := by
  rw [List.find?_eq_none]
  intro b hb
  obtain ⟨l, hl, hbl⟩ := (h.mem b).mp hb
  exact List.find?_eq_none.mp (hnone l hl) b hbl

section Order

variable [Std.TransCmp cmp]

/-- The sorted union of lists with no elements in common. -/
theorem isSortedUnion (hparts : ∀ l ∈ lists, Increasing cmp l)
    (hdistinct : PairwiseDistinct cmp lists) :
    IsSortedUnion cmp lists (sortedUnion cmp lists) := by
  have hne : lists.flatten.Pairwise fun a b => cmp a b ≠ .eq := by
    refine List.pairwise_flatten.mpr ⟨fun l hl => (hparts l hl).imp fun hlt => ?_, hdistinct⟩
    rw [hlt]
    exact Ordering.noConfusion
  have hfold : ∀ l : List α, (l.Pairwise fun a b => cmp a b ≠ .eq) →
      Increasing cmp (l.foldr (insertOrdered cmp) []) ∧
        ∀ a, a ∈ l.foldr (insertOrdered cmp) [] ↔ a ∈ l := by
    intro l hl
    induction l with
    | nil => exact ⟨.nil, fun a => Iff.rfl⟩
    | cons a l ih =>
      obtain ⟨hfirst, hrest⟩ := List.pairwise_cons.mp hl
      obtain ⟨hinc, hmem⟩ := ih hrest
      refine ⟨increasing_insertOrdered hinc, fun b => ?_⟩
      rw [List.foldr_cons, mem_insertOrdered_iff fun c hc heq =>
        absurd heq (hfirst c ((hmem c).mp hc)), List.mem_cons, hmem]
  obtain ⟨hinc, hmem⟩ := hfold _ hne
  exact ⟨hinc, fun a => (hmem a).trans List.mem_flatten, hparts⟩

/-- Lists with no elements in common are merged one by one. -/
theorem isSortedUnion_foldl (hparts : ∀ l ∈ lists, Increasing cmp l)
    (hdistinct : PairwiseDistinct cmp lists) :
    IsSortedUnion cmp lists (lists.foldl (mergeOrdered cmp) []) := by
  have hfold : ∀ (lists : List (List α)) (base : List α), (∀ l ∈ lists, Increasing cmp l) →
      PairwiseDistinct cmp (base :: lists) → Increasing cmp base →
      Increasing cmp (lists.foldl (mergeOrdered cmp) base) ∧
        ∀ a, a ∈ lists.foldl (mergeOrdered cmp) base ↔ a ∈ base ∨ ∃ l ∈ lists, a ∈ l := by
    intro lists
    induction lists with
    | nil => exact fun base _ _ hbase => ⟨hbase, fun a => by simp⟩
    | cons l lists ih =>
      intro base hparts hdistinct hbase
      obtain ⟨hfirst, hrest⟩ := List.pairwise_cons.mp hdistinct
      obtain ⟨hl, hlists⟩ := List.pairwise_cons.mp hrest
      have hmerge := increasing_mergeOrdered hbase (hparts l List.mem_cons_self)
        fun a ha b hb heq => hfirst l List.mem_cons_self b hb a ha (Std.OrientedCmp.eq_symm heq)
      have hrest' : PairwiseDistinct cmp (mergeOrdered cmp base l :: lists) := by
        refine List.pairwise_cons.mpr ⟨fun l' hl' a ha b hb => ?_, hlists⟩
        rcases mem_mergeOrdered.mp ha with ha | ha
        · exact hfirst l' (List.mem_cons_of_mem _ hl') a ha b hb
        · exact hl l' hl' a ha b hb
      obtain ⟨hinc, hmem⟩ := ih (mergeOrdered cmp base l)
        (fun l' hl' => hparts l' (List.mem_cons_of_mem _ hl')) hrest' hmerge
      refine ⟨hinc, fun a => ?_⟩
      rw [List.foldl_cons, hmem, mem_mergeOrdered, or_assoc]
      simp only [List.mem_cons, exists_eq_or_imp]
  obtain ⟨hinc, hmem⟩ := hfold lists [] hparts
    (List.pairwise_cons.mpr ⟨fun l _ a ha => absurd ha List.not_mem_nil, hdistinct⟩)
    List.Pairwise.nil
  exact ⟨hinc, fun a => (hmem a).trans (by simp), hparts⟩

/-- The first element that meets a condition is not behind another one that does. -/
theorem Increasing.find?_not_gt (hl : Increasing cmp l) (hfind : l.find? p = some b) (ha : a ∈ l)
    (hp : p a = true) : cmp b a ≠ .gt := by
  obtain ⟨-, front, back, rfl, hfront⟩ := List.find?_eq_some_iff_append.mp hfind
  rcases List.mem_append.mp ha with ha | ha
  · exact absurd hp (by simpa using hfront a ha)
  · rcases List.mem_cons.mp ha with rfl | ha
    · exact not_gt_self
    · rw [(List.pairwise_cons.mp (List.pairwise_append.mp hl).2.1).1 a ha]
      exact Ordering.noConfusion

/-- The least of the first elements of the lists is the first of the union. -/
theorem IsSortedUnion.find?_eq_some (h : IsSortedUnion cmp lists union) (hl : l ∈ lists)
    (he : e ∈ l) (hp : p e = true)
    (hleast : ∀ l ∈ lists, ∀ b, l.find? p = some b → cmp b e ≠ .lt) : union.find? p = some e := by
  refine h.increasing.find?_eq_some ((h.mem e).mpr ⟨l, hl, he⟩) hp fun b hb hpb hlt => ?_
  obtain ⟨l', hl', hbl'⟩ := (h.mem b).mp hb
  obtain ⟨b', hb'⟩ : ∃ b', l'.find? p = some b' :=
    Option.isSome_iff_exists.mp (List.find?_isSome.mpr ⟨b, hbl', hpb⟩)
  exact hleast l' hl' b' hb' (lt_of_not_gt_of_lt ((h.parts l' hl').find?_not_gt hb' hbl' hpb) hlt)

/-- Behind the least of the first elements, another list has the same first element as before. -/
theorem Increasing.find?_behind (hl : Increasing cmp l) (hup : UpwardClosed cmp p) (hp : p e = true)
    (hleast : ∀ b, l.find? p = some b → cmp b e ≠ .lt) (hne : ∀ b ∈ l, cmp e b ≠ .eq) :
    l.find? p = l.find? fun b => cmp e b = .lt := by
  refine List.find?_congr fun b hb => ?_
  rw [Bool.eq_iff_iff, decide_eq_true_iff]
  constructor
  · intro hpb
    obtain ⟨b', hb'⟩ : ∃ b', l.find? p = some b' :=
      Option.isSome_iff_exists.mp (List.find?_isSome.mpr ⟨b, hb, hpb⟩)
    refine lt_of_not_gt_of_ne ?_ (hne b hb)
    exact not_gt_trans (not_gt_iff_not_lt.mpr (hleast b' hb')) (hl.find?_not_gt hb' hb hpb)
  · intro hlt
    refine hup e b hp ?_
    rw [hlt]
    exact Ordering.noConfusion

end Order

end WiscKey
