import Mathlib.Data.Finset.Card
import Mathlib.Data.Finset.Range
import Mathlib.Data.Finset.Image

/-!
# Counting the cells of an array

The number of cells of an index set whose contents satisfy a predicate, and how
one store changes it.
-/

namespace WiscKey

/-- The integers from 0 up to `n`, as an index set. -/
def intRange (n : Nat) : Finset Int := (Finset.range n).map ⟨Int.ofNat, fun _ _ h => Int.ofNat.inj h⟩

@[simp] theorem mem_intRange {n : Nat} {i : Int} : i ∈ intRange n ↔ 0 ≤ i ∧ i < n := by
  simp only [intRange, Finset.mem_map, Finset.mem_range]
  constructor
  · rintro ⟨m, hm, rfl⟩
    exact ⟨Int.natCast_nonneg m, Int.ofNat_lt.mpr hm⟩
  · rintro ⟨h0, hn⟩
    exact ⟨i.toNat, by omega, Int.toNat_of_nonneg h0⟩

theorem mem_intRange_toNat {n i : Int} : i ∈ intRange n.toNat ↔ 0 ≤ i ∧ i < n := by
  rw [mem_intRange]
  omega

@[simp] theorem card_intRange (n : Nat) : (intRange n).card = n := by
  simp [intRange]

variable {ι α : Type} [DecidableEq ι]

/-- The number of indices of `s` where `f` holds a value satisfying `q`. -/
def countCells (s : Finset ι) (q : α → Prop) [DecidablePred q] (f : ι → α) : Nat :=
  (s.filter fun i => q (f i)).card

variable {s : Finset ι} {q : α → Prop} [DecidablePred q] {f : ι → α} {i : ι} {a : α}

/-- A store that keeps the cell's status keeps the count. -/
theorem countCells_update_of_iff (h : q a ↔ q (f i)) :
    countCells s q (Function.update f i a) = countCells s q f := by
  unfold countCells
  congr 1
  apply Finset.filter_congr
  intro j _
  by_cases hj : j = i
  · subst j
    simpa using h
  · rw [Function.update_of_ne hj]

/-- A store that makes the cell satisfy the predicate adds one. -/
theorem countCells_update_add (hi : i ∈ s) (hold : ¬ q (f i)) (hnew : q a) :
    countCells s q (Function.update f i a) = countCells s q f + 1 := by
  have he : (s.filter fun j => q (Function.update f i a j)) =
      insert i (s.filter fun j => q (f j)) := by
    ext j
    by_cases hj : j = i
    · subst j
      simp [hi, hnew]
    · simp [hj]
  unfold countCells
  rw [he, Finset.card_insert_of_notMem (by simp [hold])]

/-- A store that makes the cell leave the predicate takes one away. -/
theorem countCells_update_sub (hi : i ∈ s) (hold : q (f i)) (hnew : ¬ q a) :
    countCells s q (Function.update f i a) + 1 = countCells s q f := by
  have h : countCells s q (Function.update (Function.update f i a) i (f i)) =
      countCells s q (Function.update f i a) + 1 := countCells_update_add hi (by simpa) hold
  rw [Function.update_idem, Function.update_eq_self] at h
  exact h.symm

omit [DecidableEq ι] in
/-- Nothing counted means no cell satisfies the predicate. -/
theorem countCells_eq_zero : countCells s q f = 0 ↔ ∀ i ∈ s, ¬ q (f i) := by
  simp [countCells, Finset.filter_eq_empty_iff]

omit [DecidableEq ι] in
/-- Every cell is counted when all satisfy the predicate. -/
theorem countCells_eq_card (h : ∀ i ∈ s, q (f i)) : countCells s q f = s.card := by
  unfold countCells
  rw [Finset.filter_true_of_mem h]

omit [DecidableEq ι] in
/-- Cells counted once each by two predicates that exclude each other fill the index set. -/
theorem countCells_add_eq_card {r : α → Prop} [DecidablePred r]
    (h : ∀ i ∈ s, r (f i) ↔ ¬ q (f i)) : countCells s q f + countCells s r f = s.card := by
  unfold countCells
  rw [Finset.filter_congr h]
  exact Finset.card_filter_add_card_filter_not _

omit [DecidableEq ι] in
theorem countCells_le (s : Finset ι) (q : α → Prop) [DecidablePred q] (f : ι → α) :
    countCells s q f ≤ s.card :=
  Finset.card_filter_le _ _

end WiscKey
