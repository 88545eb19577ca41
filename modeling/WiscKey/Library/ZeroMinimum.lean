import Mathlib.Data.List.Basic
import Mathlib.Data.Nat.Basic
import Mathlib.Order.Lattice

/-!
# The search for a minimum that stops at a zero

A scan keeps the index of the least element so far, and stops at the first zero behind the first
element. What it returns is that zero, if there is one, and else the first of the least elements.
-/

namespace WiscKey

section Scan

variable {α : Type} (isZero : α → Bool) (lt : α → α → Bool)

/-- The scan from an index on, with the least element so far and its index. -/
def zeroMinimumFrom (least : α) (index : Nat) : Nat → List α → Nat
  | _, [] => index
  | c, x :: rest =>
    if isZero x then c
    else if lt x least then zeroMinimumFrom x c (c + 1) rest
    else zeroMinimumFrom least index (c + 1) rest

/-- The scan of a list. -/
def zeroMinimum : List α → Nat
  | [] => 0
  | x :: rest => zeroMinimumFrom isZero lt x 0 1 rest

/-- The scan goes by what the elements stand for. -/
theorem zeroMinimumFrom_map {β : Type} (f : β → α) (least : β) (index c : Nat) (rest : List β) :
    zeroMinimumFrom isZero lt (f least) index c (rest.map f) =
      zeroMinimumFrom (isZero ∘ f) (fun x y => lt (f x) (f y)) least index c rest := by
  induction rest generalizing least index c with
  | nil => rfl
  | cons x rest ih =>
    rw [List.map_cons, zeroMinimumFrom, zeroMinimumFrom, ih, ih]
    rfl

theorem zeroMinimum_map {β : Type} (f : β → α) (xs : List β) :
    zeroMinimum isZero lt (xs.map f) =
      zeroMinimum (isZero ∘ f) (fun x y => lt (f x) (f y)) xs := by
  cases xs with
  | nil => rfl
  | cons x rest => exact zeroMinimumFrom_map ..

end Scan

variable {α : Type} [LinearOrder α] [Zero α]

/-- The first of the least elements of a list without a zero behind its first element. -/
structure FirstLeast (xs : List α) (i : Nat) (m : α) : Prop where
  value_at : xs[i]? = some m
  nonzero : ∀ (j : Nat) (y : α), 0 < j → xs[j]? = some y → y ≠ 0
  first : ∀ (j : Nat) (y : α), j < i → xs[j]? = some y → m < y
  least : ∀ (j : Nat) (y : α), xs[j]? = some y → m ≤ y

/-- The first zero behind the first element of a list. -/
structure FirstZero (xs : List α) (i : Nat) (m : α) : Prop where
  value_at : xs[i]? = some m
  behind : 0 < i
  zero : m = 0
  first : ∀ (j : Nat) (y : α), 0 < j → j < i → xs[j]? = some y → y ≠ 0

/-- What the scan is to find. -/
def IsZeroMinimum (xs : List α) (i : Nat) (m : α) : Prop :=
  FirstZero xs i m ∨ FirstLeast xs i m

variable {xs : List α} {i j : Nat} {m n x : α}

/-- One more element, which is no zero. -/
theorem FirstLeast.concat (h : FirstLeast xs i m) (hx : x ≠ 0) :
    if x < m then FirstLeast (xs ++ [x]) xs.length x else FirstLeast (xs ++ [x]) i m := by
  have hi : i < xs.length := (List.getElem?_eq_some_iff.mp h.value_at).1
  have hget : ∀ {j y}, (xs ++ [x])[j]? = some y → xs[j]? = some y ∨ j = xs.length ∧ y = x := by
    intro j y hy
    rcases lt_trichotomy j xs.length with hlt | rfl | hgt
    · rw [List.getElem?_append_left hlt] at hy
      exact .inl hy
    · rw [List.getElem?_append_right le_rfl, Nat.sub_self] at hy
      exact .inr ⟨rfl, (Option.some.inj hy).symm⟩
    · rw [List.getElem?_eq_none (by simp; omega)] at hy
      cases hy
  have hnonzero : ∀ (j : Nat) (y : α), 0 < j → (xs ++ [x])[j]? = some y → y ≠ 0 := by
    intro j y hj hy
    rcases hget hy with hy | ⟨-, rfl⟩
    · exact h.nonzero j y hj hy
    · exact hx
  split
  · rename_i hlt
    refine ⟨by simp, hnonzero, fun j y hj hy => ?_, fun j y hy => ?_⟩
    · rcases hget hy with hy | ⟨rfl, -⟩
      · exact hlt.trans_le (h.least j y hy)
      · exact absurd hj (lt_irrefl _)
    · rcases hget hy with hy | ⟨-, rfl⟩
      · exact hlt.le.trans (h.least j y hy)
      · exact le_rfl
  · rename_i hge
    refine ⟨?_, hnonzero, fun j y hj hy => ?_, fun j y hy => ?_⟩
    · rw [List.getElem?_append_left hi]
      exact h.value_at
    · rcases hget hy with hy | ⟨rfl, -⟩
      · exact h.first j y hj hy
      · exact absurd hj (Nat.not_lt.mpr hi.le)
    · rcases hget hy with hy | ⟨-, rfl⟩
      · exact h.least j y hy
      · exact not_lt.mp hge

/-- A zero that is found is the first one. -/
theorem FirstLeast.firstZero (h : FirstLeast xs i m) (rest : List α) :
    FirstZero (xs ++ 0 :: rest) xs.length 0 := by
  have hi : i < xs.length := (List.getElem?_eq_some_iff.mp h.value_at).1
  refine ⟨by simp, by omega, rfl, fun j y hj hlt hy => ?_⟩
  rw [List.getElem?_append_left hlt] at hy
  exact h.nonzero j y hj hy

/-- The scan finds what it is to find. -/
theorem zeroMinimumFrom_spec (rest : List α) (h : FirstLeast xs i m) :
    ∃ n, IsZeroMinimum (xs ++ rest)
      (zeroMinimumFrom (fun x => x = 0) (fun x y => x < y) m i xs.length rest) n := by
  induction rest generalizing xs i m with
  | nil =>
    rw [List.append_nil]
    exact ⟨m, .inr h⟩
  | cons x rest ih =>
    rw [zeroMinimumFrom]
    by_cases hx : x = 0
    · subst x
      rw [if_pos (decide_eq_true rfl)]
      exact ⟨0, .inl (h.firstZero rest)⟩
    · rw [if_neg (by simpa using hx)]
      have hnext := h.concat hx
      have hlength : (xs ++ [x]).length = xs.length + 1 := by simp
      by_cases hlt : x < m
      · rw [if_pos hlt] at hnext
        rw [if_pos (decide_eq_true hlt), ← hlength, List.append_cons]
        exact ih hnext
      · rw [if_neg hlt] at hnext
        rw [if_neg (by simpa using hlt), ← hlength, List.append_cons]
        exact ih hnext

theorem zeroMinimum_spec (hne : xs ≠ []) :
    ∃ m, IsZeroMinimum xs (zeroMinimum (fun x => x = 0) (fun x y => x < y) xs) m := by
  obtain ⟨x, rest, rfl⟩ := List.exists_cons_of_ne_nil hne
  have hfirst : FirstLeast [x] 0 x := by
    refine ⟨rfl, fun j y hj hy => ?_, fun j y hj hy => ?_, fun j y hy => ?_⟩
    · rw [List.getElem?_eq_none (by simp; omega)] at hy
      cases hy
    · exact absurd hj (Nat.not_lt_zero j)
    · cases j with
      | zero => exact (Option.some.inj hy).le
      | succ j => cases hy
  exact zeroMinimumFrom_spec rest hfirst

/-- There is only one of it. -/
theorem IsZeroMinimum.index_eq (h : IsZeroMinimum xs i m) (h' : IsZeroMinimum xs j n) : i = j := by
  rcases h with h | h <;> rcases h' with h' | h'
  · rcases lt_trichotomy i j with hlt | heq | hgt
    · exact absurd h.zero (h'.first i m h.behind hlt h.value_at)
    · exact heq
    · exact absurd h'.zero (h.first j n h'.behind hgt h'.value_at)
  · exact absurd h.zero (h'.nonzero i m h.behind h.value_at)
  · exact absurd h'.zero (h.nonzero j n h'.behind h'.value_at)
  · rcases lt_trichotomy i j with hlt | heq | hgt
    · exact absurd (h'.first i m hlt h.value_at) (not_lt.mpr (h.least j n h'.value_at))
    · exact heq
    · exact absurd (h.first j n hgt h'.value_at) (not_lt.mpr (h'.least i m h.value_at))

/-- The scan finds an index exactly when that is the one to find. -/
theorem zeroMinimum_eq_iff (hne : xs ≠ []) :
    zeroMinimum (fun x => x = 0) (fun x y => x < y) xs = i ↔ ∃ m, IsZeroMinimum xs i m := by
  constructor
  · rintro rfl
    exact zeroMinimum_spec hne
  · rintro ⟨m, h⟩
    obtain ⟨n, h'⟩ := zeroMinimum_spec hne
    exact h'.index_eq h

/-- Nothing is less, if nothing is less than zero. -/
theorem IsZeroMinimum.le (h : IsZeroMinimum xs i m) (hnonneg : ∀ y ∈ xs, 0 ≤ y) :
    ∀ y ∈ xs, m ≤ y := by
  intro y hy
  rcases h with h | h
  · rw [h.zero]
    exact hnonneg y hy
  · obtain ⟨j, hj⟩ := List.getElem?_of_mem hy
    exact h.least j y hj

end WiscKey
