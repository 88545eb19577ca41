import Mathlib.Data.Int.Order.Basic
import Mathlib.Logic.Equiv.Basic
import Mathlib.Data.Set.Function

/-!
# One pass of neighbour swaps

An array of names kept in non-increasing order of a key, and the pass over it that swaps
neighbours out of order. When the key of one name rises just above its equals, the pass
moves that name by one place, which is enough only if it had one equal in front of it.
-/

namespace WiscKey

variable {ι κ : Type} [LinearOrder κ]

/-- Position `i` and the one before it change places if they are out of order. -/
def bubbleStep (key : ι → κ) (order : Int → ι) (i : Nat) : Int → ι :=
  if key (order (i - 1)) < key (order i) then
    Function.update (Function.update order i (order (i - 1))) (i - 1) (order i)
  else order

/-- The steps at the positions from 1 up to `n`. -/
def bubblePass (key : ι → κ) (n : Nat) (order : Int → ι) : Int → ι :=
  (List.range' 1 (n - 1)).foldl (bubbleStep key) order

/-- The first `n` names stand in non-increasing order of their keys. -/
def NonIncreasing (key : ι → κ) (n : Nat) (order : Int → ι) : Prop :=
  ∀ i : Nat, 1 ≤ i → i < n → key (order i) ≤ key (order (i - 1))

/-- The positions of the first `n` names. -/
def positions (n : Nat) : Set Int := {i | 0 ≤ i ∧ i < n}

variable {key key' : ι → κ} {order : Int → ι} {n p i : Nat} {c : ι}

theorem bubbleStep_of_le (h : key (order i) ≤ key (order (i - 1))) :
    bubbleStep key order i = order :=
  if_neg (not_lt.mpr h)

theorem bubbleStep_of_lt (h : key (order (i - 1)) < key (order i)) :
    bubbleStep key order i = order ∘ Equiv.swap ((i : Int) - 1) i := by
  rw [bubbleStep, if_pos h]
  ext j
  simp only [Function.comp_apply]
  by_cases hj : j = (i : Int) - 1
  · subst j
    simp
  · rw [Function.update_of_ne hj]
    by_cases hi : j = i
    · subst j
      simp
    · rw [Function.update_of_ne hi, Equiv.swap_apply_of_ne_of_ne hj hi]

/-- Steps at positions in order change nothing. -/
theorem foldl_bubbleStep_of_le {l : List Nat}
    (h : ∀ i ∈ l, key (order i) ≤ key (order (i - 1))) : l.foldl (bubbleStep key) order = order := by
  induction l with
  | nil => rfl
  | cons i l ih =>
    rw [List.foldl_cons, bubbleStep_of_le (h i List.mem_cons_self)]
    exact ih fun j hj => h j (List.mem_cons_of_mem _ hj)

/-- A pass over an ordered array changes nothing. -/
theorem bubblePass_of_nonIncreasing (h : NonIncreasing key n order) :
    bubblePass key n order = order := by
  refine foldl_bubbleStep_of_le fun i hi => ?_
  rw [List.mem_range'_1] at hi
  exact h i hi.1 (by omega)

/-- A pass that meets its only disorder at `p`, and none of the name it moves on afterwards. -/
theorem bubblePass_of_one_swap (hp : 1 ≤ p) (hpn : p < n)
    (hbefore : ∀ i : Nat, 1 ≤ i → i < p → key (order i) ≤ key (order (i - 1)))
    (hlt : key (order (p - 1)) < key (order p))
    (hafter : ∀ i : Nat, p + 1 < i → i < n → key (order i) ≤ key (order (i - 1)))
    (hnext : p + 1 < n → key (order (p + 1)) ≤ key (order (p - 1))) :
    bubblePass key n order = order ∘ Equiv.swap ((p : Int) - 1) p := by
  have hsplit : List.range' 1 (n - 1) =
      List.range' 1 (p - 1) ++ p :: List.range' (p + 1) (n - 1 - p) := by
    rw [show n - 1 = (p - 1) + (n - p) by omega, ← List.range'_append_1,
      show 1 + (p - 1) = p by omega, show n - p = (n - 1 - p) + 1 by omega, List.range'_succ]
    congr 3
    omega
  have hhead : (List.range' 1 (p - 1)).foldl (bubbleStep key) order = order := by
    refine foldl_bubbleStep_of_le fun i hi => ?_
    rw [List.mem_range'_1] at hi
    exact hbefore i hi.1 (by omega)
  rw [bubblePass, hsplit, List.foldl_append, List.foldl_cons, hhead, bubbleStep_of_lt hlt]
  refine foldl_bubbleStep_of_le fun i hi => ?_
  rw [List.mem_range'_1] at hi
  have hi' : Equiv.swap ((p : Int) - 1) p i = i :=
    Equiv.swap_apply_of_ne_of_ne (by omega) (by omega)
  rw [Function.comp_apply, Function.comp_apply, hi']
  by_cases hnear : i = p + 1
  · subst i
    have hpred : ((p + 1 : Nat) : Int) - 1 = p := by omega
    rw [hpred, Equiv.swap_apply_right]
    exact_mod_cast hnext (by omega)
  · rw [Equiv.swap_apply_of_ne_of_ne (by omega) (by omega)]
    exact hafter i (by omega) (by omega)

theorem bijOn_swap {t : Set ι} {a b : Int} (ha : a ∈ positions n) (hb : b ∈ positions n)
    (h : Set.BijOn order (positions n) t) :
    Set.BijOn (order ∘ Equiv.swap a b) (positions n) t := by
  refine h.comp ?_
  have hmaps : Set.MapsTo (Equiv.swap a b) (positions n) (positions n) := by
    intro x hx
    rw [Equiv.swap_apply_def]
    split
    · exact hb
    · split
      · exact ha
      · exact hx
  refine ⟨hmaps, (Equiv.injective _).injOn, fun x hx => ?_⟩
  exact ⟨Equiv.swap a b x, hmaps hx, Equiv.swap_apply_self a b x⟩

/-- A pass keeps the names of the array. -/
theorem bubblePass_bijOn {t : Set ι} (h : Set.BijOn order (positions n) t) :
    Set.BijOn (bubblePass key n order) (positions n) t := by
  have hfold : ∀ l : List Nat, (∀ i ∈ l, 1 ≤ i ∧ i < n) → ∀ order : Int → ι,
      Set.BijOn order (positions n) t →
      Set.BijOn (l.foldl (bubbleStep key) order) (positions n) t := by
    intro l
    induction l with
    | nil => exact fun _ _ h => h
    | cons i l ih =>
      intro hl order h
      rw [List.foldl_cons]
      apply ih fun j hj => hl j (List.mem_cons_of_mem _ hj)
      obtain ⟨hi, hin⟩ := hl i List.mem_cons_self
      rcases le_or_gt (key (order i)) (key (order (i - 1))) with hle | hlt
      · rw [bubbleStep_of_le hle]
        exact h
      · rw [bubbleStep_of_lt hlt]
        exact bijOn_swap ⟨by omega, by omega⟩ ⟨by omega, by omega⟩ h
  refine hfold _ (fun i hi => ?_) order h
  rw [List.mem_range'_1] at hi
  omega

/-- Of an ordered array of different names, the key of the name at `p` has risen to just above
its equals. -/
structure Raised (key key' : ι → κ) (n : Nat) (order : Int → ι) (p : Nat) (c : ι) : Prop where
  sorted : NonIncreasing key n order
  lt : p < n
  inj : Set.InjOn order (positions n)
  at_p : order p = c
  same : ∀ x, x ≠ c → key' x = key x
  above : ∀ x, x ≠ c → (key x < key' c ↔ key x ≤ key c)

namespace Raised

variable (h : Raised key key' n order p c)
include h

theorem ne {i : Int} (h0 : 0 ≤ i) (hn : i < n) (hip : i ≠ p) : order i ≠ c := fun he =>
  hip (h.inj ⟨h0, hn⟩ ⟨by omega, by have := h.lt; omega⟩ (he.trans h.at_p.symm))

theorem key_eq {i : Int} (h0 : 0 ≤ i) (hn : i < n) (hip : i ≠ p) :
    key' (order i) = key (order i) :=
  h.same _ (h.ne h0 hn hip)

/-- The names behind `p` are below it, as they were. -/
theorem behind (hpi : p < i) (hin : i < n) : key (order i) ≤ key c := by
  induction i, hpi using Nat.le_induction with
  | base =>
    have hstep := h.sorted (p + 1) (by omega) hin
    rwa [show ((p + 1 : Nat) : Int) - 1 = p by omega, h.at_p] at hstep
  | succ i hpi ih =>
    have hstep := h.sorted (i + 1) (by omega) hin
    rw [show ((i + 1 : Nat) : Int) - 1 = i by omega] at hstep
    exact hstep.trans (ih (by omega))

/-- Neighbours away from `p` are in order. -/
theorem away (hi : 1 ≤ i) (hin : i < n) (hip : i ≠ p) (hip' : i ≠ p + 1) :
    key' (order i) ≤ key' (order (i - 1)) := by
  rw [h.key_eq (by omega) (by omega) (by omega), h.key_eq (by omega) (by omega) (by omega)]
  exact h.sorted i hi hin

/-- The name behind `p` is below the risen one. -/
theorem next (hin : p + 1 < n) : key' (order (p + 1)) ≤ key' c := by
  have hno := h.ne (show (0 : Int) ≤ p + 1 by omega) (by omega) (by omega)
  have hle := h.behind (Nat.lt_succ_self p) hin
  push_cast at hle
  rw [h.same _ hno]
  exact ((h.above _ hno).mpr hle).le

/-- The name in front of `p` was not below it. -/
theorem prev (hp : 1 ≤ p) : key c ≤ key (order (p - 1)) := by
  have hstep := h.sorted p hp h.lt
  rwa [h.at_p] at hstep

/-- Where the name in front of `p` was an equal, the two change places. -/
theorem pass_swap (hp : 1 ≤ p) (hlt : key (order (p - 1)) < key' c) :
    bubblePass key' n order = order ∘ Equiv.swap ((p : Int) - 1) p := by
  have hpn := h.lt
  have hprev := h.key_eq (show (0 : Int) ≤ p - 1 by omega) (by omega) (by omega)
  refine bubblePass_of_one_swap hp hpn (fun i hi hip => h.away hi (by omega) (by omega) (by omega))
    (by rwa [h.at_p, hprev]) (fun i hip hin => h.away (by omega) hin (by omega) (by omega)) ?_
  intro hin
  have hle := h.behind (Nat.lt_succ_self p) hin
  push_cast at hle
  rw [hprev, h.key_eq (by omega) (by omega) (by omega)]
  exact hle.trans (h.prev hp)

/-- The swap restores the order exactly when the name in front of the two was no equal. -/
theorem swap_nonIncreasing_iff (hp : 1 ≤ p) (hlt : key (order (p - 1)) < key' c) :
    NonIncreasing key' n (order ∘ Equiv.swap ((p : Int) - 1) p) ↔
      (2 ≤ p → key c < key (order (p - 2))) := by
  have hpn := h.lt
  have hat : ∀ i : Int, i ≠ p - 1 → i ≠ p → (order ∘ Equiv.swap ((p : Int) - 1) p) i = order i :=
    fun i hi hi' => congrArg order (Equiv.swap_apply_of_ne_of_ne hi hi')
  have hatPrev : (order ∘ Equiv.swap ((p : Int) - 1) p) (p - 1) = c := by
    rw [Function.comp_apply, Equiv.swap_apply_left, h.at_p]
  have hatSelf : (order ∘ Equiv.swap ((p : Int) - 1) p) p = order (p - 1) := by
    rw [Function.comp_apply, Equiv.swap_apply_right]
  have hprev := h.key_eq (show (0 : Int) ≤ p - 1 by omega) (by omega) (by omega)
  -- the one comparison that the swap does not settle
  have hfront : 2 ≤ p → (key' c ≤ key' (order (p - 2)) ↔ key c < key (order (p - 2))) := by
    intro h2
    have hno := h.ne (show (0 : Int) ≤ p - 2 by omega) (by omega) (by omega)
    rw [h.same _ hno, ← not_lt, h.above _ hno, not_le]
  constructor
  · intro hsorted h2
    have hfirst := hsorted (p - 1) (by omega) (by omega)
    rw [show ((p - 1 : Nat) : Int) = p - 1 by omega, hatPrev, hat _ (by omega) (by omega),
      show (p : Int) - 1 - 1 = p - 2 by omega] at hfirst
    exact (hfront h2).mp hfirst
  · intro hcond i hi hin
    rcases lt_trichotomy i p with hip | rfl | hip
    · rw [hat (i - 1) (by omega) (by omega)]
      by_cases hip' : (i : Int) = p - 1
      · rw [hip', hatPrev, show (p : Int) - 1 - 1 = p - 2 by omega]
        exact (hfront (by omega)).mpr (hcond (by omega))
      · rw [hat i hip' (by omega)]
        exact h.away hi hin (by omega) (by omega)
    · rw [hatSelf, hatPrev, hprev]
      exact hlt.le
    · rw [hat i (by omega) (by omega)]
      by_cases hip' : (i : Int) - 1 = p
      · rw [hip', hatSelf, h.key_eq (by omega) (by omega) (by omega), hprev]
        exact (h.behind hip hin).trans (h.prev hp)
      · rw [hat (i - 1) (by omega) hip']
        exact h.away hi hin (by omega) (by omega)

/-- Where it was above, the array is still in order. -/
theorem nonIncreasing (hle : 1 ≤ p → key' c ≤ key (order (p - 1))) :
    NonIncreasing key' n order := by
  have hpn := h.lt
  intro i hi hin
  by_cases hip : i = p
  · subst i
    rw [h.at_p, h.key_eq (by omega) (by omega) (by omega)]
    exact hle hi
  · by_cases hip' : i = p + 1
    · subst i
      rw [show ((p + 1 : Nat) : Int) - 1 = p by omega, h.at_p]
      push_cast
      exact h.next hin
    · exact h.away hi hin hip hip'

/-- A pass restores the order exactly when not two of the names in front of the risen one were
its equals. -/
theorem bubblePass_nonIncreasing_iff :
    NonIncreasing key' n (bubblePass key' n order) ↔ (2 ≤ p → key c < key (order (p - 2))) := by
  have hpn := h.lt
  by_cases hswap : 1 ≤ p ∧ key (order (p - 1)) < key' c
  · rw [h.pass_swap hswap.1 hswap.2]
    exact h.swap_nonIncreasing_iff hswap.1 hswap.2
  · have hle : 1 ≤ p → key' c ≤ key (order (p - 1)) := fun hp =>
      not_lt.mp fun hlt => hswap ⟨hp, hlt⟩
    have hsorted := h.nonIncreasing hle
    rw [bubblePass_of_nonIncreasing hsorted]
    refine iff_of_true hsorted fun h2 => ?_
    have hno := h.ne (show (0 : Int) ≤ p - 1 by omega) (by omega) (by omega)
    have hlt : key c < key (order (p - 1)) := by
      rw [← not_le, ← h.above _ hno, not_lt]
      exact hle (by omega)
    have hprev := h.sorted (p - 1) (by omega) (by omega)
    rw [show ((p - 1 : Nat) : Int) = p - 1 by omega, show (p : Int) - 1 - 1 = p - 2 by omega]
      at hprev
    exact hlt.trans_le hprev

end Raised

end WiscKey
