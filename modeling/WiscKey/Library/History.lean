import Mathlib.Data.List.Basic
import Mathlib.Order.Basic

/-!
# Histories

A history is a list of updates, the latest at its end. A reader at a point of the history sees the
last update in front of the point that is of its key. A point stays a point when the history goes
on, and what is seen there stays the same.
-/

namespace WiscKey

variable {α : Type} (isOf : α → Bool)

/-- The last update in front of a point that is of the key. -/
def lastOf (history : List α) (point : Nat) : Option α :=
  (history.take point).reverse.find? isOf

/-- The update at a place is the last one in front of a point that is of the key. -/
structure LastAt (history : List α) (point place : Nat) (a : α) : Prop where
  lt : place < point
  at_ : history[place]? = some a
  ofKey : isOf a = true
  last : ∀ later b, place < later → later < point → history[later]? = some b → isOf b = false

variable {isOf} {history more : List α} {point place : Nat} {a : α}

/-- What is seen is at some place. -/
theorem lastOf_eq_some_iff :
    lastOf isOf history point = some a ↔ ∃ place, LastAt isOf history point place a := by
  rw [lastOf, List.find?_eq_some_iff_append]
  constructor
  · rintro ⟨hof, after, before, hsplit, hlast⟩
    have htake : history.take point = before.reverse ++ a :: after.reverse := by
      rw [← List.reverse_reverse (history.take point), hsplit, List.reverse_append,
        List.reverse_cons, List.append_assoc, List.singleton_append]
    have hget : ∀ i, i < point → history[i]? = (before.reverse ++ a :: after.reverse)[i]? := by
      intro i hi
      rw [← htake, List.getElem?_take_of_lt hi]
    have hlt : before.length < point := by
      have hlength := congrArg List.length htake
      rw [List.length_take, List.length_append, List.length_cons, List.length_reverse] at hlength
      omega
    refine ⟨before.length, hlt, ?_, hof, fun later b hplace hpoint hb => ?_⟩
    · rw [hget _ hlt, List.getElem?_append_right (by simp), List.length_reverse, Nat.sub_self]
      rfl
    · rw [hget later hpoint, List.getElem?_append_right (by simp; omega), List.length_reverse] at hb
      obtain ⟨n, hn⟩ : ∃ n, later - before.length = n + 1 := ⟨later - before.length - 1, by omega⟩
      rw [hn, List.getElem?_cons_succ] at hb
      simpa using hlast b (List.mem_reverse.mp (List.mem_of_getElem? hb))
  · rintro ⟨place, hlt, hat, hof, hlast⟩
    obtain ⟨hlength, rfl⟩ := List.getElem?_eq_some_iff.mp hat
    have hplace : place < (history.take point).length := by
      rw [List.length_take]
      omega
    have hsplit := List.take_append_drop place (history.take point)
    rw [List.drop_eq_getElem_cons hplace, List.getElem_take] at hsplit
    refine ⟨hof, ((history.take point).drop (place + 1)).reverse,
      ((history.take point).take place).reverse, ?_, fun b hb => ?_⟩
    · conv_lhs => rw [← hsplit]
      rw [List.reverse_append, List.reverse_cons, List.append_assoc, List.singleton_append]
    · obtain ⟨i, hi⟩ := List.mem_iff_getElem?.mp (List.mem_reverse.mp hb)
      rw [List.getElem?_drop] at hi
      obtain ⟨hbound, -⟩ := List.getElem?_eq_some_iff.mp hi
      rw [List.length_take] at hbound
      rw [List.getElem?_take_of_lt (by omega)] at hi
      simp [hlast _ b (by omega) (by omega) hi]

/-- Nothing is seen where no update in front of the point is of the key. -/
theorem lastOf_eq_none_iff : lastOf isOf history point = none ↔
    ∀ i b, i < point → history[i]? = some b → isOf b = false := by
  rw [lastOf, List.find?_eq_none]
  constructor
  · intro h i b hi hb
    rw [← List.getElem?_take_of_lt hi] at hb
    simpa using h b (List.mem_reverse.mpr (List.mem_of_getElem? hb))
  · intro h b hb
    obtain ⟨i, hi⟩ := List.mem_iff_getElem?.mp (List.mem_reverse.mp hb)
    obtain ⟨hbound, -⟩ := List.getElem?_eq_some_iff.mp hi
    rw [List.length_take] at hbound
    rw [List.getElem?_take_of_lt (by omega)] at hi
    simp [h i b (by omega) hi]

/-- A point sees the same when the history goes on. -/
theorem lastOf_append (h : point ≤ history.length) :
    lastOf isOf (history ++ more) point = lastOf isOf history point := by
  rw [lastOf, lastOf, List.take_append_of_le_length h]

theorem LastAt.of_append (h : LastAt isOf (history ++ more) point place a)
    (hpoint : point ≤ history.length) : LastAt isOf history point place a := by
  have hlt := h.lt
  refine ⟨h.lt, ?_, h.ofKey, fun later b hlater hb hget => ?_⟩
  · rw [← List.getElem?_append_left (by omega)]
    exact h.at_
  · refine h.last later b hlater hb ?_
    rw [List.getElem?_append_left (by omega)]
    exact hget

/-- What a later point sees was seen before, if it is in front of the earlier point. -/
theorem LastAt.earlier {earlier : Nat} (h : LastAt isOf history point place a)
    (hlt : place < earlier) (hle : earlier ≤ point) : LastAt isOf history earlier place a :=
  ⟨hlt, h.at_, h.ofKey, fun later b hlater hb => h.last later b hlater (by omega)⟩

end WiscKey
