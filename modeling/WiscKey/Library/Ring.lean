import Mathlib.Data.List.Nodup
import Mathlib.Logic.Function.Basic

/-!
# Singly linked lists in an array

An array `next` links the members of a list in order and marks the last one with
`nil`. Taking the head leaves the rest linked, and writing two links appends a new
member behind the last.
-/

namespace WiscKey

variable {ι : Type} [DecidableEq ι]

/-- The array `next` links the members of the list in order, and the last one to `nil`. -/
def Linked (next : ι → ι) (nil : ι) : List ι → Prop
  | [] => True
  | [a] => next a = nil
  | a :: b :: l => next a = b ∧ Linked next nil (b :: l)

/-- Following the links from `a` visits the members of the list in order and ends at `nil`. -/
def Visits (next : ι → ι) (nil : ι) : ι → List ι → Prop
  | a, [] => a = nil
  | a, b :: l => a = b ∧ Visits next nil (next b) l

namespace Linked

variable {next : ι → ι} {nil : ι}

omit [DecidableEq ι] in
theorem of_cons {a : ι} {l : List ι} (h : Linked next nil (a :: l)) : Linked next nil l := by
  cases l with
  | nil => trivial
  | cons b l => exact h.2

/-- Links outside the list may change. -/
theorem update {l : List ι} (h : Linked next nil l) {a : ι} (ha : a ∉ l) (b : ι) :
    Linked (Function.update next a b) nil l := by
  induction l with
  | nil => trivial
  | cons c l ih =>
    have hca : c ≠ a := fun he => ha (he ▸ List.mem_cons_self)
    have hl : a ∉ l := fun hm => ha (List.mem_cons_of_mem _ hm)
    cases l with
    | nil => exact (Function.update_of_ne hca b next).trans h
    | cons d l => exact ⟨(Function.update_of_ne hca b next).trans h.1, ih h.2 hl⟩

omit [DecidableEq ι] in
/-- An array that agrees on the members links them the same way. -/
theorem congr {next' : ι → ι} {l : List ι} (h : Linked next nil l)
    (hsame : ∀ a ∈ l, next' a = next a) : Linked next' nil l := by
  induction l with
  | nil => trivial
  | cons a l ih =>
    have ha := hsame a List.mem_cons_self
    cases l with
    | nil => exact ha.trans h
    | cons b l => exact ⟨ha.trans h.1, ih h.2 fun c hc => hsame c (List.mem_cons_of_mem _ hc)⟩

/-- Appending `b`: the old last member links to `b`, and `b` to `nil`. -/
theorem append {l : List ι} (h : Linked next nil l) (hd : l.Nodup) {a b : ι}
    (ha : l.getLast? = some a) (hb : b ∉ l) :
    Linked (Function.update (Function.update next a b) b nil) nil (l ++ [b]) := by
  induction l with
  | nil => simp at ha
  | cons c l ih =>
    have hbc : c ≠ b := fun he => hb (he ▸ List.mem_cons_self)
    have hbl : b ∉ l := fun hm => hb (List.mem_cons_of_mem _ hm)
    cases l with
    | nil =>
      obtain rfl : c = a := by simpa using ha
      simp [Linked, Function.update_of_ne hbc]
    | cons d l =>
      have hlast : (d :: l).getLast? = some a := by simpa using ha
      have hmem : a ∈ d :: l := List.mem_of_getLast? hlast
      have hca : c ≠ a := fun he => (List.nodup_cons.mp hd).1 (he ▸ hmem)
      refine ⟨?_, ih h.2 (List.nodup_cons.mp hd).2 hlast hbl⟩
      rw [Function.update_of_ne hbc, Function.update_of_ne hca]
      exact h.1

omit [DecidableEq ι] in
/-- A list is linked when its first part is linked to the member behind it. -/
theorem append_cons_iff {l₁ l₂ : List ι} {a : ι} :
    Linked next nil (l₁ ++ a :: l₂) ↔ Linked next a l₁ ∧ Linked next nil (a :: l₂) := by
  induction l₁ with
  | nil => exact (and_iff_right trivial).symm
  | cons b l₁ ih =>
    cases l₁ with
    | nil => exact Iff.rfl
    | cons c l₁ =>
      change next b = c ∧ Linked next nil (c :: l₁ ++ a :: l₂) ↔ _
      rw [ih, ← and_assoc]
      rfl

/-- The last member links to something else. -/
theorem relink {l : List ι} {a : ι} (h : Linked next nil (l ++ [a])) (ha : a ∉ l) (b : ι) :
    Linked (Function.update next a b) b (l ++ [a]) := by
  rw [append_cons_iff] at h ⊢
  exact ⟨h.1.update ha b, Function.update_self ..⟩

omit [DecidableEq ι] in
/-- The head links to the head of the rest. -/
theorem next_head {a : ι} {l : List ι} (h : Linked next nil (a :: l)) {b : ι}
    (hb : l.head? = some b) : next a = b := by
  cases l with
  | nil => simp at hb
  | cons c l =>
    obtain rfl : c = b := by simpa using hb
    exact h.1

omit [DecidableEq ι] in
/-- The links visit the members from the first one on. -/
theorem visits {a : ι} {l : List ι} (h : Linked next nil l) (ha : l.head? = some a) :
    Visits next nil a l := by
  induction l generalizing a with
  | nil => simp at ha
  | cons b l ih =>
    obtain rfl : b = a := by simpa using ha
    refine ⟨rfl, ?_⟩
    cases l with
    | nil => exact h
    | cons c l => exact ih (of_cons h) (congrArg some h.1.symm)

end Linked

/-!
## Circular lists

Two arrays `next` and `prev` link a head and the members of a list in a circle, in both directions.
Two writes take a member out, and four put a new one in front of the head.
-/

namespace Linked

variable {f : ι → ι} {nil a p : ι} {l r : List ι}

/-- The member behind `p` is taken out. -/
theorem unlink (h : Linked f nil (l ++ p :: a :: r)) (hp : p ∉ l) (hr : p ∉ r) :
    Linked (Function.update f p (f a)) nil (l ++ p :: r) := by
  rw [append_cons_iff] at h ⊢
  refine ⟨h.1.update hp _, ?_⟩
  cases r with
  | nil =>
    have ha : f a = nil := h.2.2
    exact (Function.update_self ..).trans ha
  | cons b r =>
    have ha : f a = b := h.2.2.1
    exact ⟨(Function.update_self ..).trans ha, h.2.2.2.update hr _⟩

end Linked

/-- The arrays link the head and the members of the list in a circle. -/
structure Ring (next prev : ι → ι) (head : ι) (l : List ι) : Prop where
  next : Linked next head (head :: l)
  prev : Linked prev head (head :: l.reverse)
  nodup : (head :: l).Nodup

namespace Ring

variable {next prev next' prev' : ι → ι} {head a : ι} {l l₁ l₂ : List ι}

omit [DecidableEq ι] in
theorem symm (h : Ring next prev head l) : Ring prev next head l.reverse := by
  refine ⟨h.prev, ?_, ?_⟩
  · rw [List.reverse_reverse]
    exact h.next
  · rw [List.nodup_cons, List.mem_reverse, List.nodup_reverse]
    exact List.nodup_cons.mp h.nodup

omit [DecidableEq ι] in
/-- A circle depends on the links of its members only. -/
theorem congr (h : Ring next prev head l) (hnext : ∀ b ∈ head :: l, next' b = next b)
    (hprev : ∀ b ∈ head :: l, prev' b = prev b) : Ring next' prev' head l := by
  refine ⟨h.next.congr hnext, h.prev.congr fun b hb => hprev b ?_, h.nodup⟩
  rwa [List.mem_cons, List.mem_reverse, ← List.mem_cons] at hb

omit [DecidableEq ι] in
/-- The head links to the first member, or to itself. -/
theorem next_head (h : Ring next prev head l) : next head = l.headD head := by
  cases l with
  | nil => exact h.next
  | cons b l => exact h.next.1

omit [DecidableEq ι] in
theorem prev_head (h : Ring next prev head l) : prev head = l.reverse.headD head :=
  h.symm.next_head

omit [DecidableEq ι] in
/-- What is in front of a member. -/
theorem prev_eq (h : Ring next prev head (l₁ ++ a :: l₂)) :
    ∃ front, head :: l₁ = front ++ [prev a] := by
  have hprev := h.prev
  rw [List.reverse_append, List.reverse_cons, List.append_assoc, List.singleton_append,
    ← List.cons_append, Linked.append_cons_iff] at hprev
  rcases List.eq_nil_or_concat l₁ with rfl | ⟨front, p, rfl⟩
  · have ha : prev a = head := hprev.2
    exact ⟨[], by rw [ha]; rfl⟩
  · rw [List.concat_eq_append, List.reverse_append, List.reverse_singleton] at hprev
    have ha : prev a = p := hprev.2.1
    exact ⟨head :: front, by rw [ha, List.concat_eq_append, List.cons_append]⟩

omit [DecidableEq ι] in
theorem prev_mem (h : Ring next prev head (l₁ ++ a :: l₂)) : prev a ∈ head :: (l₁ ++ l₂) := by
  obtain ⟨front, hfront⟩ := h.prev_eq
  rw [← List.cons_append, hfront]
  simp

omit [DecidableEq ι] in
theorem next_mem (h : Ring next prev head (l₁ ++ a :: l₂)) : next a ∈ head :: (l₁ ++ l₂) := by
  have hsymm := h.symm
  rw [List.reverse_append, List.reverse_cons, List.append_assoc, List.singleton_append] at hsymm
  have hmem := hsymm.prev_mem
  rw [← List.reverse_append, List.mem_cons, List.mem_reverse, List.mem_append] at hmem
  rw [List.mem_cons, List.mem_append]
  exact hmem

omit [DecidableEq ι] in
theorem ne_of_mem (h : Ring next prev head (l₁ ++ a :: l₂)) {b : ι} (hb : b ∈ head :: (l₁ ++ l₂)) :
    b ≠ a := by
  rintro rfl
  have hnodup := h.nodup
  simp only [List.nodup_cons, List.nodup_append, List.mem_append, List.mem_cons] at hnodup hb
  rcases hb with rfl | hb | hb
  · exact hnodup.1 (.inr (.inl rfl))
  · exact hnodup.2.2.2 b hb b (.inl rfl) rfl
  · exact hnodup.2.2.1.1 hb

/-- One direction of `remove`. -/
theorem next_remove (h : Ring next prev head (l₁ ++ a :: l₂)) :
    Linked (Function.update next (prev a) (next a)) head (head :: (l₁ ++ l₂)) := by
  obtain ⟨front, hfront⟩ := h.prev_eq
  have hnext := h.next
  have hnodup := h.nodup
  rw [← List.cons_append, hfront, List.append_assoc, List.singleton_append] at hnext hnodup ⊢
  obtain ⟨-, hback, hdisjoint⟩ := List.nodup_append.mp hnodup
  refine hnext.unlink (fun hp => hdisjoint _ hp _ List.mem_cons_self rfl) fun hp => ?_
  exact (List.nodup_cons.mp hback).1 (List.mem_cons_of_mem _ hp)

/-- A member is taken out. -/
theorem remove (h : Ring next prev head (l₁ ++ a :: l₂)) :
    Ring (Function.update next (prev a) (next a)) (Function.update prev (next a) (prev a)) head
      (l₁ ++ l₂) := by
  have hsymm := h.symm
  rw [List.reverse_append, List.reverse_cons, List.append_assoc, List.singleton_append] at hsymm
  have hprev := hsymm.next_remove
  rw [← List.reverse_append] at hprev
  refine ⟨h.next_remove, hprev, h.nodup.sublist ?_⟩
  exact ((List.Sublist.refl l₁).append (List.sublist_cons_self a l₂)).cons_cons head

/-- A member is put in front of the head. -/
theorem append (h : Ring next prev head l) (ha : a ∉ head :: l) :
    Ring (Function.update (Function.update next a head) (prev head) a)
      (Function.update (Function.update prev a (prev head)) head a) head (l ++ [a]) := by
  have hne : a ≠ head := fun he => ha (he ▸ List.mem_cons_self)
  have hlast : (head :: l).getLast? = some (prev head) := by
    rw [h.prev_head]
    rcases List.eq_nil_or_concat l with rfl | ⟨front, p, rfl⟩
    · rfl
    · rw [List.concat_eq_append, List.reverse_append, ← List.cons_append, List.getLast?_concat]
      rfl
  have hprev_ne : prev head ≠ a := fun he => ha (he ▸ List.mem_of_getLast? hlast)
  refine ⟨?_, ?_, ?_⟩
  · rw [Function.update_comm hprev_ne.symm]
    exact h.next.append h.nodup hlast ha
  · rw [List.reverse_append, List.reverse_singleton, List.singleton_append]
    refine ⟨Function.update_self .., ?_⟩
    have hrest : ∀ b ∈ l.reverse, Function.update (Function.update prev a (prev head)) head a b =
        prev b := by
      intro b hb
      rw [List.mem_reverse] at hb
      have hb_head : b ≠ head := fun he => (List.nodup_cons.mp h.nodup).1 (he ▸ hb)
      have hb_a : b ≠ a := fun he => ha (List.mem_cons_of_mem _ (he ▸ hb))
      rw [Function.update_of_ne hb_head, Function.update_of_ne hb_a]
    have hself : Function.update (Function.update prev a (prev head)) head a a = prev head := by
      rw [Function.update_of_ne hne, Function.update_self]
    have hback := h.prev
    cases hl : l.reverse with
    | nil =>
      rw [hl] at hback
      exact hself.trans hback
    | cons b back =>
      rw [hl] at hback hrest
      exact ⟨hself.trans hback.1, hback.2.congr hrest⟩
  · rw [← List.cons_append, List.nodup_append]
    refine ⟨h.nodup, List.nodup_singleton a, fun b hb c hc hbc => ?_⟩
    rw [List.mem_singleton] at hc
    exact ha (hc ▸ hbc ▸ hb)

end Ring

end WiscKey
