import WiscKey.Library.OrderedSet

/-!
# Cursors

A cursor over a list is at one of its elements, with the elements in front of it and those
behind, or at none. Over an increasing list, where a cursor moves to is told by the order: the
first element that meets an upward closed condition, or the last that meets a downward closed one.
-/

namespace WiscKey

/-- A cursor; the elements in front of its own are kept with the nearest first. -/
inductive Cursor (α : Type)
  | invalid
  | on (before : List α) (entry : α) (after : List α)

namespace Cursor

variable {α : Type}

/-- The element that the cursor is at. -/
def current? : Cursor α → Option α
  | invalid => none
  | on _ a _ => some a

/-- One element on. -/
def next : Cursor α → Cursor α
  | on before a (b :: after) => on (a :: before) b after
  | _ => invalid

/-- One element back. -/
def prev : Cursor α → Cursor α
  | on (b :: before) a after => on before b (a :: after)
  | _ => invalid

/-- The first element that meets a condition, with the elements that were passed. -/
def seekFrom (p : α → Bool) (before : List α) : List α → Cursor α
  | [] => invalid
  | a :: l => if p a then on before a l else seekFrom p (a :: before) l

/-- The first element that meets a condition. -/
def seek (p : α → Bool) (l : List α) : Cursor α := seekFrom p [] l

/-- The first element. -/
def first : List α → Cursor α
  | [] => invalid
  | a :: l => on [] a l

/-- The last element. -/
def last (l : List α) : Cursor α :=
  match l.reverse with
  | [] => invalid
  | a :: before => on before a []

/-- The last of some elements, with others behind; the elements come with the nearest first. -/
def inFrontOf (after : List α) : List α → Cursor α
  | [] => invalid
  | a :: before => on before a after

/-- The list that the cursor goes over. -/
def Over (l : List α) : Cursor α → Prop
  | invalid => True
  | on before a after => before.reverse ++ a :: after = l

section Moves

variable {l before after : List α} {a : α} {c : Cursor α}

theorem Over.next (h : c.Over l) : c.next.Over l := by
  rcases c with _ | ⟨before, a, _ | ⟨b, after⟩⟩
  · trivial
  · trivial
  · rw [Over] at h
    simpa [Cursor.next, Over] using h

theorem Over.prev (h : c.Over l) : c.prev.Over l := by
  rcases c with _ | ⟨_ | ⟨b, before⟩, a, after⟩
  · trivial
  · trivial
  · rw [Over] at h
    simpa [Cursor.prev, Over] using h

theorem seekFrom_spec (p : α → Bool) (before rest : List α) :
    (seekFrom p before rest).Over (before.reverse ++ rest) ∧
      (seekFrom p before rest).current? = rest.find? p := by
  induction rest generalizing before with
  | nil => exact ⟨trivial, rfl⟩
  | cons a rest ih =>
    rw [seekFrom, List.find?_cons]
    cases hp : p a with
    | true => exact ⟨rfl, rfl⟩
    | false =>
      obtain ⟨hover, hcurrent⟩ := ih (a :: before)
      refine ⟨?_, hcurrent⟩
      simpa using hover

/-- What a search has passed does not meet the condition. -/
theorem seekFrom_passed {p : α → Bool} (hbefore : ∀ b ∈ before, p b = false) (rest : List α) :
    (seekFrom p before rest = invalid ∧ ∀ a ∈ rest, p a = false) ∨
      ∃ before' a after, seekFrom p before rest = on before' a after ∧
        before'.reverse ++ a :: after = before.reverse ++ rest ∧ p a = true ∧
        ∀ b ∈ before', p b = false := by
  induction rest generalizing before with
  | nil => exact .inl ⟨rfl, by simp⟩
  | cons a rest ih =>
    rw [seekFrom]
    cases hp : p a with
    | true => exact .inr ⟨before, a, rest, rfl, rfl, hp, hbefore⟩
    | false =>
      obtain ⟨hseek, hrest⟩ | ⟨before', b, after, hseek, hsplit, hb⟩ :=
        ih (List.forall_mem_cons.mpr ⟨hp, hbefore⟩)
      · exact .inl ⟨hseek, List.forall_mem_cons.mpr ⟨hp, hrest⟩⟩
      · exact .inr ⟨before', b, after, hseek, by simpa using hsplit, hb⟩

/-- The search passes the elements that do not meet the condition. -/
theorem seek_passed (p : α → Bool) (l : List α) :
    (seek p l = invalid ∧ ∀ a ∈ l, p a = false) ∨
      ∃ before a after, seek p l = on before a after ∧ before.reverse ++ a :: after = l ∧
        p a = true ∧ ∀ b ∈ before, p b = false :=
  seekFrom_passed (fun _ h => absurd h List.not_mem_nil) l

theorem over_seek (p : α → Bool) : (seek p l).Over l := (seekFrom_spec p [] l).1

theorem current?_seek (p : α → Bool) : (seek p l).current? = l.find? p := (seekFrom_spec p [] l).2

theorem over_first : (first l).Over l := by
  cases l with
  | nil => trivial
  | cons a l => rfl

theorem current?_first : (first l).current? = l.find? fun _ => true := by
  cases l with
  | nil => rfl
  | cons a l => rfl

theorem over_last : (last l).Over l := by
  unfold last
  cases h : l.reverse with
  | nil => trivial
  | cons a before =>
    have hl := congrArg List.reverse h
    rw [List.reverse_reverse, List.reverse_cons] at hl
    exact hl.symm

theorem current?_last : (last l).current? = l.reverse.find? fun _ => true := by
  unfold last
  cases l.reverse with
  | nil => rfl
  | cons a before => rfl

variable {cmp : α → α → Ordering} [Std.TransCmp cmp]

/-- The first element above the current one is the next. -/
theorem current?_next (hl : Increasing cmp l) (h : (on before a after).Over l) :
    (on before a after).next.current? = l.find? fun b => cmp a b = .lt := by
  subst h
  rw [Increasing, List.pairwise_append, List.pairwise_cons] at hl
  obtain ⟨-, ⟨hafter, -⟩, hbefore⟩ := hl
  have hfront : before.reverse.find? (fun b => decide (cmp a b = .lt)) = none := by
    rw [List.find?_eq_none]
    intro b hb
    have hlt := hbefore b hb a List.mem_cons_self
    simp [Std.OrientedCmp.gt_of_lt hlt]
  have hself : cmp a a = .eq := Std.ReflCmp.compare_self
  rw [List.find?_append, hfront, Option.none_or, List.find?_cons_of_neg (by simp [hself])]
  cases after with
  | nil => rfl
  | cons b after =>
    rw [List.find?_cons_of_pos (by simpa using hafter b List.mem_cons_self)]
    rfl

/-- The last element below the current one is the one before. -/
theorem current?_prev (hl : Increasing cmp l) (h : (on before a after).Over l) :
    (on before a after).prev.current? = l.reverse.find? fun b => cmp b a = .lt := by
  subst h
  rw [Increasing, List.pairwise_append, List.pairwise_cons] at hl
  obtain ⟨-, ⟨hafter, -⟩, hbefore⟩ := hl
  have hback : after.reverse.find? (fun b => decide (cmp b a = .lt)) = none := by
    rw [List.find?_eq_none]
    intro b hb
    have hlt := hafter b (List.mem_reverse.mp hb)
    simp [Std.OrientedCmp.gt_of_lt hlt]
  have hself : cmp a a = .eq := Std.ReflCmp.compare_self
  rw [List.reverse_append, List.reverse_reverse, List.reverse_cons, List.append_assoc,
    List.find?_append, hback, Option.none_or, List.singleton_append,
    List.find?_cons_of_neg (by simp [hself])]
  cases before with
  | nil => rfl
  | cons b before =>
    have hlt := hbefore b (by simp) a List.mem_cons_self
    rw [List.find?_cons_of_pos (by simpa using hlt)]
    rfl

end Moves

end Cursor

section Search

variable {α : Type} {cmp : α → α → Ordering} {l : List α} {a : α} {p : α → Bool}

/-- The least element that meets a condition is the first one that does. -/
theorem Increasing.find?_eq_some (hl : Increasing cmp l) (ha : a ∈ l) (hp : p a)
    (hleast : ∀ b ∈ l, p b → cmp b a ≠ .lt) : l.find? p = some a := by
  obtain ⟨front, back, rfl⟩ := List.append_of_mem ha
  refine List.find?_eq_some_iff_append.mpr ⟨hp, front, back, rfl, fun b hb => ?_⟩
  have hlt := (List.pairwise_append.mp hl).2.2 b hb a List.mem_cons_self
  rw [Bool.not_eq_true']
  by_contra hpb
  exact hleast b (List.mem_append_left _ hb) (by simpa using hpb) hlt

/-- The greatest element that meets a condition is the last one that does. -/
theorem Increasing.reverse_find?_eq_some (hl : Increasing cmp l) (ha : a ∈ l) (hp : p a)
    (hgreatest : ∀ b ∈ l, p b → cmp a b ≠ .lt) : l.reverse.find? p = some a := by
  obtain ⟨front, back, rfl⟩ := List.append_of_mem ha
  refine List.find?_eq_some_iff_append.mpr ⟨hp, back.reverse, front.reverse, by simp, fun b hb => ?_⟩
  rw [List.mem_reverse] at hb
  have hlt := (List.pairwise_cons.mp (List.pairwise_append.mp hl).2.1).1 b hb
  rw [Bool.not_eq_true']
  by_contra hpb
  exact hgreatest b (List.mem_append_right _ (List.mem_cons_of_mem _ hb)) (by simpa using hpb) hlt

end Search

/-!
## Cursors by places

A cursor over a list is at a place of it, or at none. Its moves are told by the place.
-/

namespace Cursor

variable {α : Type} {l : List α} {i : Nat} {p : α → Bool}

/-- The cursor at a place of a list; at places behind the list it is at none. -/
def atIndex (l : List α) (i : Nat) : Cursor α :=
  match l.drop i with
  | [] => invalid
  | a :: after => on (l.take i).reverse a after

theorem atIndex_of_lt (h : i < l.length) :
    atIndex l i = on (l.take i).reverse l[i] (l.drop (i + 1)) := by
  rw [atIndex, List.drop_eq_getElem_cons h]

theorem atIndex_of_le (h : l.length ≤ i) : atIndex l i = invalid := by
  rw [atIndex, List.drop_of_length_le h]

theorem over_atIndex (l : List α) (i : Nat) : (atIndex l i).Over l := by
  rcases Nat.lt_or_ge i l.length with hlt | hge
  · rw [atIndex_of_lt hlt, Over, List.reverse_reverse, ← List.drop_eq_getElem_cons hlt,
      List.take_append_drop]
  · rw [atIndex_of_le hge]
    trivial

theorem current?_atIndex (l : List α) (i : Nat) : (atIndex l i).current? = l[i]? := by
  rcases Nat.lt_or_ge i l.length with hlt | hge
  · rw [atIndex_of_lt hlt, List.getElem?_eq_getElem hlt]
    rfl
  · rw [atIndex_of_le hge, List.getElem?_eq_none hge]
    rfl

theorem next_atIndex : (atIndex l i).next = atIndex l (i + 1) := by
  rcases Nat.lt_or_ge i l.length with hlt | hge
  · rw [atIndex_of_lt hlt, next.eq_def, atIndex]
    cases l.drop (i + 1) with
    | nil => rfl
    | cons b after => simp only [List.take_succ_eq_append_getElem hlt, List.reverse_append,
        List.reverse_singleton, List.singleton_append]
  · rw [atIndex_of_le hge, atIndex_of_le (Nat.le_succ_of_le hge)]
    rfl

theorem prev_atIndex_zero : (atIndex l 0).prev = invalid := by
  cases l <;> rfl

theorem prev_atIndex_succ (h : i + 1 < l.length) : (atIndex l (i + 1)).prev = atIndex l i := by
  have hi : i < l.length := Nat.lt_of_succ_lt h
  rw [atIndex_of_lt h, atIndex_of_lt hi, List.take_succ_eq_append_getElem hi, List.reverse_append,
    List.reverse_singleton, List.singleton_append, List.drop_eq_getElem_cons h]
  rfl

theorem first_eq_atIndex (l : List α) : first l = atIndex l 0 := by
  cases l <;> rfl

theorem last_eq_atIndex (l : List α) : last l = atIndex l (l.length - 1) := by
  rcases List.eq_nil_or_concat l with rfl | ⟨front, a, rfl⟩
  · rfl
  · rw [last, List.concat_eq_append, List.reverse_append, List.length_append, List.length_singleton,
      Nat.add_sub_cancel, atIndex, List.drop_left, List.take_left]
    rfl

/-- A search ends at the first place that meets the condition. -/
theorem seek_eq_atIndex (p : α → Bool) (l : List α) : seek p l = atIndex l (l.findIdx p) := by
  have hfrom : ∀ (front rest : List α), seekFrom p front.reverse rest =
      atIndex (front ++ rest) (front.length + rest.findIdx p) := by
    intro front rest
    induction rest generalizing front with
    | nil =>
      rw [List.append_nil, atIndex_of_le (Nat.le_add_right _ _)]
      rfl
    | cons a rest ih =>
      rw [seekFrom, List.findIdx_cons]
      cases hp : p a with
      | true =>
        rw [if_pos rfl, cond_true, Nat.add_zero, atIndex, List.drop_left, List.take_left]
      | false =>
        have hnext := ih (front ++ [a])
        rw [List.reverse_append, List.reverse_singleton, List.singleton_append, List.append_assoc,
          List.singleton_append, List.length_append, List.length_singleton] at hnext
        rw [if_neg Bool.false_ne_true, cond_false, hnext]
        congr 1
        omega
  have h := hfrom [] l
  rwa [List.nil_append, List.length_nil, Nat.zero_add] at h

/-- The cursor at a place of a list, or at none. -/
def atPlace (l : List α) : Option Nat → Cursor α
  | some i => atIndex l i
  | none => invalid

theorem atPlace_of_lt (l : List α) (i : Nat) :
    atPlace l (if i < l.length then some i else none) = atIndex l i := by
  split_ifs with h
  · rfl
  · rw [atIndex_of_le (Nat.le_of_not_lt h), atPlace]

theorem current?_atPlace (l : List α) (place : Option Nat) :
    (atPlace l place).current? = place.bind fun i => l[i]? := by
  cases place with
  | none => rfl
  | some i => exact current?_atIndex l i

theorem seek_eq_atPlace (p : α → Bool) (l : List α) : seek p l = atPlace l (l.findIdx? p) := by
  rw [seek_eq_atIndex]
  cases h : l.findIdx? p with
  | none =>
    rw [atPlace, List.findIdx_eq_length.mpr (List.findIdx?_eq_none_iff.mp h),
      atIndex_of_le le_rfl]
  | some i => rw [atPlace, (List.findIdx?_eq_some_iff_findIdx_eq.mp h).2]

end Cursor

end WiscKey
