import Mathlib.Data.List.Basic

/-!
# Segments laid one behind the other

Lists that are joined to one are found again in it through the places where they start. The
starts of all segments are the running total of their lengths.
-/

namespace WiscKey

variable {α : Type}

/-- Where the segment `i` of the joined list starts. -/
def segmentStart (l : List (List α)) (i : Nat) : Nat := (l.take i).flatten.length

/-- The starts of all segments. -/
def segmentStarts (l : List (List α)) : List Nat := (List.range l.length).map (segmentStart l)

variable {l m : List (List α)} {i j : Nat}

theorem segmentStart_length (l : List (List α)) :
    segmentStart l l.length = l.flatten.length := by
  rw [segmentStart, List.take_length]

theorem segmentStart_succ (h : i < l.length) :
    segmentStart l (i + 1) = segmentStart l i + l[i].length := by
  rw [segmentStart, segmentStart, List.take_succ_eq_append_getElem h, List.flatten_append,
    List.length_append, List.flatten_singleton]

theorem segmentStart_append (h : i ≤ l.length) : segmentStart (l ++ m) i = segmentStart l i := by
  rw [segmentStart, segmentStart, List.take_append_of_le_length h]

theorem segmentStart_le (l : List (List α)) (i : Nat) : segmentStart l i ≤ l.flatten.length := by
  have hsplit := congrArg List.flatten (List.take_append_drop i l)
  rw [List.flatten_append] at hsplit
  rw [segmentStart, ← hsplit, List.length_append]
  exact Nat.le_add_right _ _

/-- The joined list in front of a segment, the segment, and what is behind it. -/
theorem flatten_split (h : i < l.length) :
    (l.take i).flatten ++ (l[i] ++ (l.drop (i + 1)).flatten) = l.flatten := by
  have hsplit := congrArg List.flatten (List.take_append_drop i l)
  rwa [List.flatten_append, List.drop_eq_getElem_cons h, List.flatten_cons] at hsplit

/-- A segment is found at its start. -/
theorem take_drop_segmentStart (h : i < l.length) :
    (l.flatten.drop (segmentStart l i)).take l[i].length = l[i] := by
  rw [segmentStart, ← flatten_split h, List.drop_left, List.take_left]

@[simp] theorem length_segmentStarts (l : List (List α)) : (segmentStarts l).length = l.length := by
  rw [segmentStarts, List.length_map, List.length_range]

/-- One more segment starts where the others end. -/
theorem segmentStarts_concat (l : List (List α)) (s : List α) :
    segmentStarts (l ++ [s]) = segmentStarts l ++ [l.flatten.length] := by
  rw [segmentStarts, List.length_append, List.length_singleton, List.range_succ, List.map_append,
    List.map_singleton, segmentStart_append (Nat.le_refl _), segmentStart_length, segmentStarts]
  congr 1
  refine List.map_congr_left fun i hi => ?_
  exact segmentStart_append (Nat.le_of_lt (List.mem_range.mp hi))

theorem segmentStarts_getElem (h : i < (segmentStarts l).length) :
    (segmentStarts l)[i] = segmentStart l i := by
  simp [segmentStarts]

/-- The start of a segment, among the starts and the total. -/
theorem getElem_segmentStarts_concat (h : i < (segmentStarts l ++ [l.flatten.length]).length) :
    (segmentStarts l ++ [l.flatten.length])[i] = segmentStart l i := by
  rw [List.length_append, length_segmentStarts, List.length_singleton] at h
  rcases Nat.lt_succ_iff_lt_or_eq.mp h with hlt | rfl
  · rw [List.getElem_append_left (by simpa using hlt), segmentStarts_getElem]
  · rw [List.getElem_append_right (by simp), List.getElem_singleton, segmentStart_length]

section SameLength

variable {n offset k : Nat}

/-- Segments of one length start at its multiples. -/
theorem segmentStart_of_length (h : ∀ s ∈ l, s.length = n) (hi : i ≤ l.length) :
    segmentStart l i = i * n := by
  induction i with
  | zero => rw [segmentStart, List.take_zero, List.flatten_nil, List.length_nil, Nat.zero_mul]
  | succ i ih =>
    rw [segmentStart_succ hi, ih (Nat.le_of_succ_le hi), h _ (List.getElem_mem _), Nat.succ_mul]

theorem length_flatten_of_length (h : ∀ s ∈ l, s.length = n) : l.flatten.length = l.length * n := by
  rw [← segmentStart_length, segmentStart_of_length h (Nat.le_refl _)]

/-- A part of one of them is found there. -/
theorem take_drop_of_length (h : ∀ s ∈ l, s.length = n) (hi : i < l.length) (hk : offset + k ≤ n) :
    (l.flatten.drop (i * n + offset)).take k = (l[i].drop offset).take k := by
  have hlength := h _ (List.getElem_mem hi)
  rw [← segmentStart_of_length h (Nat.le_of_lt hi), segmentStart, ← flatten_split hi,
    List.drop_length_add_append, List.drop_append_of_le_length (by omega),
    List.take_append_of_le_length (by rw [List.length_drop]; omega)]

end SameLength

end WiscKey
