import Mathlib.Data.List.Nodup

/-!
# Lists in order of last use

A bounded list of entries, the one used last in front. An entry is known by its key: using it
again brings it to the front, and a new one takes the place of the last when the list is full.
-/

namespace WiscKey.Recency

variable {α β κ : Type} [DecidableEq κ]

/-- A new entry goes to the front, and the last one leaves a full list. -/
def push (capacity : Nat) (a : α) (l : List α) : List α :=
  a :: if l.length < capacity then l else l.dropLast

/-- The first entry of the key leaves the list. -/
def discard (keyOf : α → κ) (k : κ) (l : List α) : List α := l.eraseP fun a => keyOf a = k

/-- The first entry of the key goes to the front. -/
def touch (keyOf : α → κ) (k : κ) (l : List α) : List α :=
  match l.find? fun a => keyOf a = k with
  | some a => a :: discard keyOf k l
  | none => l

/-- What is documented of an insertion: a key that is listed goes to the front, and a new one
is pushed. -/
def use (capacity : Nat) (k : κ) (l : List κ) : List κ :=
  if k ∈ l then k :: l.erase k else push capacity k l

variable {keyOf : α → κ} {k : κ} {l l₁ l₂ : List α} {a : α} {capacity : Nat}

/-- An entry with no entry of its key in front of it is the first one. -/
theorem discard_append_cons (ha : keyOf a = k) (hfirst : ∀ b ∈ l₁, keyOf b ≠ k) :
    discard keyOf k (l₁ ++ a :: l₂) = l₁ ++ l₂ := by
  have hnone : ∀ b ∈ l₁, ¬ decide (keyOf b = k) = true := fun b hb => by simpa using hfirst b hb
  rw [discard, List.eraseP_append_right _ hnone, List.eraseP_cons_of_pos (by simpa using ha)]

theorem touch_append_cons (ha : keyOf a = k) (hfirst : ∀ b ∈ l₁, keyOf b ≠ k) :
    touch keyOf k (l₁ ++ a :: l₂) = a :: (l₁ ++ l₂) := by
  have hfind : (l₁ ++ a :: l₂).find? (fun a => keyOf a = k) = some a := by
    rw [List.find?_eq_some_iff_append]
    exact ⟨by simpa using ha, l₁, l₂, rfl, fun b hb => by simpa using hfirst b hb⟩
  simp only [touch, hfind, discard_append_cons ha hfirst]

theorem push_of_lt (h : l.length < capacity) : push capacity a l = a :: l := by
  rw [push, if_pos h]

theorem push_of_full (h : capacity ≤ l.length) : push capacity a l = a :: l.dropLast := by
  rw [push, if_neg (Nat.not_lt.mpr h)]

/-- Of the entries only the keys count. -/
theorem map_push (f : α → β) : (push capacity a l).map f = push capacity (f a) (l.map f) := by
  simp only [push, List.map_cons, List.length_map, apply_ite (List.map f), List.map_dropLast]

theorem map_discard : (discard keyOf k l).map keyOf = (l.map keyOf).erase k := by
  rw [discard, List.erase_eq_eraseP', List.eraseP_map]
  congr 2

theorem map_touch : (touch keyOf k l).map keyOf =
    if k ∈ l.map keyOf then k :: (l.map keyOf).erase k else l.map keyOf := by
  unfold touch
  split
  · rename_i a hfind
    have ha : keyOf a = k := by simpa using List.find?_some hfind
    have hmem : k ∈ l.map keyOf := List.mem_map.mpr ⟨a, List.mem_of_find?_eq_some hfind, ha⟩
    rw [if_pos hmem, List.map_cons, map_discard, ha]
  · rename_i hfind
    rw [if_neg]
    rintro hmem
    obtain ⟨a, ha, hk⟩ := List.mem_map.mp hmem
    have := List.find?_eq_none.mp hfind a ha
    simp [hk] at this

variable {keys : List κ}

omit [DecidableEq κ] in
/-- Different keys stay different when a new one is pushed. -/
theorem nodup_push (h : keys.Nodup) (hk : k ∉ keys) : (push capacity k keys).Nodup := by
  unfold push
  split
  · exact List.nodup_cons.mpr ⟨hk, h⟩
  · refine List.nodup_cons.mpr ⟨fun hm => hk ((List.dropLast_sublist _).subset hm), ?_⟩
    exact h.sublist (List.dropLast_sublist _)

/-- Pushing a key does what is documented of a use exactly when the key is new, or it is the last
of a full list and takes its own place. -/
theorem push_eq_use_iff (h : keys.Nodup) : push capacity k keys = use capacity k keys ↔
    k ∉ keys ∨ capacity ≤ keys.length ∧ keys.getLast? = some k := by
  unfold use
  by_cases hk : k ∈ keys
  · rw [if_pos hk]
    have hor : (k ∉ keys ∨ capacity ≤ keys.length ∧ keys.getLast? = some k) ↔
        capacity ≤ keys.length ∧ keys.getLast? = some k := or_iff_right (not_not.mpr hk)
    rw [hor]
    rcases Nat.lt_or_ge keys.length capacity with hlt | hge
    · rw [push_of_lt hlt]
      refine iff_of_false (fun he => ?_) fun hfull => absurd hfull.1 (Nat.not_le.mpr hlt)
      have hlength := congrArg List.length (List.cons.inj he).2
      rw [List.length_erase_of_mem hk] at hlength
      have := List.length_pos_of_mem hk
      omega
    · rw [push_of_full hge]
      obtain ⟨init, last, rfl⟩ := (List.eq_nil_or_concat keys).resolve_left (List.ne_nil_of_mem hk)
      rw [List.concat_eq_append] at *
      rw [List.dropLast_concat, List.getLast?_concat]
      obtain ⟨-, -, hdisjoint⟩ := List.nodup_append.mp h
      have hlast : last ∉ init := fun hm => hdisjoint last hm last (by simp) rfl
      rw [and_iff_right hge]
      constructor
      · intro he
        by_contra hne
        have hin : k ∈ init := by
          rcases List.mem_append.mp hk with hm | hm
          · exact hm
          · exact absurd (congrArg some (List.mem_singleton.mp hm).symm) hne
        have heq := (List.cons.inj he).2
        rw [List.erase_append_left _ hin] at heq
        exact hlast (heq ▸ List.mem_append_right _ (List.mem_singleton_self last))
      · intro he
        obtain rfl := Option.some.inj he
        rw [List.erase_append_right _ hlast, List.erase_cons_head, List.append_nil]
  · rw [if_neg hk]
    exact iff_of_true rfl (.inl hk)

end WiscKey.Recency
