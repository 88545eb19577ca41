import Mathlib.Data.Set.Basic
import Mathlib.Data.List.Pairwise

/-!
# Searches through sources in order

A search asks one source after the other and ends at the first that answers. If each answers with
an element of its highest rank, and nothing behind a source is above its answer, then the search
answers for all of them.
-/

namespace WiscKey

variable {α ι : Type} (rank : α → Nat)

/-- The answer is an element of the highest rank, or there is none. -/
def Highest (s : Set α) : Option α → Prop
  | none => s = ∅
  | some a => a ∈ s ∧ ∀ b ∈ s, rank b ≤ rank a

variable {rank} {s t : Set α} {answer : Option α} {answers : ι → Option α}
  {elements : ι → Set α} {sources : List ι}

theorem Highest.mem {a : α} (h : Highest rank s answer) (ha : a ∈ answer) : a ∈ s := by
  subst ha
  exact h.1

theorem Highest.le {a b : α} (h : Highest rank s answer) (ha : a ∈ answer) (hb : b ∈ s) :
    rank b ≤ rank a := by
  subst ha
  exact h.2 b hb

/-- A search depends on the answers of its sources only. -/
theorem findSome?_congr_of_mem {answers' : ι → Option α}
    (h : ∀ i ∈ sources, answers i = answers' i) :
    sources.findSome? answers = sources.findSome? answers' := by
  induction sources with
  | nil => rfl
  | cons i sources ih =>
    rw [List.findSome?_cons, List.findSome?_cons, h i List.mem_cons_self,
      ih fun j hj => h j (List.mem_cons_of_mem _ hj)]

/-- A search in what other sources lead to. -/
theorem findSome?_filterMap_eq {κ : Type} {next : κ → Option ι} (keys : List κ) :
    (keys.filterMap next).findSome? answers = keys.findSome? fun k => (next k).bind answers := by
  induction keys with
  | nil => rfl
  | cons k keys ih =>
    rw [List.filterMap_cons, List.findSome?_cons]
    cases next k with
    | none => exact ih
    | some i =>
      rw [List.findSome?_cons, ih]
      rfl

/-- A search in two sources. -/
theorem Highest.orElse {answer' : Option α} (h : Highest rank s answer)
    (h' : Highest rank t answer') (hle : ∀ a ∈ answer, ∀ b ∈ t, rank b ≤ rank a) :
    Highest rank (s ∪ t) (answer.or answer') := by
  cases answer with
  | none =>
    obtain rfl : s = ∅ := h
    rw [Set.empty_union]
    exact h'
  | some a =>
    refine ⟨.inl h.1, ?_⟩
    rintro b (hb | hb)
    · exact h.2 b hb
    · exact hle a rfl b hb

/-- A search in sources, where nothing behind a source is above its answer. -/
theorem Highest.findSome? (h : ∀ i ∈ sources, Highest rank (elements i) (answers i))
    (hle : sources.Pairwise fun i j => ∀ a ∈ answers i, ∀ b ∈ elements j, rank b ≤ rank a) :
    Highest rank {a | ∃ i ∈ sources, a ∈ elements i} (sources.findSome? answers) := by
  induction sources with
  | nil => exact Set.eq_empty_of_forall_notMem fun a ⟨i, hi, _⟩ => absurd hi List.not_mem_nil
  | cons i sources ih =>
    obtain ⟨hhead, hrest⟩ := List.pairwise_cons.mp hle
    have hor := (h i List.mem_cons_self).orElse
      (ih (fun j hj => h j (List.mem_cons_of_mem _ hj)) hrest) (by
        rintro a ha b ⟨j, hj, hb⟩
        exact hhead j hj a ha b hb)
    have hset : {a | ∃ j ∈ i :: sources, a ∈ elements j} =
        elements i ∪ {a | ∃ j ∈ sources, a ∈ elements j} := by
      ext a
      simp
    have hsearch : (i :: sources).findSome? answers =
        (answers i).or (sources.findSome? answers) := by
      rw [List.findSome?_cons]
      cases answers i with
      | none => rfl
      | some a => rfl
    rw [hset, hsearch]
    exact hor

end WiscKey
