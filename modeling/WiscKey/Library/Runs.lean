import Mathlib.Logic.Basic

/-!
# Runs of a labelled step relation

The finite runs of a system, the invariants a step keeps, and the runs whose steps
all meet a condition on the state before them.
-/

namespace WiscKey

variable {σ α : Type}

/-- A finite run: the labels of its steps, one after the other. -/
inductive Run (step : σ → α → σ → Prop) : σ → List α → σ → Prop
  | nil (s : σ) : Run step s [] s
  | cons {s s₁ s' : σ} {a : α} {rest : List α} (head : step s a s₁)
      (tail : Run step s₁ rest s') : Run step s (a :: rest) s'

/-- The steps that meet a condition on the state before them. -/
def StepWhen (step : σ → α → σ → Prop) (cond : σ → α → Prop) (s : σ) (a : α) (s' : σ) : Prop :=
  cond s a ∧ step s a s'

/-- Every step along the labels starts in a state that meets a condition, however the steps
before it went. -/
def Throughout (step : σ → α → σ → Prop) (cond : σ → α → Prop) : σ → List α → Prop
  | _, [] => True
  | s, a :: rest => cond s a ∧ ∀ s', step s a s' → Throughout step cond s' rest

namespace Run

variable {step : σ → α → σ → Prop} {s s' : σ} {actions : List α}

/-- What every step keeps holds after a run. -/
theorem invariant (inv : σ → Prop) (hrun : Run step s actions s') (h : inv s)
    (hstep : ∀ s a s', inv s → step s a s' → inv s') : inv s' := by
  induction hrun with
  | nil => exact h
  | cons head tail ih => exact ih (hstep _ _ _ h head)

/-- A run of steps that are also steps of another relation. -/
theorem mono {step' : σ → α → σ → Prop} (hrun : Run step s actions s')
    (hstep : ∀ s a s', step s a s' → step' s a s') : Run step' s actions s' := by
  induction hrun with
  | nil => exact .nil _
  | cons head _ ih => exact .cons (hstep _ _ _ head) ih

/-- A run after another one. -/
theorem append {more : List α} {s'' : σ} (hrun : Run step s actions s')
    (hmore : Run step s' more s'') : Run step s (actions ++ more) s'' := by
  induction hrun with
  | nil => exact hmore
  | cons head _ ih => exact .cons head (ih hmore)

/-- One more step at the end of a run. -/
theorem concat {a : α} {s'' : σ} (hrun : Run step s actions s') (hstep : step s' a s'') :
    Run step s (actions ++ [a]) s'' := by
  induction hrun with
  | nil => exact .cons hstep (.nil _)
  | cons head _ ih => exact .cons head (ih hstep)

/-- A run of one step. -/
theorem singleton_iff {a : α} : Run step s [a] s' ↔ step s a s' := by
  constructor
  · rintro (_ | ⟨head, tail⟩)
    cases tail
    exact head
  · exact fun head => .cons head (.nil s')

/-- A loop of fallible calls that returns is a run of the calls. -/
theorem of_foldlM_ok {ε : Type} {f : σ → α → Except ε σ} {l : List α}
    (hstep : ∀ s a s', f s a = .ok s' → step s a s') (h : l.foldlM f s = .ok s') :
    Run step s l s' := by
  induction l generalizing s with
  | nil =>
    obtain rfl : s = s' := Except.ok.inj h
    exact .nil s
  | cons a l ih =>
    rw [List.foldlM_cons] at h
    cases hf : f s a with
    | error e =>
      rw [hf] at h
      cases h
    | ok s₁ =>
      rw [hf] at h
      exact .cons (hstep s a s₁ hf) (ih h)

/-- Such a loop has a run of the calls, if it returns at all. -/
theorem of_foldlM {ε : Type} {f : σ → α → Except ε σ} {l : List α}
    (hstep : ∀ s a s', f s a = .ok s' → step s a s') (h : (l.foldlM f s).isOk = true) :
    ∃ s', Run step s l s' := by
  cases hf : l.foldlM f s with
  | error e =>
    rw [hf] at h
    cases h
  | ok s' => exact ⟨s', of_foldlM_ok hstep hf⟩

end Run

namespace Throughout

variable {step : σ → α → σ → Prop} {cond cond' : σ → α → Prop} {s s' : σ} {actions : List α}

/-- The condition after a run. -/
theorem of_run {a : α} {rest : List α} (h : Throughout step cond s (actions ++ a :: rest))
    (hrun : Run step s actions s') : cond s' a := by
  induction hrun with
  | nil => exact h.1
  | cons head _ ih => exact ih (h.2 _ head)

/-- Two conditions that agree wherever steps under the second one lead. -/
theorem congr (inv : σ → Prop) (label : α → Prop)
    (hstep : ∀ s a s', inv s → label a → cond' s a → step s a s' → inv s')
    (hiff : ∀ s a, inv s → label a → (cond s a ↔ cond' s a)) (h : inv s)
    (hlabel : ∀ a ∈ actions, label a) :
    Throughout step cond s actions ↔ Throughout step cond' s actions := by
  induction actions generalizing s with
  | nil => exact Iff.rfl
  | cons a rest ih =>
    have ha := hlabel a List.mem_cons_self
    have hrest : ∀ a ∈ rest, label a := fun a hm => hlabel a (List.mem_cons_of_mem _ hm)
    unfold Throughout
    rw [hiff s a h ha]
    refine and_congr_right fun hcond => forall_congr' fun s₁ => forall_congr' fun hs₁ => ?_
    exact ih (hstep s a s₁ h ha hcond hs₁) hrest

/-- Two conditions that agree at every step of a run, whose steps are determined by their labels. -/
theorem congr_run (inv : σ → Prop)
    (hdet : ∀ s a s₁ s₂, step s a s₁ → step s a s₂ → s₁ = s₂)
    (hstep : ∀ s a s', inv s → cond' s a → step s a s' → inv s')
    (hiff : ∀ s a s', inv s → step s a s' → (cond s a ↔ cond' s a))
    (hrun : Run step s actions s') (h : inv s) :
    Throughout step cond s actions ↔ Throughout step cond' s actions := by
  induction hrun with
  | nil => exact Iff.rfl
  | @cons s s₁ s' a rest head tail ih =>
    have hnext : ∀ cond : σ → α → Prop, (∀ s₂, step s a s₂ → Throughout step cond s₂ rest) ↔
        Throughout step cond s₁ rest := fun cond =>
      ⟨fun hall => hall s₁ head, fun hrest s₂ hs₂ => hdet s a s₁ s₂ head hs₂ ▸ hrest⟩
    unfold Throughout
    rw [hnext, hnext, hiff s a s₁ h head]
    exact and_congr_right fun hcond => ih (hstep s a s₁ h hcond head)

end Throughout

end WiscKey
