import Mathlib.Init

/-!
# Postconditions of fallible programs

A program over `Except` meets a postcondition when its result satisfies it, and fails, if
it does, in an allowed way. The rules follow the program: one for each way of combining
its steps.
-/

namespace WiscKey

variable {ε α β : Type} {allowed : ε → Prop}

/-- A result satisfies `post`, a failure is one of the `allowed`. -/
def Meets (allowed : ε → Prop) (post : α → Prop) : Except ε α → Prop
  | .ok a => post a
  | .error e => allowed e

@[simp] theorem meets_ok {post : α → Prop} {a : α} :
    Meets allowed post (Except.ok a : Except ε α) ↔ post a := Iff.rfl

@[simp] theorem meets_error {post : α → Prop} {e : ε} :
    Meets allowed post (Except.error e : Except ε α) ↔ allowed e := Iff.rfl

/-- A step that returns is followed by the next. -/
theorem ok_bind (a : α) (next : α → Except ε β) : (Except.ok a >>= next) = next a := rfl

theorem Meets.of_ok {post : α → Prop} {r : Except ε α} {a : α} (h : Meets allowed post r)
    (hr : r = .ok a) : post a := by
  rw [hr] at h
  exact h

theorem Meets.of_error {post : α → Prop} {r : Except ε α} {e : ε} (h : Meets allowed post r)
    (hr : r = .error e) : allowed e := by
  rw [hr] at h
  exact h

/-- A program that is allowed no failure returns. -/
theorem Meets.exists_ok {post : α → Prop} {r : Except ε α} (h : Meets (fun _ => False) post r) :
    ∃ a, r = .ok a ∧ post a := by
  cases r with
  | ok a => exact ⟨a, rfl, h⟩
  | error e => exact h.elim

theorem Meets.mono {post post' : α → Prop} {r : Except ε α} (h : Meets allowed post r)
    (hpost : ∀ a, post a → post' a) : Meets allowed post' r := by
  cases r with
  | ok a => exact hpost a h
  | error e => exact h

/-- More failures are allowed. -/
theorem Meets.allow {allowed' : ε → Prop} {post : α → Prop} {r : Except ε α}
    (h : Meets allowed post r) (hallowed : ∀ e, allowed e → allowed' e) : Meets allowed' post r := by
  cases r with
  | ok a => exact h
  | error e => exact hallowed e h

/-- Two postconditions of one program. -/
theorem Meets.and {allowed' : ε → Prop} {post post' : α → Prop} {r : Except ε α}
    (h : Meets allowed post r) (h' : Meets allowed' post' r) :
    Meets allowed (fun a => post a ∧ post' a) r := by
  cases r with
  | ok a => exact ⟨h, h'⟩
  | error e => exact h

/-- Two steps in a row. -/
theorem Meets.bind {mid : α → Prop} {post : β → Prop} {r : Except ε α} {next : α → Except ε β}
    (h : Meets allowed mid r) (hnext : ∀ a, mid a → Meets allowed post (next a)) :
    Meets allowed post (r >>= next) := by
  cases r with
  | ok a => exact hnext a h
  | error e => exact h

/-- A counting loop, by an invariant indexed by the number of rounds done. -/
theorem Meets.foldlM_range {step : β → Nat → Except ε β} {n : Nat} (inv : Nat → β → Prop) {b : β}
    (h : inv 0 b) (hstep : ∀ i < n, ∀ b, inv i b → Meets allowed (inv (i + 1)) (step b i)) :
    Meets allowed (inv n) ((List.range n).foldlM step b) := by
  induction n with
  | zero => exact h
  | succ n ih =>
    rw [List.range_succ, List.foldlM_append]
    refine (ih fun i hi => hstep i (Nat.lt_succ_of_lt hi)).bind fun b hb => ?_
    simpa using hstep n (Nat.lt_succ_self n) b hb

/-- A loop over a list, by an invariant. -/
theorem Meets.foldlM {step : β → α → Except ε β} {l : List α} (inv : β → Prop) {b : β} (h : inv b)
    (hstep : ∀ a ∈ l, ∀ b, inv b → Meets allowed inv (step b a)) :
    Meets allowed inv (l.foldlM step b) := by
  induction l generalizing b with
  | nil => exact h
  | cons a l ih =>
    rw [List.foldlM_cons]
    refine (hstep a List.mem_cons_self b h).bind fun b' hb' => ?_
    exact ih hb' fun a' ha' => hstep a' (List.mem_cons_of_mem _ ha')

/-- Two steps in a row, over more state than two others that agree on what they share. -/
theorem map_bind_eq {α' β' : Type} {p : α → α'} {q : β → β'} {r : Except ε α} {r' : Except ε α'}
    {next : α → Except ε β} {next' : α' → Except ε β'} (hr : r.map p = r')
    (hnext : ∀ a, (next a).map q = next' (p a)) : (r >>= next).map q = r' >>= next' := by
  subst hr
  cases r with
  | error e => rfl
  | ok a => exact hnext a

/-- A loop over more state than another one, whose rounds agree on what the two share. -/
theorem foldlM_map {σ τ : Type} {p : σ → τ} {f : σ → α → Except ε σ} {h : τ → α → Except ε τ}
    (hstep : ∀ s a, (f s a).map p = h (p s) a) (l : List α) (s : σ) :
    (l.foldlM f s).map p = l.foldlM h (p s) := by
  induction l generalizing s with
  | nil => rfl
  | cons a l ih =>
    rw [List.foldlM_cons, List.foldlM_cons]
    exact map_bind_eq (hstep s a) ih

end WiscKey
