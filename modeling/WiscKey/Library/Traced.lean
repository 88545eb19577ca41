import Mathlib.Init

/-!
# Fallible programs that log answers

A program that may fail half way still has given the answers before its failure. Two
programs correspond when they give the same answers, fail alike, and otherwise end in
related results.
-/

namespace WiscKey

/-- The answers a program gave, and how it ended. -/
structure Traced (ω ε α : Type) where
  log : List ω
  result : Except ε α

namespace Traced

variable {ω ε α β γ δ : Type}

/-- The answers come in the order of the steps. -/
def andThen (m : Traced ω ε α) (next : α → Traced ω ε β) : Traced ω ε β :=
  match m.result with
  | .ok a => ⟨m.log ++ (next a).log, (next a).result⟩
  | .error e => ⟨m.log, .error e⟩

instance : Monad (Traced ω ε) where
  pure a := ⟨[], .ok a⟩
  bind := andThen

/-- A step without an answer. -/
def lift (r : Except ε α) : Traced ω ε α := ⟨[], r⟩

/-- A step that gives its result as an answer. -/
def answer (r : Except ε ω) : Traced ω ε ω :=
  match r with
  | .ok a => ⟨[a], .ok a⟩
  | .error e => ⟨[], .error e⟩

@[simp] theorem pure_bind (a : α) (next : α → Traced ω ε β) : (pure a >>= next) = next a := rfl

@[simp] theorem lift_ok_bind (a : α) (next : α → Traced ω ε β) :
    (lift (.ok a) >>= next) = next a := rfl

@[simp] theorem lift_error_bind (e : ε) (next : α → Traced ω ε β) :
    (lift (.error e) >>= next) = lift (.error e) := rfl

theorem lift_bind (r : Except ε α) (f : α → Except ε β) :
    (lift (r >>= f) : Traced ω ε β) = lift r >>= fun a => lift (f a) := by
  cases r with
  | ok a => rfl
  | error e => rfl

theorem bind_pure (m : Traced ω ε α) : (m >>= pure) = m := by
  obtain ⟨log, result⟩ := m
  cases result with
  | ok a =>
    change (⟨log ++ [], .ok a⟩ : Traced ω ε α) = _
    rw [List.append_nil]
  | error e => rfl

theorem bind_assoc (m : Traced ω ε α) (f : α → Traced ω ε β) (h : β → Traced ω ε γ) :
    (m >>= f >>= h) = m >>= fun a => f a >>= h := by
  obtain ⟨log, result⟩ := m
  cases result with
  | error e => rfl
  | ok a =>
    change andThen ⟨log ++ (f a).log, (f a).result⟩ h =
      ⟨log ++ (andThen (f a) h).log, (andThen (f a) h).result⟩
    unfold andThen
    cases hf : (f a).result with
    | error e => rfl
    | ok b => simp only [List.append_assoc]

instance : LawfulMonad (Traced ω ε) :=
  LawfulMonad.mk' _ (fun m => bind_pure m) (fun _ _ => rfl) fun m f h => bind_assoc m f h

/-- A loop over lists put together, as a loop of loops. -/
theorem foldlM_flatMap {ι κ : Type} (f : α → κ → Traced ω ε α) (h : ι → List κ) (l : List ι)
    (a : α) : (l.flatMap h).foldlM f a = l.foldlM (fun a i => (h i).foldlM f a) a := by
  induction l generalizing a with
  | nil => rfl
  | cons i l ih =>
    rw [List.flatMap_cons, List.foldlM_append, List.foldlM_cons]
    exact congrArg _ (funext ih)

/-- Two ends of programs: alike failures, or related results. -/
inductive Ends (R : α → β → Prop) : Except ε α → Except ε β → Prop
  | ok {a : α} {b : β} (h : R a b) : Ends R (.ok a) (.ok b)
  | error (e : ε) : Ends R (.error e) (.error e)

/-- The programs give the same answers and end alike. -/
structure Corresponds (R : α → β → Prop) (m : Traced ω ε α) (n : Traced ω ε β) : Prop where
  log : m.log = n.log
  ends : Ends R m.result n.result

theorem Corresponds.refl (m : Traced ω ε α) : Corresponds Eq m m := by
  obtain ⟨log, result⟩ := m
  cases result with
  | ok a => exact ⟨rfl, .ok rfl⟩
  | error e => exact ⟨rfl, .error e⟩

theorem Corresponds.pure {R : α → β → Prop} {a : α} {b : β} (h : R a b) :
    Corresponds R (pure a : Traced ω ε α) (pure b) := ⟨rfl, .ok h⟩

theorem Corresponds.lift {R : α → β → Prop} {r : Except ε α} {r' : Except ε β}
    (h : Ends R r r') : Corresponds R (lift r : Traced ω ε α) (lift r') := ⟨rfl, h⟩

/-- Corresponding steps, followed by programs that correspond on related results. -/
theorem Corresponds.bind {R : α → β → Prop} {Q : γ → δ → Prop} {m : Traced ω ε α}
    {n : Traced ω ε β} {f : α → Traced ω ε γ} {h : β → Traced ω ε δ} (hmn : Corresponds R m n)
    (hnext : ∀ a b, R a b → Corresponds Q (f a) (h b)) : Corresponds Q (m >>= f) (n >>= h) := by
  obtain ⟨log, result⟩ := m
  obtain ⟨log', result'⟩ := n
  obtain ⟨hlog, hends⟩ := hmn
  obtain rfl : log = log' := hlog
  cases hends with
  | error e => exact ⟨rfl, .error e⟩
  | @ok a b hab =>
    obtain ⟨hlog', hends'⟩ := hnext a b hab
    exact ⟨congrArg (log ++ ·) hlog', hends'⟩

theorem Corresponds.mono {R Q : α → β → Prop} {m : Traced ω ε α} {n : Traced ω ε β}
    (h : Corresponds R m n) (hRQ : ∀ a b, R a b → Q a b) : Corresponds Q m n := by
  obtain ⟨log, result⟩ := m
  obtain ⟨log', result'⟩ := n
  obtain ⟨hlog, hends⟩ := h
  cases hends with
  | error e => exact ⟨hlog, .error e⟩
  | ok hab => exact ⟨hlog, .ok (hRQ _ _ hab)⟩

/-- Two programs that correspond to a third one. -/
theorem Corresponds.join {R : α → γ → Prop} {Q : β → γ → Prop} {m : Traced ω ε α}
    {m' : Traced ω ε β} {n : Traced ω ε γ} (h : Corresponds R m n) (h' : Corresponds Q m' n) :
    Corresponds (fun a b => ∃ c, R a c ∧ Q b c) m m' := by
  obtain ⟨log, result⟩ := m
  obtain ⟨log', result'⟩ := m'
  obtain ⟨log₁, result₁⟩ := n
  obtain ⟨hlog, hends⟩ := h
  obtain ⟨hlog', hends'⟩ := h'
  refine ⟨hlog.trans hlog'.symm, ?_⟩
  cases hends with
  | error e =>
    cases hends' with
    | error => exact .error e
  | @ok a c hac =>
    cases hends' with
    | @ok b _ hbc => exact .ok ⟨c, hac, hbc⟩

/-- The same loop of corresponding rounds. -/
theorem Corresponds.foldlM {ι : Type} {R : α → β → Prop} {f : α → ι → Traced ω ε α}
    {h : β → ι → Traced ω ε β} {l : List ι}
    (hstep : ∀ i ∈ l, ∀ a b, R a b → Corresponds R (f a i) (h b i)) {a : α} {b : β}
    (hab : R a b) : Corresponds R (l.foldlM f a) (l.foldlM h b) := by
  induction l generalizing a b with
  | nil => exact .pure hab
  | cons i l ih =>
    rw [List.foldlM_cons, List.foldlM_cons]
    refine (hstep i List.mem_cons_self a b hab).bind fun a' b' h' => ?_
    exact ih (fun j hj => hstep j (List.mem_cons_of_mem _ hj)) h'

end Traced

end WiscKey
