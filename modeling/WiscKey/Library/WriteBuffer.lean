import WiscKey.Library.Traced
import Mathlib.Logic.Basic

/-!
# A write buffer in front of a store

The store takes updates of its keys; the buffer holds back the updates of one key and
merges them, until another key is written or something is read. Where two updates of a key
are as good as their merger, nobody sees the buffer.
-/

namespace WiscKey

/-- A store whose updates of one key can be merged. -/
structure MergingStore (σ κ υ ρ ε : Type) where
  update : σ → κ → υ → Except ε σ
  read : σ → ρ → Except ε Bool
  merge : υ → υ → υ
  update_merge : ∀ s k u u',
    (update s k u >>= fun s => update s k u') = update s k (merge u u')

/-- What the store is asked for: an update, or reads up to the first that fails. -/
inductive StoreCommand (κ υ ρ : Type)
  | write (k : κ) (u : υ)
  | read (requests : List ρ)

/-- A store with the updates of one key held back. -/
structure Buffered (σ κ υ : Type) where
  store : σ
  pending : Option (κ × υ)

namespace MergingStore

variable {σ κ υ ρ ε : Type} (m : MergingStore σ κ υ ρ ε)

/-- Reads up to the first that fails. -/
def readAll (s : σ) : List ρ → Traced Bool ε PUnit
  | [] => pure ⟨⟩
  | r :: rest => do
    let found ← Traced.answer (m.read s r)
    if found then readAll s rest else pure ⟨⟩

/-- A command, carried out at once. -/
def direct (s : σ) : StoreCommand κ υ ρ → Traced Bool ε σ
  | .write k u => .lift (m.update s k u)
  | .read requests => do
    m.readAll s requests
    pure s

/-- The store after the pending updates. -/
def flush (b : Buffered σ κ υ) : Except ε σ :=
  match b.pending with
  | none => .ok b.store
  | some (k, u) => m.update b.store k u

variable [DecidableEq κ]

/-- A command, carried out through the buffer. -/
def buffered (b : Buffered σ κ υ) : StoreCommand κ υ ρ → Traced Bool ε (Buffered σ κ υ)
  | .write k u =>
    match b.pending with
    | none => pure ⟨b.store, some (k, u)⟩
    | some (k', u') =>
      if k' = k then pure ⟨b.store, some (k, m.merge u' u)⟩
      else do
        let s ← Traced.lift (m.update b.store k' u')
        pure ⟨s, some (k, u)⟩
  | .read [] => pure b
  | .read (r :: rest) => do
    let s ← Traced.lift (m.flush b)
    m.readAll s (r :: rest)
    pure ⟨s, none⟩

/-- A command through the buffer and a flush do what a flush and the command do. -/
theorem buffered_flush (b : Buffered σ κ υ) (c : StoreCommand κ υ ρ) :
    (m.buffered b c >>= fun b => Traced.lift (m.flush b)) =
      (Traced.lift (m.flush b) >>= fun s => m.direct s c) := by
  obtain ⟨s, pending⟩ := b
  cases c with
  | write k u =>
    cases pending with
    | none => rfl
    | some ku =>
      obtain ⟨k', u'⟩ := ku
      by_cases hk : k' = k
      · subst k'
        have hmerge := m.update_merge s k u' u
        simp only [buffered, if_true, Traced.pure_bind, flush, direct]
        rw [← hmerge]
        cases m.update s k u' with
        | error e => rfl
        | ok s₁ => rfl
      · simp only [buffered, if_neg hk, flush, direct]
        cases m.update s k' u' with
        | error e => rfl
        | ok s₁ => rfl
  | read requests =>
    cases requests with
    | nil =>
      change Traced.lift (m.flush ⟨s, pending⟩) = (Traced.lift (m.flush ⟨s, pending⟩) >>= pure)
      rw [Traced.bind_pure]
    | cons r rest =>
      simp only [buffered, direct, Traced.bind_assoc, Traced.pure_bind]
      rfl

/-- A run through the buffer with a flush at its end gives the answers and the result of the
direct run, from a buffer with nothing pending. -/
theorem buffered_run (cs : List (StoreCommand κ υ ρ)) (b : Buffered σ κ υ) :
    (cs.foldlM m.buffered b >>= fun b => Traced.lift (m.flush b)) =
      (Traced.lift (m.flush b) >>= fun s => cs.foldlM m.direct s) := by
  induction cs generalizing b with
  | nil =>
    simp only [List.foldlM_nil, Traced.pure_bind]
    exact (Traced.bind_pure _).symm
  | cons c cs ih =>
    simp only [List.foldlM_cons, Traced.bind_assoc, ih]
    rw [← Traced.bind_assoc, m.buffered_flush, Traced.bind_assoc]

end MergingStore

end WiscKey
