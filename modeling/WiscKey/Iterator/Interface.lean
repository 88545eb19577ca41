import WiscKey.Library.Cursor
import WiscKey.Core.DbFormat

/-!
# Iterators

The calls of an iterator, of whatever type it is, and what it means that an iterator shows what a
cursor over sorted entries shows. An iterator whose position is known by its entry moves as the
order of the entries tells.
-/

namespace WiscKey

/-- The direction that an iterator moves in. -/
inductive Direction
  | forward
  | reverse
  deriving DecidableEq, Repr

/-- A call that moves an iterator. -/
inductive IterCall
  | seekToFirst
  | seekToLast
  | seek (target : Bytes)
  | next
  | prev
  deriving DecidableEq, Repr

/-- The order of the keys of a map. -/
def Comparator.comparePair (ucmp : Comparator) (a b : Bytes × Bytes) : Ordering :=
  ucmp.compare a.1 b.1

instance (ucmp : Comparator) : Std.TransCmp ucmp.comparePair :=
  letI : Ord Bytes := ⟨ucmp.compare⟩
  haveI : Std.TransOrd Bytes := inferInstanceAs (Std.TransCmp ucmp.compare)
  inferInstanceAs (Std.TransCmp (compareOn fun a : Bytes × Bytes => a.1))

/-- The same move of a cursor over a map. -/
def Cursor.call (ucmp : Comparator) (m : List (Bytes × Bytes)) (c : Cursor (Bytes × Bytes)) :
    IterCall → Cursor (Bytes × Bytes)
  | .seekToFirst => Cursor.first m
  | .seekToLast => Cursor.last m
  | .seek target => Cursor.seek (fun p => ucmp.compare p.1 target ≠ .lt) m
  | .next => c.next
  | .prev => c.prev

/-- `Iterator`: the virtual functions, for iterators of one type. -/
structure IterOps (σ : Type) where
  valid : σ → Bool
  key : σ → Bytes
  value : σ → Bytes
  status : σ → Status
  seekToFirst : σ → σ
  seekToLast : σ → σ
  seek : Bytes → σ → σ
  next : σ → σ
  prev : σ → σ

namespace IterOps

variable {σ : Type} (ops : IterOps σ) (cmp : Comparator) (entries : List (Bytes × Bytes))

/-- The entry that an iterator shows. -/
def shown? (s : σ) : Option (Bytes × Bytes) :=
  if ops.valid s then some (ops.key s, ops.value s) else none

/-- A call of an iterator. -/
def call (s : σ) : IterCall → σ
  | .seekToFirst => ops.seekToFirst s
  | .seekToLast => ops.seekToLast s
  | .seek target => ops.seek target s
  | .next => ops.next s
  | .prev => ops.prev s

/-- `Next` and `Prev` ask for a valid iterator. -/
def Allowed (s : σ) : IterCall → Prop
  | .next | .prev => ops.valid s = true
  | _ => True

/-- The iterator shows what the cursor shows, at first and after each of the calls. -/
def AgreesWith (s : σ) (c : Cursor (Bytes × Bytes)) : List IterCall → Prop
  | [] => ops.shown? s = c.current?
  | call :: calls => ops.shown? s = c.current? ∧
      (ops.Allowed s call → AgreesWith (ops.call s call) (c.call cmp entries call) calls)

/-- The iterator shows what the cursor over the entries shows, after every sequence of calls. -/
def Follows (s : σ) (c : Cursor (Bytes × Bytes)) : Prop :=
  ∀ calls, ops.AgreesWith cmp entries s c calls

/-- The iterator is at an entry of the sorted ones, or at none. -/
def At (s : σ) (e : Option (Bytes × Bytes)) : Prop :=
  ∃ c, ops.Follows cmp entries s c ∧ c.Over entries ∧ c.current? = e

variable {ops cmp entries} {s : σ} {c : Cursor (Bytes × Bytes)} {e : Bytes × Bytes}
  {o : Option (Bytes × Bytes)}

theorem Follows.shown? (h : ops.Follows cmp entries s c) : ops.shown? s = c.current? := h []

theorem Follows.call (h : ops.Follows cmp entries s c) (call : IterCall)
    (hallowed : ops.Allowed s call) :
    ops.Follows cmp entries (ops.call s call) (c.call cmp entries call) :=
  fun calls => (h (call :: calls)).2 hallowed

/-- An iterator follows a cursor if every call keeps a relation in which they show the same. -/
theorem follows_of_relation {R : σ → Cursor (Bytes × Bytes) → Prop}
    (hentry : ∀ s c, R s c → ops.shown? s = c.current?)
    (hcall : ∀ s c call, R s c → ops.Allowed s call → R (ops.call s call) (c.call cmp entries call))
    (h : R s c) : ops.Follows cmp entries s c := by
  intro calls
  induction calls generalizing s c with
  | nil => exact hentry s c h
  | cons call calls ih => exact ⟨hentry s c h, fun hallowed => ih (hcall s c call h hallowed)⟩

theorem valid_iff : ops.valid s = true ↔ (ops.shown? s).isSome := by
  rw [IterOps.shown?]
  split <;> simp_all

theorem key_eq (h : ops.shown? s = some e) : ops.key s = e.1 := by
  rw [IterOps.shown?] at h
  split at h
  · exact congrArg Prod.fst (Option.some.inj h)
  · exact nomatch h

theorem value_eq (h : ops.shown? s = some e) : ops.value s = e.2 := by
  rw [IterOps.shown?] at h
  split at h
  · exact congrArg Prod.snd (Option.some.inj h)
  · exact nomatch h

theorem At.shown? (h : ops.At cmp entries s o) : ops.shown? s = o := by
  obtain ⟨c, hfollows, -, hcurrent⟩ := h
  rw [hfollows.shown?, hcurrent]

theorem At.mem (h : ops.At cmp entries s (some e)) : e ∈ entries := by
  obtain ⟨c, -, hover, hcurrent⟩ := h
  cases c with
  | invalid => exact nomatch hcurrent
  | on before a after =>
    obtain rfl := Option.some.inj hcurrent
    rw [← hover]
    exact List.mem_append_right _ List.mem_cons_self

section Moves

theorem At.seek (h : ops.At cmp entries s o) (target : Bytes) : ops.At cmp entries
    (ops.seek target s) (entries.find? fun p => cmp.compare p.1 target ≠ .lt) := by
  obtain ⟨c, hfollows, -, -⟩ := h
  exact ⟨_, hfollows.call (.seek target) trivial, Cursor.over_seek _, Cursor.current?_seek _⟩

theorem At.seekToFirst (h : ops.At cmp entries s o) : ops.At cmp entries
    (ops.seekToFirst s) (entries.find? fun _ => true) := by
  obtain ⟨c, hfollows, -, -⟩ := h
  exact ⟨_, hfollows.call .seekToFirst trivial, Cursor.over_first, Cursor.current?_first⟩

theorem At.seekToLast (h : ops.At cmp entries s o) : ops.At cmp entries
    (ops.seekToLast s) (entries.reverse.find? fun _ => true) := by
  obtain ⟨c, hfollows, -, -⟩ := h
  exact ⟨_, hfollows.call .seekToLast trivial, Cursor.over_last, Cursor.current?_last⟩

theorem At.next (h : ops.At cmp entries s (some e)) (hinc : Increasing cmp.comparePair entries) :
    ops.At cmp entries (ops.next s) (entries.find? fun p => cmp.comparePair e p = .lt) := by
  obtain ⟨c, hfollows, hover, hcurrent⟩ := h
  have hallowed : ops.Allowed s .next := valid_iff.mpr (by rw [hfollows.shown?, hcurrent]; rfl)
  refine ⟨_, hfollows.call .next hallowed, hover.next, ?_⟩
  cases c with
  | invalid => exact nomatch hcurrent
  | on before a after =>
    obtain rfl := Option.some.inj hcurrent
    exact Cursor.current?_next hinc hover

theorem At.prev (h : ops.At cmp entries s (some e)) (hinc : Increasing cmp.comparePair entries) :
    ops.At cmp entries (ops.prev s) (entries.reverse.find? fun p => cmp.comparePair p e = .lt) := by
  obtain ⟨c, hfollows, hover, hcurrent⟩ := h
  have hallowed : ops.Allowed s .prev := valid_iff.mpr (by rw [hfollows.shown?, hcurrent]; rfl)
  refine ⟨_, hfollows.call .prev hallowed, hover.prev, ?_⟩
  cases c with
  | invalid => exact nomatch hcurrent
  | on before a after =>
    obtain rfl := Option.some.inj hcurrent
    exact Cursor.current?_prev hinc hover

end Moves

end IterOps

/-- A cursor over a list, as an iterator. -/
def cursorOps (cmp : Comparator) : IterOps (List (Bytes × Bytes) × Cursor (Bytes × Bytes)) where
  valid s := s.2.current?.isSome
  key s := (s.2.current?.map Prod.fst).getD []
  value s := (s.2.current?.map Prod.snd).getD []
  status _ := .ok
  seekToFirst s := (s.1, s.2.call cmp s.1 .seekToFirst)
  seekToLast s := (s.1, s.2.call cmp s.1 .seekToLast)
  seek target s := (s.1, s.2.call cmp s.1 (.seek target))
  next s := (s.1, s.2.call cmp s.1 .next)
  prev s := (s.1, s.2.call cmp s.1 .prev)

theorem cursorOps_follows {cmp : Comparator} (l : List (Bytes × Bytes))
    (c : Cursor (Bytes × Bytes)) : (cursorOps cmp).Follows cmp l (l, c) c := by
  refine IterOps.follows_of_relation (R := fun s c => s = (l, c)) ?_ ?_ rfl
  · rintro _ c rfl
    cases h : c.current? <;> simp [IterOps.shown?, cursorOps, h]
  · rintro _ c call rfl -
    cases call <;> rfl

end WiscKey
