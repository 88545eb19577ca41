import Mathlib.Init

/-!
# Readers

A reader takes a value off the front of an input and hands on what is behind it. A reader that
looks at nothing behind its value reads the same in front of a longer input, and so it fails on
every proper prefix of what it takes off.
-/

namespace WiscKey

variable {α β γ : Type}

/-- What is behind the value is not looked at. -/
def SelfDelimiting (read : List α → Option (β × List α)) : Prop :=
  ∀ input v rest, read input = some (v, rest) →
    ∀ more, read (input ++ more) = some (v, rest ++ more)

namespace SelfDelimiting

variable {read : List α → Option (β × List α)}

/-- A value that was cut off is not read. -/
theorem eq_none (h : SelfDelimiting read) {part more : List α} {v : β}
    (hfull : read (part ++ more) = some (v, [])) (hmore : more ≠ []) : read part = none := by
  cases hpart : read part with
  | none => rfl
  | some result =>
    obtain ⟨v', rest⟩ := result
    have hread := h part v' rest hpart more
    rw [hfull, Option.some.injEq, Prod.mk.injEq] at hread
    exact absurd (List.append_eq_nil_iff.mp hread.2.symm).2 hmore

/-- A reader that makes nothing of the input. -/
theorem pure (v : β) : SelfDelimiting fun input : List α => some (v, input) := by
  rintro input v' rest hread more
  cases hread
  rfl

/-- One reader after the other. -/
theorem bind {next : β → List α → Option (γ × List α)} (h : SelfDelimiting read)
    (hnext : ∀ v, SelfDelimiting (next v)) :
    SelfDelimiting fun input => (read input).bind fun p => next p.1 p.2 := by
  rintro input w rest hread more
  obtain ⟨⟨v, mid⟩, hv, hw⟩ := Option.bind_eq_some_iff.mp hread
  change (read (input ++ more)).bind _ = _
  rw [h input v mid hv more]
  exact hnext v mid w rest hw more

/-- A reader whose value is converted. -/
theorem map (h : SelfDelimiting read) (f : β → γ) :
    SelfDelimiting fun input => (read input).bind fun p => some (f p.1, p.2) :=
  h.bind fun v => pure (f v)

end SelfDelimiting

end WiscKey
