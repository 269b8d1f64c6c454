import Callable.TypeExpr.Normal

/-!
The parts of a type expression, at any depth. A type without a name is found wherever it stands.
-/
namespace Callable.TypeExpr

/-- The expressions from which a type is built in one step. -/
def parts : TypeExpr → List TypeExpr
  | list item => [item]
  | set item => [item]
  | dict key value => [key, value]
  | tuple items => items
  | union types => types
  | classOf type => [type]
  | _ => []

inductive IsPart (part : TypeExpr) : TypeExpr → Prop
  | refl : IsPart part part
  | inside {type inner : TypeExpr} : inner ∈ type.parts → IsPart part inner → IsPart part type

theorem isPart_iff (part type : TypeExpr) :
    IsPart part type ↔ part = type ∨ ∃ inner ∈ type.parts, IsPart part inner := by
  constructor
  · intro h
    cases h with
    | refl => exact Or.inl rfl
    | inside hinner h => exact Or.inr ⟨_, hinner, h⟩
  · intro h
    rcases h with rfl | ⟨inner, hinner, h⟩
    · exact IsPart.refl
    · exact IsPart.inside hinner h

/-- What passes from the parts to the whole holds of all expressions. -/
theorem induct_parts {motive : TypeExpr → Prop}
    (h : ∀ type, (∀ part ∈ type.parts, motive part) → motive type) (type : TypeExpr) :
    motive type := by
  induction type with
  | list item ih => exact h _ (by simpa [parts] using ih)
  | set item ih => exact h _ (by simpa [parts] using ih)
  | classOf type ih => exact h _ (by simpa [parts] using ih)
  | dict key value hkey hvalue => exact h _ (by simpa [parts] using ⟨hkey, hvalue⟩)
  | tuple items ih => exact h _ ih
  | union types ih => exact h _ ih
  | _ => exact h _ (by simp [parts])

theorem anyAnonymous_iff (types : List TypeExpr) :
    anyAnonymous types = true ↔ ∃ type ∈ types, type.hasAnonymous = true := by
  induction types with
  | nil => simp [anyAnonymous]
  | cons type rest ih => simp [anyAnonymous, ih]

theorem hasAnonymous_iff_parts (type : TypeExpr) :
    type.hasAnonymous = true ↔
      (∃ hint, anonymous hint = type) ∨ ∃ part ∈ type.parts, part.hasAnonymous = true := by
  cases type with
  | tuple items => simpa [hasAnonymous, parts] using anyAnonymous_iff items
  | union types => simpa [hasAnonymous, parts] using anyAnonymous_iff types
  | _ => simp [hasAnonymous, parts]

theorem hasAnonymous_iff (type : TypeExpr) :
    type.hasAnonymous = true ↔ ∃ hint, IsPart (anonymous hint) type := by
  induction type using induct_parts with
  | h type ih =>
    simp only [isPart_iff _ type, exists_or]
    rw [hasAnonymous_iff_parts]
    refine or_congr_right ?_
    constructor
    · intro hanon
      obtain ⟨part, hpart, h⟩ := hanon
      obtain ⟨hint, hin⟩ := (ih part hpart).mp h
      exact ⟨hint, part, hpart, hin⟩
    · intro hinside
      obtain ⟨hint, part, hpart, hin⟩ := hinside
      exact ⟨part, hpart, (ih part hpart).mpr ⟨hint, hin⟩⟩

theorem hasAnonymous_eq_false_iff (type : TypeExpr) :
    type.hasAnonymous = false ↔ ∀ hint, ¬ IsPart (anonymous hint) type := by
  rw [← Bool.not_eq_true, hasAnonymous_iff, not_exists]

end Callable.TypeExpr
