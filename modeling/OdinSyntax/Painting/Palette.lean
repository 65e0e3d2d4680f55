import OdinSyntax.Painting.Category

/-!
# Palettes

A `Palette` holds the user's choices of categories for kinds of tokens. A kind without a choice has
the category of `Kind.category`. Palettes are equal if their choices are, so to choose the category
that a kind has anyway gives another palette.
-/

namespace OdinSyntax

/-- The categories that the user has chosen. -/
structure Palette where
  choice? : Kind → Option Category := fun _ => none

namespace Palette

/-- The palette without choices. -/
def empty : Palette := {}

instance : Inhabited Palette := ⟨empty⟩

/-- Choose `category` for `kind`, in place of an earlier choice. -/
def set (palette : Palette) (kind : Kind) (category : Category) : Palette where
  choice? other := if other = kind then some category else palette.choice? other

/-- Drop the choice for `kind`. -/
def reset (palette : Palette) (kind : Kind) : Palette where
  choice? other := if other = kind then none else palette.choice? other

/-- The category in which tokens of `kind` are painted. -/
def resolve (palette : Palette) (kind : Kind) : Category :=
  (palette.choice? kind).getD kind.category

/-- The palette with choices made one after the other. -/
def ofList (choices : List (Kind × Category)) : Palette :=
  choices.foldl (fun palette choice => palette.set choice.1 choice.2) empty

/-- Palettes are equal if their choices for the ten kinds are. -/
theorem eq_iff {p q : Palette} : p = q ↔ ∀ kind ∈ Kind.all, p.choice? kind = q.choice? kind := by
  constructor
  · rintro rfl _ _
    rfl
  · intro h
    obtain ⟨f⟩ := p
    obtain ⟨g⟩ := q
    exact congrArg Palette.mk (funext fun kind => h kind kind.mem_all)

instance : DecidableEq Palette :=
  fun _ _ => decidable_of_iff _ eq_iff.symm

@[simp] theorem resolve_empty (kind : Kind) : empty.resolve kind = kind.category := rfl

/-- A choice changes the category of its kind alone. -/
theorem resolve_set (palette : Palette) (kind other : Kind) (category : Category) :
    (palette.set kind category).resolve other =
      if other = kind then category else palette.resolve other := by
  unfold resolve set
  split <;> simp_all

/-- A dropped choice brings back the category of the kind, and of no other kind. -/
theorem resolve_reset (palette : Palette) (kind other : Kind) :
    (palette.reset kind).resolve other =
      if other = kind then kind.category else palette.resolve other := by
  unfold resolve reset
  split <;> simp_all

end Palette

end OdinSyntax
