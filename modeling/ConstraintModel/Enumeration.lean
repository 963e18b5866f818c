/-!
# Enumerations

An enumeration has a name and at least one variant. Two enumerations are the same when both agree;
a value is a place in the list of variants.
-/

namespace ConstraintModel

structure Enumeration where
  name : String
  variants : List String
  variants_ne_nil : variants ≠ []
  deriving DecidableEq, Repr

/-- A variant of an enumeration, by its place among them. -/
structure EnumValue where
  type : Enumeration
  index : Fin type.variants.length
  deriving DecidableEq, Repr

/-- The variant's own name. -/
def EnumValue.name (v : EnumValue) : String :=
  v.type.variants.get v.index

namespace Enumeration

/-- The values in declaration order. -/
def values (e : Enumeration) : List EnumValue :=
  (List.finRange e.variants.length).map fun i => ⟨e, i⟩

/-- The first value whose variant has the given name. -/
def value? (e : Enumeration) (variant : String) : Option EnumValue :=
  e.values.find? fun v => v.name == variant

end Enumeration

end ConstraintModel
