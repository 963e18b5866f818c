import ConstraintModel.Proofs.Glossary

/-!
# Well-made expressions

The expressions that the constructors make out of what a glossary has, without slices and with
scalars as the bounds of ranges: iterators have the types of their domains, sizes are of a
dimension of their array, and arrays are indexed along all dimensions.
-/

namespace ConstraintModel

open Source

namespace Glossary

variable (g : Glossary)

/-- Whether a literal is of an enumeration of the model or a float in use. -/
def Knows : Literal → Prop
  | .enumeration v => v.type ∈ g.model.enumerations
  | .float x => x ∈ g.floats
  | _ => True

/-- Whether an expression is the entity of its identity. -/
def Holds (e : Expr) : Prop :=
  ∃ id, e.id? = some id ∧ g.node id = e

end Glossary

/-- The types of the iterators in scope, innermost first. -/
abbrev IteratorTypes := List (NodeId × ElemType)

def IteratorTypes.inside (types : IteratorTypes) : List Generator → IteratorTypes
  | [] => types
  | .over id type _ :: gs => IteratorTypes.inside ((id, type) :: types) gs

mutual

/-- Whether an expression is made as the constructors make it, out of what a glossary has, behind
iterators of the given types. -/
def Expr.WellMade (g : Glossary) : Expr → IteratorTypes → Prop
  | .literal l, _ => g.Knows l
  | .setLiteral ls, _ => ∀ l ∈ ls, g.Knows l
  | .view array positions, types => g.Holds array ∧ positionsWellMade g positions types
  | .range start stop, types =>
    start.isCollection = false ∧ stop.isCollection = false ∧ start.WellMade g types ∧
      stop.WellMade g types
  | .sequence es, types | .aggregate _ es, types | .global _ es, types => allWellMade g es types
  | .enumeration e, _ => e ∈ g.model.enumerations
  | .iterator id type, types => types.lookup id = some type
  | .unary _ e, types => e.WellMade g types
  | .binary _ a b, types | .power a b, types => a.WellMade g types ∧ b.WellMade g types
  | .size array dim, _ => g.Holds array ∧ ∃ shape, array.shape? = some shape ∧ dim < shape.rank
  | .comprehension _ generators body, types =>
    generatorsWellMade g generators types ∧ body.WellMade g (types.inside generators)
  | e, _ => g.Holds e

def allWellMade (g : Glossary) : List Expr → IteratorTypes → Prop
  | [], _ => True
  | e :: es, types => e.WellMade g types ∧ allWellMade g es types

def positionsWellMade (g : Glossary) : List Position → IteratorTypes → Prop
  | [], _ => True
  | .index i :: ps, types => i.WellMade g types ∧ positionsWellMade g ps types
  | .slice .. :: _, _ => False

def generatorsWellMade (g : Glossary) : List Generator → IteratorTypes → Prop
  | [], _ => True
  | .over id type domain :: gs, types =>
    domain.WellMade g types ∧ domain.elemType = .ok type ∧
      generatorsWellMade g gs ((id, type) :: types)

end

theorem Expr.WellMade.holds {g : Glossary} {e : Expr} {types : IteratorTypes} {id : NodeId}
    (hid : e.id? = some id) (h : e.WellMade g types) : g.Holds e := by
  cases e <;> cases hid <;> exact h

theorem allWellMade_iff {g : Glossary} {es : List Expr} {types : IteratorTypes} :
    allWellMade g es types ↔ ∀ e ∈ es, e.WellMade g types := by
  induction es with
  | nil => simp [allWellMade]
  | cons e es ih => simp [allWellMade, ih]

theorem Glossary.Holds.node_eq {g : Glossary} {e : Expr} {id : NodeId} (h : g.Holds e)
    (hid : e.id? = some id) : g.node id = e := by
  obtain ⟨id', hid', hnode⟩ := h
  rw [hid, Option.some.injEq] at hid'
  rw [hid', hnode]

end ConstraintModel
