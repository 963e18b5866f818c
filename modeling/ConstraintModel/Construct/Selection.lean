import ConstraintModel.Construct.Leaf

/-!
# Selections from arrays

`Expr.select` turns the positions that are asked for into a view with one position for each dimension.
Dimensions beyond the last position are taken whole, a slice begins at zero unless it says otherwise,
and ends at the extent that the solver knows. What is known to select nothing, or something outside
the array, is refused.
-/

namespace ConstraintModel

/-- A position as asked for, where absent bounds take their defaults. -/
inductive Selection
  | index (index : Expr)
  | slice (start stop : Option Expr) (step : Option Int)

def Selection.all : Selection :=
  .slice none none none

namespace Expr

/-- Refuses an index or bound that is known to be negative. -/
def requireNonNegative (e : Expr) : Except ModelError Unit :=
  match e.int? with
  | some v => if v < 0 then throw (.negativeIndex v) else return
  | none => return

/-- An extent as the signed 64-bit word that indices are compared with. -/
def signedExtent (extent : Nat) : Int :=
  Int.bmod extent (Nat.pow 2 64)

/-- Refuses an index that is known to reach beyond its dimension. -/
def requireBelow (dim extent : Nat) (e : Expr) : Except ModelError Unit :=
  match e.int? with
  | some v => if signedExtent extent ≤ v then throw (.indexOutOfBounds v dim extent) else return
  | none => return

/-- The position that a selection takes along one dimension of an array. -/
def position (array : Expr) (dim extent : Nat) : Selection → Except ModelError Position
  | .index i => do
    requireNonNegative i
    requireBelow dim extent i
    return .index i
  | .slice start stop step => do
    requireUnitStep (step.getD 1)
    let start := start.getD (.literal (.int 0))
    let stop := stop.getD (.size array dim)
    requireNonNegative start
    requireNonNegative stop
    requireRange start stop
    return .slice start stop

/-- The positions along the dimensions from `dim` on. -/
def positions (array : Expr) (dim : Nat) : List Nat → List Selection →
    Except ModelError (List Position)
  | [], _ => return []
  | extent :: extents, selections => do
    let p ← position array dim extent (selections.headD .all)
    let ps ← positions array (dim + 1) extents selections.tail
    return p :: ps

/-- The part of an array that the selections take. -/
def select (array : Expr) (selections : List Selection) : Except ModelError Expr :=
  match array.shape? with
  | none => throw (.notAnArray array.description)
  | some shape => do
    if shape.rank < selections.length then
      throw (.tooManyIndices shape.rank selections.length)
    return .view array (← positions array 0 shape.extents selections)

/-- The extent of one dimension of an array, as the solver knows it. -/
def extentOf (array : Expr) (dim : Nat) : Except ModelError Expr :=
  match array.shape? with
  | none => throw (.notAnArray array.description)
  | some shape =>
    if dim < shape.rank then return .size array dim else throw (.tooManyIndices shape.rank (dim + 1))

end Expr

end ConstraintModel
