/-!
# Shapes

The extents of a rectangular array, outermost first. Elements are kept in row-major order, and every
index set starts at zero.
-/

namespace ConstraintModel

/-- The extents of an array, one for each dimension. -/
structure Shape where
  extents : List Nat
  deriving DecidableEq, Repr

namespace Shape

def rank (s : Shape) : Nat :=
  s.extents.length

def size (s : Shape) : Nat :=
  s.extents.foldl (· * ·) 1

def extent? (s : Shape) (dim : Nat) : Option Nat :=
  s.extents[dim]?

/-- Whether an array can have the shape: at least one dimension, and none without elements. -/
def isValid (s : Shape) : Bool :=
  !s.extents.isEmpty && !s.extents.contains 0

/-- The extents in parentheses; a single one is followed by a comma. -/
def text (s : Shape) : String :=
  match s.extents with
  | [n] => "(" ++ toString n ++ ",)"
  | ns => "(" ++ ", ".intercalate (ns.map toString) ++ ")"

/-- The extents as a list, named as a shape. -/
def listing (s : Shape) : String :=
  "Shape([" ++ ", ".intercalate (s.extents.map toString) ++ "])"

/-- The index set of a dimension: from zero to the last index. -/
def indexSet (extent : Nat) : String :=
  "0.." ++ toString (extent - 1)

/-- The index sets of all dimensions, as a declaration lists them. -/
def indexSets (s : Shape) : String :=
  ", ".intercalate (s.extents.map indexSet)

end Shape

end ConstraintModel
