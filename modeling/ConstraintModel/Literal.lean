import ConstraintModel.Decimal.Layout
import ConstraintModel.Enumeration

/-!
# Element types and literals

Every expression has an element type: the type of a scalar, or of the members of a collection.
A literal is a concrete scalar of one of them.
-/

namespace ConstraintModel

/-- The type of a scalar or of the members of a collection. -/
inductive ElemType
  | int
  | float
  | bool
  | enumeration (type : Enumeration)
  deriving DecidableEq, Repr

namespace ElemType

def text : ElemType → String
  | int => "int"
  | float => "float"
  | bool => "bool"
  | enumeration e => e.name

def isNumeric : ElemType → Bool
  | int | float => true
  | bool | enumeration _ => false

end ElemType

inductive Literal
  | int (value : Int)
  | float (value : Float)
  | bool (value : Bool)
  | enumeration (value : EnumValue)
  deriving DecidableEq, Repr

namespace Literal

/-- Floats in a model are positional from `0.0001` up to `10 ^ 16`, carry no plus sign in an
exponent, and of two equally near decimals the larger is written. -/
def floatLayout : Decimal.Layout :=
  ⟨-4, 16, false, .up⟩

def text : Literal → String
  | int v => toString v
  | float v => floatLayout.write v
  | bool v => if v then "true" else "false"
  | enumeration v => v.name

def elemType : Literal → ElemType
  | int _ => .int
  | float _ => .float
  | bool _ => .bool
  | enumeration v => .enumeration v.type

/-- Whether the literal is an integer or float zero, of either sign. -/
def isZero : Literal → Bool
  | int v => v == 0
  | float v => v == 0.0
  | bool _ | enumeration _ => false

/-- Whether an interval from one literal up to but not including the other holds no number. Two
integers are compared exactly and any other numbers as doubles; other literals bound nothing. -/
def isEmptyRange : Literal → Literal → Bool
  | int a, int b => b ≤ a
  | float a, float b => b ≤ a
  | int a, float b => b ≤ Float.ofInt a
  | float a, int b => Float.ofInt b ≤ a
  | _, _ => false

end Literal

end ConstraintModel
