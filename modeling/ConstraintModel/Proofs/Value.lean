import ConstraintModel.Literal
import ConstraintModel.Operator

/-!
# Values

What an expression, or a term of the source, stands for once its names have values. Operations are
partial functions on values, and `none` says that one is undefined. Arithmetic on an integer and a
float is that of floats; integer division truncates toward zero.
-/

namespace ConstraintModel

inductive Value
  | scalar (value : Literal)
  /-- Every member once, in increasing order. -/
  | set (members : List Literal)
  /-- One index set for each dimension, and the elements in the order of their index tuples. -/
  | array (indexSets : List (List Int)) (elements : List Value)

/-- The global constraints of the modelling language's library, as functions of their arguments. -/
abbrev Library := GlobalKind → List Value → Option Value

/-- The integers from `first` up to but not including `stop`. -/
def integers (first stop : Int) : List Int :=
  (List.range (stop - first).toNat).map fun (n : Nat) => first + (n : Int)

namespace Value

def int (v : Int) : Value := scalar (.int v)

def bool (b : Bool) : Value := scalar (.bool b)

/-- A set of integers that are listed in increasing order. -/
def intSet (is : List Int) : Value := set (is.map Literal.int)

/-- A list as an array that counts from one. -/
def list (xs : List Value) : Value := array [integers 1 (xs.length + 1)] xs

def scalar? : Value → Option Literal
  | scalar v => some v
  | _ => none

def int? : Value → Option Int
  | scalar (.int v) => some v
  | _ => none

def bool? : Value → Option Bool
  | scalar (.bool b) => some b
  | _ => none

def members? : Value → Option (List Value)
  | scalar _ => none
  | set ms => some (ms.map scalar)
  | array _ xs => some xs

def intMembers? (v : Value) : Option (List Int) :=
  v.members?.bind fun xs => xs.mapM int?

end Value

/-! ## Order -/

def floatOrder (a b : Float) : Option Ordering :=
  if a < b then some .lt else if a == b then some .eq else if b < a then some .gt else none

namespace Literal

def float? : Literal → Option Float
  | int a => some (Float.ofInt a)
  | float a => some a
  | _ => none

/-- The order of two numbers, two booleans or two values of one enumeration. -/
def compare? : Literal → Literal → Option Ordering
  | int a, int b => some (compare a b)
  | bool a, bool b => some (compare a b)
  | enumeration a, enumeration b =>
    if a.type = b.type then some (compare a.index.val b.index.val) else none
  | a, b => do floatOrder (← a.float?) (← b.float?)

/-- Adds a member to members in increasing order. -/
def insertMember (v : Literal) : List Literal → List Literal
  | [] => [v]
  | w :: ws =>
    match v.compare? w with
    | some .eq => w :: ws
    | some .gt => w :: insertMember v ws
    | _ => v :: w :: ws

/-- The members of a set that is written with these. -/
def membersOf (vs : List Literal) : List Literal :=
  vs.foldr insertMember []

/-- The order of two lists by the first place where they differ. -/
def compareAll? : List Literal → List Literal → Option Ordering
  | [], [] => some .eq
  | [], _ :: _ => some .lt
  | _ :: _, [] => some .gt
  | v :: vs, w :: ws => do
    match ← v.compare? w with
    | .eq => compareAll? vs ws
    | o => return o

end Literal

/-- The order of two scalars, of two sets, or of two arrays with the same extents. -/
def Value.compare? : Value → Value → Option Ordering
  | scalar v, scalar w => v.compare? w
  | set vs, set ws => Literal.compareAll? vs ws
  | array is xs, array js ys =>
    if is.map List.length = js.map List.length then do
      Literal.compareAll? (← xs.mapM scalar?) (← ys.mapM scalar?)
    else none
  | _, _ => none

/-! ## Operators -/

def UnaryOp.apply : UnaryOp → Value → Option Value
  | not, .scalar (.bool b) => some (.bool !b)
  | negate, .scalar (.int v) => some (.int (-v))
  | negate, .scalar (.float v) => some (.scalar (.float (-v)))
  | absolute, .scalar (.int v) => some (.int v.natAbs)
  | absolute, .scalar (.float v) => some (.scalar (.float v.abs))
  | _, _ => none

namespace Literal

/-- An operation on two integers, or else on two numbers as doubles. -/
def combine (ints : Int → Int → Option Int) (floats : Float → Float → Option Float) :
    Literal → Literal → Option Literal
  | int a, int b => (ints a b).map int
  | a, b => do (floats (← a.float?) (← b.float?)).map float

def quotient? (a b : Int) : Option Int :=
  if b = 0 then none else some (a.tdiv b)

def remainder? (a b : Int) : Option Int :=
  if b = 0 then none else some (a.tmod b)

/-- A power of two integers is an integer; one with a negative exponent is a truncated quotient. -/
def power? : Literal → Literal → Option Literal :=
  combine
    (fun a b => if 0 ≤ b then some (Int.pow a b.toNat) else quotient? 1 (Int.pow a (-b).toNat))
    fun a b => some (Float.pow a b)

end Literal

namespace BinaryOp

/-- The arithmetic of an operation on numbers. -/
def arithmetic (op : BinaryOp) (a b : Literal) : Option Literal :=
  match op with
  | add => Literal.combine (fun a b => some (a + b)) (fun a b => some (a + b)) a b
  | sub => Literal.combine (fun a b => some (a - b)) (fun a b => some (a - b)) a b
  | mul => Literal.combine (fun a b => some (a * b)) (fun a b => some (a * b)) a b
  | divide => do
    let x ← a.float?
    let y ← b.float?
    if y == 0.0 then none else return .float (x / y)
  | quotient => Literal.combine Literal.quotient? (fun _ _ => none) a b
  | remainder => Literal.combine Literal.remainder? (fun _ _ => none) a b
  | _ => none

/-- The connective of an operation on constraints. -/
def connective (op : BinaryOp) (a b : Bool) : Option Bool :=
  match op with
  | and => some (a && b)
  | or => some (a || b)
  | xor => some (a != b)
  | implies => some (!a || b)
  | _ => none

/-- The comparison of an operation, given the order of its operands. -/
def comparison (op : BinaryOp) (o : Ordering) : Option Bool :=
  match op with
  | eq => some (o == .eq)
  | ne => some (o != .eq)
  | lt => some (o == .lt)
  | gt => some (o == .gt)
  | le => some (o != .gt)
  | ge => some (o != .lt)
  | _ => none

def apply (op : BinaryOp) (a b : Value) : Option Value :=
  if op.isArithmetic then do
    return .scalar (← op.arithmetic (← a.scalar?) (← b.scalar?))
  else if op.isLogical then do
    return .bool (← op.connective (← a.bool?) (← b.bool?))
  else if op = member then do
    let x ← a.scalar?
    let ys ← (← b.members?).mapM Value.scalar?
    return .bool (ys.any fun y => x.compare? y == some .eq)
  else do
    return .bool (← op.comparison (← a.compare? b))

end BinaryOp

/-! ## Aggregates -/

namespace Aggregate

/-- The first of several literals that none of the others precedes in the given direction. -/
def extreme (direction : Ordering) : List Literal → Option Literal
  | [] => none
  | v :: vs =>
    vs.foldlM (fun best w => (w.compare? best).map fun o => if o = direction then w else best) v

def ofLiterals (op : Aggregate) (vs : List Literal) : Option Literal :=
  match op with
  | sum => vs.foldlM BinaryOp.add.arithmetic (.int 0)
  | product => vs.foldlM BinaryOp.mul.arithmetic (.int 1)
  | count => do return .int (((← vs.mapM (Value.bool? ∘ .scalar)).count true : Nat) : Int)
  | every => do return .bool ((← vs.mapM (Value.bool? ∘ .scalar)).all id)
  | any => do return .bool ((← vs.mapM (Value.bool? ∘ .scalar)).any id)
  | least => extreme .lt vs
  | greatest => extreme .gt vs

def ofValues (op : Aggregate) (xs : List Value) : Option Value := do
  return .scalar (← op.ofLiterals (← xs.mapM Value.scalar?))

/-- The aggregate of a whole collection; a count may ask how often one scalar occurs in it. -/
def apply : Aggregate → List Value → Option Value
  | count, [c, x] => do
    let vs ← (← c.members?).mapM Value.scalar?
    let v ← x.scalar?
    return .int ((vs.countP fun w => w.compare? v == some .eq : Nat) : Int)
  | op, [c] => do op.ofValues (← c.members?)
  | _, _ => none

end Aggregate

/-! ## Elements of arrays -/

/-- The index tuples of an array with the given index sets. The last index varies fastest. -/
def tuples : List (List Int) → List (List Int)
  | [] => [[]]
  | is :: sets => is.flatMap fun i => (tuples sets).map (i :: ·)

def elementAt? (indexSets : List (List Int)) (elements : List Value) (index : List Int) :
    Option Value :=
  ((tuples indexSets).zip elements).lookup index

/-- The element of an array with the given index. -/
def Value.element? : Value → List Int → Option Value
  | array sets xs, index => elementAt? sets xs index
  | _, _ => none

/-- The index sets of an array of the given extents that counts from zero. -/
def zeroBased (extents : List Nat) : List (List Int) :=
  extents.map fun (n : Nat) => integers 0 (n : Int)

end ConstraintModel
