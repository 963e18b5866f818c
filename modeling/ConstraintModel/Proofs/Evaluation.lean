import ConstraintModel.Expr
import ConstraintModel.Proofs.Value
import Mathlib.Data.List.Forall2

/-!
# Evaluation of expressions

The value of an expression, read off its tree: named leaves have the values of an assignment,
iterators those of the generators around them, ranges leave their stop out, and a view takes the
elements of its array whose indices are chosen.
-/

namespace ConstraintModel

/-! ## Parts of arrays -/

/-- What is chosen along one dimension: an index, or the indices from `first` up to but not
including `stop`. -/
inductive Choice
  | index (i : Int)
  | slice (first stop : Int)

namespace Choice

/-- Whether an index is chosen. -/
def takes : Choice → Int → Bool
  | index i, j => j == i
  | slice first stop, j => first ≤ j && j < stop

/-- The choice is not empty and does not reach beyond a dimension of the given extent. -/
def Within (extent : Nat) : Choice → Prop
  | index i => 0 ≤ i ∧ i < extent
  | slice first stop => 0 ≤ first ∧ first < stop ∧ stop ≤ extent

instance (extent : Nat) : DecidablePred (Within extent)
  | index i => inferInstanceAs (Decidable (0 ≤ i ∧ i < extent))
  | slice first stop => inferInstanceAs (Decidable (0 ≤ first ∧ first < stop ∧ stop ≤ extent))

/-- The extent of a dimension that is kept. -/
def extent? : Choice → Option Nat
  | index _ => none
  | slice first stop => some (stop - first).toNat

end Choice

/-- Whether every index of a tuple is chosen along its dimension. -/
def takesAll : List Choice → List Int → Bool
  | [], [] => true
  | c :: cs, i :: is => c.takes i && takesAll cs is
  | _, _ => false

/-- The elements of a zero-based array whose index tuples are chosen, in the order of the array. -/
def takenElements (extents : List Nat) (elements : List Value) (choices : List Choice) :
    List Value :=
  (((tuples (zeroBased extents)).zip elements).filter fun (index, _) =>
    takesAll choices index).map Prod.snd

/-- The part of a zero-based array that is chosen: an element if no dimension is kept, and else an
array that counts from zero again. -/
def partOf (extents : List Nat) (elements : List Value) (choices : List Choice) : Option Value :=
  if List.Forall₂ Choice.Within extents choices then
    match choices.filterMap Choice.extent? with
    | [] => (takenElements extents elements choices).head?
    | kept => some (.array (zeroBased kept) (takenElements extents elements choices))
  else none

/-! ## Evaluation -/

/-- The values of variables, parameters, arrays and sets. -/
abbrev Assignment := NodeId → Value

/-- The values of iterators, innermost first. -/
abbrev Iteration := List (NodeId × Value)

def Assignment.elements? (σ : Assignment) (id : NodeId) : Option (List Value) :=
  match σ id with
  | .array _ xs => some xs
  | _ => none

mutual

/-- The value of an expression. -/
def Expr.value (lib : Library) (σ : Assignment) : Expr → Iteration → Option Value
  | .literal l, _ => some (.scalar l)
  | .var id _, _ | .boundVar id _ _, _ | .param id _, _ | .derivedParam id _, _
  | .varArray id _ _, _ | .paramArray id _ _, _ | .varSet id _, _ | .paramSet id _, _ =>
    some (σ id)
  | .setLiteral values, _ => some (.set (Literal.membersOf values))
  | .view array positions, ρ => do
    let id ← array.id?
    let shape ← array.shape?
    let elements ← σ.elements? id
    partOf shape.extents elements (← positionChoices lib σ positions ρ)
  | .range start stop, ρ => do
    let a ← (← start.value lib σ ρ).int?
    let b ← (← stop.value lib σ ρ).int?
    return .intSet (integers a b)
  | .sequence items, ρ => do return .list (← allValues lib σ items ρ)
  | .enumeration e, _ => some (.set (e.values.map .enumeration))
  | .iterator id _, ρ => ρ.lookup id
  | .unary op operand, ρ => do op.apply (← operand.value lib σ ρ)
  | .binary op left right, ρ => do op.apply (← left.value lib σ ρ) (← right.value lib σ ρ)
  | .power base exponent, ρ => do
    let a ← (← base.value lib σ ρ).scalar?
    let b ← (← exponent.value lib σ ρ).scalar?
    return .scalar (← a.power? b)
  | .size array dim, _ => do return .int (← (← array.shape?).extent? dim : Nat)
  | .aggregate op args, ρ => do op.apply (← allValues lib σ args ρ)
  | .comprehension op generators body, ρ => do
    let rounds ← iterations lib σ generators ρ
    op.ofValues (← rounds.mapM fun ρ => body.value lib σ ρ)
  | .global kind args, ρ => do lib kind (← allValues lib σ args ρ)

def allValues (lib : Library) (σ : Assignment) : List Expr → Iteration → Option (List Value)
  | [], _ => some []
  | e :: es, ρ => do return (← e.value lib σ ρ) :: (← allValues lib σ es ρ)

def positionChoices (lib : Library) (σ : Assignment) :
    List Position → Iteration → Option (List Choice)
  | [], _ => some []
  | .index i :: ps, ρ => do
    let i ← (← i.value lib σ ρ).int?
    return .index i :: (← positionChoices lib σ ps ρ)
  | .slice start stop :: ps, ρ => do
    let a ← (← start.value lib σ ρ).int?
    let b ← (← stop.value lib σ ρ).int?
    return .slice a b :: (← positionChoices lib σ ps ρ)

/-- The values that iterators go through, with those around them. A domain sees the iterators of the
generators before it. -/
def iterations (lib : Library) (σ : Assignment) :
    List Generator → Iteration → Option (List Iteration)
  | [], ρ => some [ρ]
  | .over id _ domain :: gs, ρ => do
    let members ← (← domain.value lib σ ρ).members?
    return (← members.mapM fun x => iterations lib σ gs ((id, x) :: ρ)).flatten

end

end ConstraintModel
