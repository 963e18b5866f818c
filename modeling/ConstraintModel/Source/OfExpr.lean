import ConstraintModel.Source.Term
import ConstraintModel.Source.Vocabulary
import ConstraintModel.Typing

/-!
# Terms of expressions

`Expr.term` spells an expression in the modelling language. Named leaves become their symbols and
iterators those of the scope; ranges of integers, which leave their stop out, become spans that
end one below it. A view with slices becomes a call that takes the part inside spans and gives it
index sets from zero on, and a second call that drops the dimensions which are indexed.
-/

namespace ConstraintModel

open Source

namespace Source

def Term.int (v : Int) : Term :=
  .literal (.int v)

/-- One less than a stop. Integers are unbounded here: where they have 64 bits, nothing is below a stop
that is the least of them. Behind a start that is a literal, no stop is as low. -/
def lastBelow (stop : Expr) (term : Term) : Term :=
  match stop.literalInt? with
  | some v => .int (v - 1)
  | none => .binary .sub term (.int 1)

/-- The span of a range with the given terms as bounds. -/
def rangeSpan (start stop : Expr) (first last : Except ModelError Term) :
    Except ModelError Term := do
  requireRange start stop
  let type ← (Expr.range start stop).elemType
  if type = .float then
    let a ← first
    let b ← last
    return .span true a b
  else
    let b ← last
    let a ← first
    return .span false a (lastBelow stop b)

/-- The last index of a slice that is counted from zero. -/
def lastIndex (start stop : Expr) (first last : Term) : Term :=
  match start.literalInt?, stop.literalInt? with
  | some a, some b => .int (b - a - 1)
  | some 0, none => .binary .sub last (.int 1)
  | _, _ => .binary .sub (.binary .sub last first) (.int 1)

/-- What a view takes along one dimension: an index, or a slice with the span it covers and the index
set that it gets. -/
inductive Cut
  | index (term : Term)
  | slice (span indexSet : Term)

namespace Cut

/-- The indices that are taken. -/
def span : Cut → Term
  | index i => .span false i i
  | slice span _ => span

/-- The index set of what is taken. -/
def indexSet : Cut → Term
  | index _ => .span false (.int 0) (.int 0)
  | slice _ indexSet => indexSet

/-- The index set of a dimension that is kept. -/
def keptIndexSet? : Cut → Option Term
  | index _ => none
  | slice _ indexSet => some indexSet

/-- The index of a dimension that is dropped. -/
def index? : Cut → Option Term
  | index i => some i
  | slice _ _ => none

/-- The cut of a slice with the given terms as bounds. -/
def ofSlice (start stop : Expr) (first last : Term) : Cut :=
  .slice (.span false first (lastBelow stop last))
    (.span false (.int 0) (lastIndex start stop first last))

end Cut

def viewTerm (array : Symbol) (rank : Nat) (cuts : List Cut) : Term :=
  let kept := cuts.filterMap Cut.keptIndexSet?
  if kept.isEmpty then .element array (cuts.filterMap Cut.index?)
  else
    let part := Term.call (.slice rank)
      (.entity array :: .list (cuts.map Cut.span) :: cuts.map Cut.indexSet)
    if kept.length = rank then part
    else if kept.length = 1 then .call (.reshape 1) [part]
    else .call (.reshape kept.length) (kept ++ [part])

/-- The extent of a dimension: one above the last index. -/
def sizeTerm (array : Symbol) (rank dim : Nat) : Term :=
  .binary .add (.call .last [.call (.indexSet (dim + 1) rank) [.entity array]]) (.int 1)

def arrayShape (array : Expr) : Except ModelError Shape :=
  match array.shape? with
  | some shape => return shape
  | none => throw (.notAnArray array.description)

/-- Whether an argument has several dimensions, or may have. A slice along one dimension has one. -/
def isMultidimensional : Expr → Bool
  | .varArray .. | .paramArray .. => true
  | .view _ positions => 1 < sliceCount positions
  | _ => false

/-- An argument, passed on in one dimension if that is asked for. -/
def argTerm (flatten : Bool) (e : Expr) (term : Term) : Term :=
  if flatten && isMultidimensional e then .call (.reshape 1) [term] else term

def Scope.symbolOf (scope : Scope) (id : NodeId) : Except ModelError Symbol :=
  match Symbol.lookup id scope with
  | some s => return s
  | none => throw (.unnamed .iterator)

end Source

mutual

/-- The term of an expression, where `scope` holds the iterators around it. -/
def Expr.term (v : Vocabulary) (scope : Scope) : Expr → Except ModelError Term
  | .literal l => do
    l.requireFinite
    return .literal l
  | .setLiteral values => do
    values.forM Literal.requireFinite
    return .set values
  | .view array positions => do
    let s ← v.symbolOf array
    let shape ← arrayShape array
    return viewTerm s shape.rank (← cuts v scope positions)
  | .range start stop => rangeSpan start stop (start.term v scope) (stop.term v scope)
  | .sequence items => return .list (← terms v scope items)
  | .enumeration e => return .enumeration e
  | .iterator id _ => return .iterator (← scope.symbolOf id)
  | .unary op operand => return .unary op (← operand.term v scope)
  | .binary op left right => do
    if op.isIntegerDivision && right.isZero then throw .divisionByZero
    let a ← left.term v scope
    let b ← right.term v scope
    return .binary op a b
  | .power base exponent => do
    let a ← base.term v scope
    let b ← exponent.term v scope
    return .call .power [a, b]
  | .size array dim => do
    let s ← v.symbolOf array
    let shape ← arrayShape array
    return sizeTerm s shape.rank dim
  | .aggregate op args => do
    return .call (.aggregate op) (← argTerms v scope (op == .count) args)
  | .comprehension op generators body => do
    let (heads, inner) ← heads v scope generators
    return .comprehension op heads (← body.term v inner)
  | .global kind args => do
    return .call (.global kind) (← argTerms v scope kind.flattens args)
  | e => return .entity (← v.symbolOf e)

def terms (v : Vocabulary) (scope : Scope) : List Expr → Except ModelError (List Term)
  | [] => return []
  | e :: es => do
    let t ← e.term v scope
    return t :: (← terms v scope es)

def argTerms (v : Vocabulary) (scope : Scope) (flatten : Bool) :
    List Expr → Except ModelError (List Term)
  | [] => return []
  | e :: es => do
    let t ← e.term v scope
    return argTerm flatten e t :: (← argTerms v scope flatten es)

/-- What positions take along their dimensions. -/
def cuts (v : Vocabulary) (scope : Scope) : List Position → Except ModelError (List Cut)
  | [] => return []
  | .index i :: ps => do
    let t ← i.term v scope
    return .index t :: (← cuts v scope ps)
  | .slice start stop :: ps => do
    let last ← stop.term v scope
    let first ← start.term v scope
    return Cut.ofSlice start stop first last :: (← cuts v scope ps)

/-- The iterators of generators with their domains, and the scope of what they enclose. A domain sees
the iterators of the generators before it. -/
def heads (v : Vocabulary) (scope : Scope) :
    List Generator → Except ModelError (List (Symbol × Term) × Scope)
  | [] => return ([], scope)
  | .over id _ domain :: gs => do
    let t ← domain.term v scope
    let s : Symbol := ⟨id, v.nextIterator scope⟩
    let (hs, inner) ← heads v (s :: scope) gs
    return ((s, t) :: hs, inner)

end

end ConstraintModel
