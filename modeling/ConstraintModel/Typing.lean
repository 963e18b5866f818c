import ConstraintModel.Expr

/-!
# Element types of expressions

`Expr.elemType` finds the type of a scalar, or of the members of a collection, from the leaves up.
It refuses arithmetic on booleans and enumerations, connectives of anything but constraints, and
sequences of several types.
-/

namespace ConstraintModel

/-- The type of arithmetic on two operands: float if either is, and else int. -/
def ElemType.widen : ElemType → ElemType → Except ModelError ElemType
  | .bool, right => throw (.ambiguousType .bool right)
  | left, .bool => throw (.ambiguousType left .bool)
  | .enumeration e, _ | _, .enumeration e =>
    throw (.unsupportedType (.type (.enumeration e)) .arithmetic)
  | .float, _ | _, .float => return .float
  | .int, .int => return .int

/-- The type of a range between bounds of the given types. -/
def rangeType (start stop : ElemType) : Except ModelError ElemType := do
  unless start.isNumeric do throw (.unsupportedType (.type start) .rangeBounds)
  unless stop.isNumeric do throw (.unsupportedType (.type stop) .rangeBounds)
  start.widen stop

/-- The type of the first of several literals. -/
def literalsType (kind : CollectionKind) : List Literal → Except ModelError ElemType
  | [] => throw (.emptyCollection kind)
  | v :: _ => return v.elemType

/-- The type of an operand of arithmetic, which is no collection. -/
def scalarType (e : Expr) (type : Except ModelError ElemType) : Except ModelError ElemType :=
  if e.isCollection then throw (.unsupportedType e.subject .arithmetic) else type

def requireConstraint (use : ConstraintUse) (e : Expr) (type : Except ModelError ElemType) :
    Except ModelError Unit := do
  if e.isCollection then throw (.notAConstraint use e.subject)
  let t ← type
  unless t == .bool do throw (.notAConstraint use e.subject)

/-- The type of arithmetic: that of the operands widened, and float for a division of floats. -/
def arithmeticType (op : BinaryOp) (left right : ElemType) : Except ModelError ElemType := do
  let t ← left.widen right
  return if op = .divide then .float else t

/-- The type of an aggregate of members of the given type. -/
def aggregateType (op : Aggregate) (members : ElemType) : Except ModelError ElemType :=
  match op with
  | .sum | .product => members.widen .int
  | .count => return .int
  | .every | .any =>
    if members = .bool then return .bool
    else throw (.notAConstraint (.aggregate op) (.type members))
  | .least | .greatest =>
    if members = .bool then throw (.ambiguousType members members) else return members

/-- The type of a global constraint: the count of distinct values is a number. -/
def GlobalKind.elemType : GlobalKind → ElemType
  | .distinctCount => .int
  | _ => .bool

mutual

def Domain.elemType : Domain → Except ModelError ElemType
  | .int => return .int
  | .float => return .float
  | .bool => return .bool
  | .range start stop => do
    let a ← start.elemType
    let b ← stop.elemType
    rangeType a b
  | .enumeration e => return .enumeration e

/-- The type of a scalar, or of the members of a collection. -/
def Expr.elemType : Expr → Except ModelError ElemType
  | .literal v | .param _ v => return v.elemType
  | .var _ domain | .varArray _ domain _ | .varSet _ domain => domain.elemType
  | .boundVar _ type _ => return type
  | .derivedParam _ value => value.elemType
  | .paramArray _ values _ => literalsType .array values
  | .paramSet _ (.listed values) => literalsType .set values
  | .paramSet _ (.interval ..) => return .int
  | .setLiteral values => literalsType .set values
  | .view array _ => array.elemType
  | .range start stop => do
    let a ← start.elemType
    let b ← stop.elemType
    rangeType a b
  | .sequence items => commonType items
  | .enumeration e => return .enumeration e
  | .iterator _ type => return type
  | .unary .not operand => do
    requireConstraint .negation operand operand.elemType
    return .bool
  | .unary _ operand => do
    let t ← scalarType operand operand.elemType
    t.widen .int
  | .binary op left right => do
    if op.isArithmetic then
      let a ← scalarType left left.elemType
      let b ← scalarType right right.elemType
      arithmeticType op a b
    else if op.isLogical then
      requireConstraint (.connective op) left left.elemType
      requireConstraint (.connective op) right right.elemType
      return .bool
    else
      let _ ← left.elemType
      let _ ← right.elemType
      return .bool
  | .power base exponent => do
    let a ← scalarType base base.elemType
    let b ← scalarType exponent exponent.elemType
    a.widen b
  | .size .. => return .int
  | .aggregate op args => do
    let t ← firstType args
    aggregateType op t
  | .comprehension op generators body => do
    domainsTyped generators
    if op = .count then requireConstraint (.aggregate op) body body.elemType
    let t ← body.elemType
    aggregateType op t
  | .global kind args => do
    allTyped args
    return kind.elemType

/-- The type that all items share. -/
def commonType : List Expr → Except ModelError ElemType
  | [] => throw (.emptyCollection .sequence)
  | e :: es => do
    let t ← e.elemType
    allOfType t es
    return t

/-- Accepts items of the given type. -/
def allOfType (type : ElemType) : List Expr → Except ModelError Unit
  | [] => return
  | e :: es => do
    let t ← e.elemType
    unless t == type do throw (.mixedTypes (.type type) (.type t))
    allOfType type es

/-- The type of the first argument, once all others have one. -/
def firstType : List Expr → Except ModelError ElemType
  | [] => throw (.emptyCollection .sequence)
  | e :: es => do
    allTyped es
    e.elemType

def allTyped : List Expr → Except ModelError Unit
  | [] => return
  | e :: es => do
    let _ ← e.elemType
    allTyped es

def domainsTyped : List Generator → Except ModelError Unit
  | [] => return
  | .over _ _ domain :: gs => do
    let _ ← domain.elemType
    domainsTyped gs

end

/-- Accepts a scalar of type bool as a statement of the model. -/
def Expr.requireStatement (e : Expr) : Except ModelError Unit :=
  requireConstraint .statement e e.elemType

end ConstraintModel
