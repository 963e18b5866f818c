import ConstraintModel.Error

/-!
# Expressions

The tree that every value of a model is: leaves (literals, variables, parameters, arrays, sets),
collections made of them, and operations. Named leaves and iterators carry an identity; two nodes
with one identity are the same entity of the model.
-/

namespace ConstraintModel

/-- The members of a parameter set. -/
inductive SetMembers
  | listed (values : List Literal)
  /-- The integers from `start` up to but not including `stop`. -/
  | interval (start stop : Int)
  deriving DecidableEq, Repr

mutual

/-- The values that a decision variable may take. -/
inductive Domain
  | int
  | float
  | bool
  /-- From `start` up to `stop`, which integers do not reach and floats do. -/
  | range (start stop : Expr)
  | enumeration (type : Enumeration)

inductive Expr
  | literal (value : Literal)
  | var (id : NodeId) (domain : Domain)
  /-- A variable that equals an operation of the given type. -/
  | boundVar (id : NodeId) (type : ElemType) (value : Expr)
  | param (id : NodeId) (value : Literal)
  /-- A parameter that equals an operation over other parameters. -/
  | derivedParam (id : NodeId) (value : Expr)
  | varArray (id : NodeId) (domain : Domain) (shape : Shape)
  /-- An array of given values in row-major order. -/
  | paramArray (id : NodeId) (values : List Literal) (shape : Shape)
  | varSet (id : NodeId) (domain : Domain)
  | paramSet (id : NodeId) (members : SetMembers)
  /-- A set without a name, written where it is used. -/
  | setLiteral (values : List Literal)
  /-- A part of an array, with one position for each of its dimensions. -/
  | view (array : Expr) (positions : List Position)
  | range (start stop : Expr)
  | sequence (items : List Expr)
  /-- The values of an enumeration as a collection. -/
  | enumeration (type : Enumeration)
  /-- The variable of an enclosing generator. -/
  | iterator (id : NodeId) (type : ElemType)
  | unary (op : UnaryOp) (operand : Expr)
  | binary (op : BinaryOp) (left right : Expr)
  | power (base exponent : Expr)
  | size (array : Expr) (dim : Nat)
  /-- An aggregate over whole collections. -/
  | aggregate (op : Aggregate) (args : List Expr)
  /-- An aggregate of a body over all bindings of the generators. -/
  | comprehension (op : Aggregate) (generators : List Generator) (body : Expr)
  | global (kind : GlobalKind) (args : List Expr)

/-- What is taken along one dimension of an array. -/
inductive Position
  | index (index : Expr)
  /-- The indices from `start` up to but not including `stop`. -/
  | slice (start stop : Expr)

/-- An iterator that ranges over the members of a domain. -/
inductive Generator
  | over (id : NodeId) (type : ElemType) (domain : Expr)

end

/-- Whether the position keeps its dimension. -/
def Position.isSlice : Position → Bool
  | index _ => false
  | slice _ _ => true

/-- The number of dimensions that a view keeps. -/
def sliceCount (positions : List Position) : Nat :=
  positions.countP Position.isSlice

namespace Expr

/-- The identity of a variable, parameter, array or set. -/
def id? : Expr → Option NodeId
  | var id _ | boundVar id _ _ | param id _ | derivedParam id _
  | varArray id _ _ | paramArray id _ _ | varSet id _ | paramSet id _ => some id
  | _ => none

/-- The integer that an integer literal is, or that a parameter holds. -/
def int? : Expr → Option Int
  | literal (.int v) | param _ (.int v) => some v
  | _ => none

def literalInt? : Expr → Option Int
  | literal (.int v) => some v
  | _ => none

/-- Whether this is a zero literal or a parameter that holds one. -/
def isZero : Expr → Bool
  | literal v | param _ v => v.isZero
  | _ => false

/-- Whether a variable can be bound to this: an operation, or one element of an array. -/
def isOperation : Expr → Bool
  | unary .. | binary .. | power .. | size .. | aggregate .. | comprehension .. | global .. => true
  | view _ positions => sliceCount positions == 0
  | _ => false

/-- Whether this stands for several values. -/
def isCollection : Expr → Bool
  | varArray .. | paramArray .. | varSet .. | paramSet .. | setLiteral ..
  | range .. | sequence .. | enumeration .. => true
  | view _ positions => sliceCount positions != 0
  | _ => false

def shape? : Expr → Option Shape
  | varArray _ _ shape | paramArray _ _ shape => some shape
  | _ => none

def description : Expr → Description
  | literal v => .literal v
  | var id _ | boundVar id _ _ => .var id
  | param id _ | derivedParam id _ => .param id
  | varArray id _ shape | paramArray id _ shape => .array id shape
  | varSet id _ | paramSet id _ => .set id
  | setLiteral _ => .setLiteral
  | view .. => .view
  | range .. => .range
  | sequence _ => .sequence
  | enumeration e => .enumeration e
  | iterator .. => .iterator
  | unary op _ => .unary op
  | binary op _ _ => .binary op
  | power .. => .power
  | size .. => .size
  | aggregate op _ | comprehension op _ _ => .aggregate op
  | global kind _ => .global kind

def subject (e : Expr) : Subject :=
  .node e.description

end Expr

/-! ## Values known before the search -/

mutual

/-- Whether the value is known before the search: no decision variable is reachable from it. -/
def Expr.isFixed : Expr → Bool
  | .literal _ | .param .. | .paramArray .. | .paramSet .. | .setLiteral _
  | .enumeration _ | .iterator .. | .size .. => true
  | .var .. | .boundVar .. | .varArray .. | .varSet .. => false
  | .derivedParam _ value => value.isFixed
  | .view array positions => array.isFixed && positionsFixed positions
  | .range start stop => start.isFixed && stop.isFixed
  | .sequence items => allFixed items
  | .unary _ operand => operand.isFixed
  | .binary _ left right => left.isFixed && right.isFixed
  | .power base exponent => base.isFixed && exponent.isFixed
  | .aggregate _ args => allFixed args
  | .comprehension _ generators body => generatorsFixed generators && body.isFixed
  | .global _ args => allFixed args

def allFixed : List Expr → Bool
  | [] => true
  | e :: es => e.isFixed && allFixed es

def positionsFixed : List Position → Bool
  | [] => true
  | .index i :: ps => i.isFixed && positionsFixed ps
  | .slice start stop :: ps => start.isFixed && stop.isFixed && positionsFixed ps

def generatorsFixed : List Generator → Bool
  | [] => true
  | .over _ _ domain :: gs => domain.isFixed && generatorsFixed gs

end

end ConstraintModel
