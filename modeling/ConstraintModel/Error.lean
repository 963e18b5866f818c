import ConstraintModel.Literal
import ConstraintModel.Operator
import ConstraintModel.Shape

/-!
# Errors

The faults of a model as it is built and compiled, each with the data that its message names.
`ModelError.message` holds every wording.
-/

namespace ConstraintModel

/-- The identity of a variable, parameter, array, set or iterator. -/
structure NodeId where
  number : Nat
  deriving DecidableEq, Repr

/-- What a message can say about a node of an expression. -/
inductive Description
  | literal (value : Literal)
  | var (id : NodeId)
  | param (id : NodeId)
  | array (id : NodeId) (shape : Shape)
  | set (id : NodeId)
  | setLiteral
  | view
  | range
  | sequence
  | enumeration (type : Enumeration)
  | iterator
  | unary (op : UnaryOp)
  | binary (op : BinaryOp)
  | power
  | size
  | aggregate (op : Aggregate)
  | global (kind : GlobalKind)
  deriving DecidableEq, Repr

/-- A number sign and the number of a node. -/
def NodeId.text (id : NodeId) : String :=
  "#" ++ toString id.number

def Description.text : Description → String
  | literal v => "literal " ++ v.text
  | var id => "variable " ++ id.text
  | param id => "parameter " ++ id.text
  | array id shape => "array " ++ id.text ++ " of shape " ++ shape.text
  | set id => "set " ++ id.text
  | setLiteral => "set literal"
  | view => "array view"
  | range => "range"
  | sequence => "sequence"
  | enumeration e => "enum " ++ e.name
  | iterator => "iterator"
  | unary op => op.title ++ " operation"
  | binary op => "`" ++ op.symbol ++ "` operation"
  | power => "pow operation"
  | size => "size query"
  | aggregate op => op.name ++ " reduction"
  | global kind => kind.name ++ " constraint"

/-- What was found where something else was expected. -/
inductive Subject
  | node (description : Description)
  | type (type : ElemType)
  /-- A list inside nested values. -/
  | list
  deriving DecidableEq, Repr

def Subject.text : Subject → String
  | node d => d.text
  | type t => t.text
  | list => "array"

/-- Collections that must not be empty. -/
inductive CollectionKind
  | array
  | set
  | sequence
  | enumeration
  deriving DecidableEq, Repr

def CollectionKind.text : CollectionKind → String
  | array => "array"
  | set => "set"
  | sequence => "sequence"
  | enumeration => "enum"

/-- Places that accept some types and nodes only. -/
inductive TypeUse
  | arithmetic
  | rangeBounds
  | set
  | iteration
  | aggregate (op : Aggregate)
  | globalArgument
  | exceptedValues
  | cumulativeLimit
  | table
  | declaration
  deriving DecidableEq, Repr

def TypeUse.text : TypeUse → String
  | arithmetic => "arithmetic"
  | rangeBounds => "range bounds"
  | set => "set"
  | iteration => "iteration"
  | aggregate op => op.name
  | globalArgument => "global constraint"
  | exceptedValues => "alldifferent_except"
  | cumulativeLimit => "cumulative limit"
  | table => "table, which expects a 2-d array"
  | declaration => "declaration"

/-- Places that accept constraints only. -/
inductive ConstraintUse
  | negation
  | connective (op : BinaryOp)
  | aggregate (op : Aggregate)
  | statement
  deriving DecidableEq, Repr

def ConstraintUse.text : ConstraintUse → String
  | negation => "not"
  | connective op => op.symbol
  | aggregate op => op.name
  | statement => "constraint"

inductive NameFault
  | malformed
  | reserved
  deriving DecidableEq, Repr

def NameFault.text : NameFault → String
  | malformed => "identifiers start with a letter followed by letters, digits or underscores"
  | reserved => "it is a reserved word"

inductive ModelError
  /-- A range or slice has a step other than one. -/
  | unsupportedStep (step : Int)
  /-- A range with known bounds holds nothing. -/
  | emptyRange (start stop : Literal)
  /-- A known index or slice bound is negative. -/
  | negativeIndex (index : Int)
  /-- A known index is beyond its dimension. -/
  | indexOutOfBounds (index : Int) (dim extent : Nat)
  /-- More positions are given than the array has dimensions. -/
  | tooManyIndices (rank given : Nat)
  /-- Something other than an array is indexed or measured. -/
  | notAnArray (found : Description)
  /-- Members of a collection differ in type. -/
  | mixedTypes (expected found : Subject)
  /-- Lists at one level of nested values differ in length. -/
  | raggedArray (level expected found : Nat)
  | emptyCollection (kind : CollectionKind)
  /-- A shape has no dimension, or one without elements. -/
  | invalidShape (shape : Shape)
  /-- An integer division by a known zero. -/
  | divisionByZero
  /-- A power is given a modulus. -/
  | modulusUnsupported
  | unsupportedType (found : Subject) (use : TypeUse)
  /-- The excepted values of a constraint are a set variable. -/
  | variableSetNotAllowed
  /-- Both ways of excepting values are used at once. -/
  | conflictingExceptions
  /-- Two types have no common numeric type. -/
  | ambiguousType (left right : ElemType)
  | notAConstraint (use : ConstraintUse) (found : Subject)
  /-- An iterator would range over floats. -/
  | floatIteration
  /-- A variable or parameter is bound to something other than an operation. -/
  | invalidBinding (found : Description)
  /-- A derived parameter depends on decision variables. -/
  | variableInParameter (found : Description)
  /-- A float has no spelling in a model. -/
  | nonFiniteFloat (value : Float)
  | duplicateName (name : String)
  | invalidName (name : String) (fault : NameFault)
  /-- A node is mentioned that nothing names. -/
  | unnamed (found : Description)
  /-- The objective is a collection. -/
  | collectionObjective (found : Description)
  /-- The objective is no number. -/
  | nonNumericObjective (found : Description) (type : ElemType)
  deriving DecidableEq, Repr

def ModelError.message : ModelError → String
  | unsupportedStep step => "step other than 1 isn't supported, but it is " ++ toString step
  | emptyRange start stop =>
    "start(" ++ start.text ++ ") should be smaller than stop(" ++ stop.text ++ ")"
  | negativeIndex index =>
    "Negative indexes are not supported for now, but " ++ toString index ++ " was specified"
  | indexOutOfBounds index dim extent =>
    "index " ++ toString index ++ " is out of bounds for dimension " ++ toString dim ++
      " with size " ++ toString extent
  | tooManyIndices rank given =>
    "the array has " ++ toString rank ++ " dimensions, but " ++ toString given ++
      " indexes were specified"
  | notAnArray found => found.text ++ " can't be used as an array here"
  | mixedTypes expected found =>
    "All elements of the array should be the same type, but " ++ expected.text ++ " and " ++
      found.text ++ " were found"
  | raggedArray level expected found =>
    "Subarrays of different length are not supported, length of all subarrays at level " ++
      toString level ++ " should be " ++ toString expected ++ ", but one has " ++ toString found
  | emptyCollection kind => "empty " ++ kind.text ++ " is not supported"
  | invalidShape shape =>
    "invalid shape " ++ shape.text ++ ", every dimension should have a positive extent"
  | divisionByZero => "right part of expression can't be 0"
  | modulusUnsupported => "modulo is not supported"
  | unsupportedType found use => "type " ++ found.text ++ " is not supported for " ++ use.text
  | variableSetNotAllowed => "MiniZinc doesn't support set of var as `except` argument"
  | conflictingExceptions => "Arguments `except_0` and `except` can't be set at the same time"
  | ambiguousType left right =>
    "can't combine " ++ left.text ++ " and " ++ right.text ++ " in an arithmetic expression"
  | notAConstraint use found =>
    "`" ++ use.text ++ "` expects constraint operands, but got " ++ found.text
  | floatIteration => "float ranges are not supported as argument"
  | invalidBinding found =>
    "Can not bind a value to " ++ found.text ++ ", only derived operations can be bound"
  | variableInParameter found =>
    "a derived parameter can't depend on decision variables, but " ++ found.text ++ " does"
  | nonFiniteFloat value =>
    "float value " ++ Literal.floatLayout.write value ++
      " is not supported, only finite floats can be used"
  | duplicateName name => "attribute `" ++ name ++ "` was declared twice"
  | invalidName name fault => "`" ++ name ++ "` can't be used as a name: " ++ fault.text
  | unnamed found => found.text ++ " was referenced before a name was assigned"
  | collectionObjective found => "invalid objective: " ++ found.text
  | nonNumericObjective found type =>
    "invalid objective: " ++ found.text ++ " of type " ++ type.text

/-- Refuses the floats that no decimal stands for. -/
def Literal.requireFinite : Literal → Except ModelError Unit
  | .float v => if v.isFinite then return else throw (.nonFiniteFloat v)
  | _ => return

/-- Refuses a shape that no array has. -/
def Shape.require (s : Shape) : Except ModelError Unit :=
  if s.isValid then return else throw (.invalidShape s)

/-- An enumeration with the given variants, of which there has to be one. -/
def Enumeration.declare (name : String) (variants : List String) : Except ModelError Enumeration :=
  if h : variants = [] then throw (.emptyCollection .enumeration) else return ⟨name, variants, h⟩

end ConstraintModel
