/-!
# Operators, aggregates and global constraints

The operations of the modelling language with their spelling in it.
-/

namespace ConstraintModel

inductive UnaryOp
  | not
  | negate
  | absolute
  deriving DecidableEq, Repr

/-- How a message names the operation. -/
def UnaryOp.title : UnaryOp → String
  | not => "Not"
  | negate => "Neg"
  | absolute => "Abs"

/-- Operations on two operands, written between them. -/
inductive BinaryOp
  | add
  | sub
  | mul
  | divide
  /-- Integer division, truncated toward zero. -/
  | quotient
  | remainder
  | eq
  | ne
  | lt
  | gt
  | le
  | ge
  | and
  | or
  | xor
  | implies
  | member
  deriving DecidableEq, Repr

namespace BinaryOp

def symbol : BinaryOp → String
  | add => "+"
  | sub => "-"
  | mul => "*"
  | divide => "/"
  | quotient => "div"
  | remainder => "mod"
  | eq => "=="
  | ne => "!="
  | lt => "<"
  | gt => ">"
  | le => "<="
  | ge => ">="
  | and => "/\\"
  | or => "\\/"
  | xor => "xor"
  | implies => "->"
  | member => "in"

/-- Whether the operands and the result are numbers. -/
def isArithmetic : BinaryOp → Bool
  | add | sub | mul | divide | quotient | remainder => true
  | _ => false

def isLogical : BinaryOp → Bool
  | and | or | xor | implies => true
  | _ => false

/-- Whether the right operand divides in the integers. -/
def isIntegerDivision : BinaryOp → Bool
  | quotient | remainder => true
  | _ => false

/-- All operations, arithmetic before comparisons before connectives. -/
def all : List BinaryOp :=
  [add, sub, mul, divide, quotient, remainder, eq, ne, lt, gt, le, ge, and, or, xor, implies, member]

end BinaryOp

/-- Operations that combine the members of a collection. -/
inductive Aggregate
  | sum
  | product
  | count
  | every
  | any
  | least
  | greatest
  deriving DecidableEq, Repr

namespace Aggregate

/-- The function of the modelling language. -/
def name : Aggregate → String
  | sum => "sum"
  | product => "product"
  | count => "count"
  | every => "forall"
  | any => "exists"
  | least => "min"
  | greatest => "max"

def all : List Aggregate :=
  [sum, product, count, every, any, least, greatest]

end Aggregate

/-- Constraints from the library of the modelling language. -/
inductive GlobalKind
  | allDifferent
  | allDifferentExceptZero
  | allDifferentExcept
  | allEqual
  | distinctCount
  | circuit
  | increasing
  | strictlyIncreasing
  | decreasing
  | strictlyDecreasing
  | cumulative
  | disjunctive
  | disjunctiveStrict
  | table
  deriving DecidableEq, Repr

namespace GlobalKind

/-- The predicate or function of the library. -/
def name : GlobalKind → String
  | allDifferent => "alldifferent"
  | allDifferentExceptZero => "alldifferent_except_0"
  | allDifferentExcept => "alldifferent_except"
  | allEqual => "all_equal"
  | distinctCount => "nvalue"
  | circuit => "circuit"
  | increasing => "increasing"
  | strictlyIncreasing => "strictly_increasing"
  | decreasing => "decreasing"
  | strictlyDecreasing => "strictly_decreasing"
  | cumulative => "cumulative"
  | disjunctive => "disjunctive"
  | disjunctiveStrict => "disjunctive_strict"
  | table => "table"

/-- The library file that declares it. -/
def file : GlobalKind → String
  | allDifferent => "alldifferent.mzn"
  | allDifferentExceptZero => "alldifferent_except_0.mzn"
  | allDifferentExcept => "alldifferent_except.mzn"
  | allEqual => "all_equal.mzn"
  | distinctCount => "nvalue_fn.mzn"
  | circuit => "circuit.mzn"
  | increasing => "increasing.mzn"
  | strictlyIncreasing => "strictly_increasing.mzn"
  | decreasing => "decreasing.mzn"
  | strictlyDecreasing => "strictly_decreasing.mzn"
  | cumulative => "cumulative.mzn"
  | disjunctive => "disjunctive.mzn"
  | disjunctiveStrict => "disjunctive_strict.mzn"
  | table => "table.mzn"

/-- Whether an argument of several dimensions is flattened. A circuit numbers its nodes by index and
a table keeps its rows, so these two take arrays as they are. -/
def flattens : GlobalKind → Bool
  | circuit | table => false
  | _ => true

/-- All of them, in the order in which a model includes their files. -/
def all : List GlobalKind :=
  [allDifferent, allDifferentExceptZero, allDifferentExcept, allEqual, distinctCount, circuit,
    increasing, strictlyIncreasing, decreasing, strictlyDecreasing, cumulative, disjunctive,
    disjunctiveStrict, table]

end GlobalKind

end ConstraintModel
