import ConstraintModel.Expr
import ConstraintModel.Symbol

/-!
# Terms of the generated source

The expressions of the modelling language as far as generated sources use them, and their text.
Operations are in parentheses, so a term reads in one way only wherever it stands. A term keeps the
identity of what its words stand for, which its text does not show.
-/

namespace ConstraintModel.Source

inductive Function
  | power
  /-- The greatest element of an index set. -/
  | last
  /-- The index set of one dimension, counted from one, of an array of the given rank. -/
  | indexSet (dim rank : Nat)
  /-- The part of an array of the given rank inside ranges, with new index sets. -/
  | slice (rank : Nat)
  /-- The elements in row-major order with as many index sets. -/
  | reshape (rank : Nat)
  | aggregate (op : Aggregate)
  | global (kind : GlobalKind)
  deriving DecidableEq, Repr

def Function.name : Function → String
  | power => "pow"
  | last => "max"
  | indexSet dim rank =>
    if 1 < rank then "index_set_" ++ toString dim ++ "of" ++ toString rank else "index_set"
  | slice rank => "slice_" ++ toString rank ++ "d"
  | reshape rank => "array" ++ toString rank ++ "d"
  | aggregate op => op.name
  | global kind => kind.name

inductive Term
  | literal (value : Literal)
  /-- A variable, parameter, array or set. -/
  | entity (symbol : Symbol)
  | iterator (symbol : Symbol)
  | enumeration (type : Enumeration)
  | set (members : List Literal)
  | list (items : List Term)
  /-- From `first` to `last`, both included; `float` tells a range of floats from one of integers. -/
  | span (float : Bool) (first last : Term)
  | unary (op : UnaryOp) (operand : Term)
  | binary (op : BinaryOp) (left right : Term)
  | element (array : Symbol) (indices : List Term)
  | call (function : Function) (args : List Term)
  /-- An aggregate of a body over iterators and their domains. -/
  | comprehension (op : Aggregate) (heads : List (Symbol × Term)) (body : Term)

namespace Term

def commaSeparated (items : List String) : String :=
  ", ".intercalate items

/-- An operation on the text of its operand. -/
def unaryText (op : UnaryOp) (operand : String) : String :=
  match op with
  | .not => "(not " ++ operand ++ ")"
  | .negate => "(-" ++ operand ++ ")"
  | .absolute => "abs(" ++ operand ++ ")"

/-- An aggregate on the texts of its iterators and body. The least and greatest are taken of an array
of the bodies. -/
def comprehensionText (op : Aggregate) (heads body : String) : String :=
  match op with
  | .least | .greatest => op.name ++ "([" ++ body ++ " | " ++ heads ++ "])"
  | _ => op.name ++ "(" ++ heads ++ ")(" ++ body ++ ")"

mutual

def text : Term → String
  | literal v => v.text
  | entity s | iterator s => s.word
  | enumeration e => e.name
  | set members => "\x7b" ++ commaSeparated (members.map Literal.text) ++ "\x7d"
  | list items => "[" ++ commaSeparated (texts items) ++ "]"
  | span _ first last => first.text ++ ".." ++ last.text
  | unary op operand => unaryText op operand.text
  | binary op left right => "(" ++ left.text ++ " " ++ op.symbol ++ " " ++ right.text ++ ")"
  | element array indices => array.word ++ "[" ++ commaSeparated (texts indices) ++ "]"
  | call function args => function.name ++ "(" ++ commaSeparated (texts args) ++ ")"
  | comprehension op heads body =>
    comprehensionText op (commaSeparated (headTexts heads)) body.text

def texts : List Term → List String
  | [] => []
  | t :: ts => t.text :: texts ts

def headTexts : List (Symbol × Term) → List String
  | [] => []
  | (s, domain) :: heads => (s.word ++ " in " ++ domain.text) :: headTexts heads

end

end Term

end ConstraintModel.Source
