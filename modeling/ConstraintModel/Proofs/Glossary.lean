import ConstraintModel.Proofs.Numbering
import ConstraintModel.Proofs.Phrase
import Mathlib.Data.List.Perm.Basic

/-!
# Glossaries

What the words of a model stand for, and the expression that a phrase stands for once its words are
looked up. A glossary knows each entity by its identity and each float by its text. Iterators are
numbered as they are bound, so phrases give expressions up to the names of iterators.
-/

namespace ConstraintModel

open Source

/-- A model with the entities that its identities belong to, and the floats that are in use. -/
structure Glossary where
  model : ResolvedModel
  node : NodeId → Expr
  floats : List Float

/-- The iterators that words stand for, innermost first. -/
abbrev IteratorWords := List (String × Expr)

namespace Glossary

variable (g : Glossary)

/-! ## Words -/

def entity? (w : String) : Option Expr :=
  (g.model.symbols.find? (·.word == w)).map fun s => g.node s.id

def variant? (w : String) : Option EnumValue :=
  g.model.enumerations.findSome? (·.value? w)

def enumeration? (w : String) : Option Enumeration :=
  g.model.enumerations.find? (·.name == w)

def number? (s : List Char) : Option Literal :=
  if isIntegral s then (String.ofList s).toInt?.map .int
  else (g.floats.find? fun x => (Literal.floatLayout.write x).toList == s).map .float

/-- What a word stands for: a number if a digit leads. -/
def lookup (words : IteratorWords) (w : String) : Option Expr :=
  if w.toList.head?.any Char.isDigit then (g.number? w.toList).map .literal
  else if w = "true" then some (.literal (.bool true))
  else if w = "false" then some (.literal (.bool false))
  else (words.lookup w).or <| (g.entity? w).or <|
    ((g.variant? w).map fun v => .literal (.enumeration v)).or <|
      (g.enumeration? w).map .enumeration

/-! ## Phrases -/

/-- The stop of a range whose last member is the given one. -/
def stopOf : Expr → Expr
  | .literal (.int v) => .literal (.int (v + 1))
  | .binary .sub stop (.literal (.int 1)) => stop
  | e => e

/-- The range from the first to the last of a span, which floats reach. -/
def rangeTo (first last : Expr) : Expr :=
  if (Expr.range first last).elemType.toOption = some .float then .range first last
  else .range first (stopOf last)

def aggregate? (f : String) : Option Aggregate :=
  Aggregate.all.find? (·.name == f)

/-- A function on its arguments. An array in one dimension is taken as the array itself. -/
def applied? (f : String) (args : List Expr) : Option Expr :=
  if f = "pow" then
    match args with
    | [a, b] => some (.power a b)
    | _ => none
  else if f = "abs" then
    match args with
    | [e] => some (.unary .absolute e)
    | _ => none
  else if f = "array1d" then
    match args with
    | [e] => some e
    | _ => none
  else
    ((aggregate? f).map fun op => .aggregate op args).or
      ((GlobalKind.all.find? (·.name == f)).map fun kind => .global kind args)

/-- The size of a dimension, by the function that gives its index set. -/
def size? : BinaryOp → Phrase → Option Expr
  | .add, .call _ [(none, .call f [(none, .word w)])] => do
    let array ← g.entity? w
    let shape ← array.shape?
    let dim ← (List.range shape.rank).find? fun d =>
      (Function.indexSet (d + 1) shape.rank).name == f
    return .size array dim
  | _, _ => none

def literalOf? : Expr → Option Literal
  | .literal l => some l
  | _ => none

mutual

/-- The expression that a phrase stands for. -/
def recover (words : IteratorWords) : Phrase → Option Expr
  | .word w => g.lookup words w
  | .negative p => do
    let w ← p.word?
    let l ← g.number? ('-' :: w.toList)
    return .literal l
  | .negated p => do return .unary .negate (← recover words p)
  | .negation p => do return .unary .not (← recover words p)
  | .operation op p q =>
    -- An index set stands for no expression, so no sum is taken for a size.
    Option.or (do return .binary op (← recover words p) (← recover words q)) (g.size? op p)
  | .span p q => do return rangeTo (← recover words p) (← recover words q)
  | .set items => do
    let es ← recoverAll words items
    return .setLiteral (← es.mapM literalOf?)
  | .list items => do return .sequence (← recoverAll words items)
  | .generated .. => none
  | .element w items => do
    let array ← g.entity? w
    return .view array ((← recoverAll words items).map .index)
  | .call f [(none, .generated body heads)] => do
    let op ← aggregate? f
    let (generators, inner) ← recoverHeads words heads
    return .comprehension op generators (← recover inner body)
  | .call f args => do applied? f (← recoverAll words args)
  | .quantified f heads body => do
    let op ← aggregate? f
    let (generators, inner) ← recoverHeads words heads
    return .comprehension op generators (← recover inner body)

def recoverAll (words : IteratorWords) : List Item → Option (List Expr)
  | [] => some []
  | (none, p) :: items => do return (← recover words p) :: (← recoverAll words items)
  | (some _, _) :: _ => none

/-- The generators that words are drawn by, and what words stand for inside them. -/
def recoverHeads (words : IteratorWords) : List Item → Option (List Generator × IteratorWords)
  | [] => some ([], words)
  | (some w, p) :: heads => do
    let domain ← recover words p
    let type ← domain.elemType.toOption
    let id : NodeId := ⟨words.length⟩
    let (generators, inner) ← recoverHeads ((w, .iterator id type) :: words) heads
    return (.over id type domain :: generators, inner)
  | (none, _) :: _ => none

end

end Glossary

end ConstraintModel
