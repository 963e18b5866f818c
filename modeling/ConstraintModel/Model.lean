import ConstraintModel.Construct.Leaf
import ConstraintModel.Identifier
import ConstraintModel.Symbol

/-!
# Models and their entities

A model names some expressions, asks for constraints and may have an objective. Resolving it settles
what its source declares: every attribute that is a variable, parameter, array or set gets a name,
every attribute that is an operation becomes a variable that equals it, and every enumeration in
reach is found once. Names live in a table of symbols beside the expressions.
-/

namespace ConstraintModel

/-- What is asked of the solutions of a model. -/
inductive Objective
  | satisfy
  | minimize (value : Expr)
  | maximize (value : Expr)

/-- The expression that is optimized. -/
def Objective.value? : Objective → Option Expr
  | satisfy => none
  | minimize e | maximize e => some e

/-- Named attributes in order, constraints and an objective. -/
structure Model where
  attributes : List (String × Expr)
  constraints : List Expr
  objective : Objective

/-! ## Enumerations in reach -/

def Literal.enumerations : Literal → List Enumeration
  | .enumeration v => [v.type]
  | _ => []

def ElemType.enumerations : ElemType → List Enumeration
  | .enumeration e => [e]
  | _ => []

def Domain.enumerations : Domain → List Enumeration
  | .enumeration e => [e]
  | _ => []

mutual

/-- The enumerations that an expression mentions, in order and with repetitions. -/
def Expr.enumerations : Expr → List Enumeration
  | .literal v | .param _ v => v.enumerations
  | .var _ domain | .varArray _ domain _ | .varSet _ domain => domain.enumerations
  | .boundVar _ type value => type.enumerations ++ value.enumerations
  | .derivedParam _ value => value.enumerations
  | .paramArray _ values _ | .paramSet _ (.listed values) | .setLiteral values =>
    values.flatMap Literal.enumerations
  | .paramSet _ (.interval ..) => []
  | .view array positions => array.enumerations ++ positionEnumerations positions
  | .range start stop => start.enumerations ++ stop.enumerations
  | .sequence items => allEnumerations items
  | .enumeration e => [e]
  | .iterator _ type => type.enumerations
  | .unary _ operand => operand.enumerations
  | .binary _ left right => left.enumerations ++ right.enumerations
  | .power base exponent => base.enumerations ++ exponent.enumerations
  | .size array _ => array.enumerations
  | .aggregate _ args => allEnumerations args
  | .comprehension _ generators body => generatorEnumerations generators ++ body.enumerations
  | .global _ args => allEnumerations args

def allEnumerations : List Expr → List Enumeration
  | [] => []
  | e :: es => e.enumerations ++ allEnumerations es

def positionEnumerations : List Position → List Enumeration
  | [] => []
  | .index i :: ps => i.enumerations ++ positionEnumerations ps
  | .slice start stop :: ps => start.enumerations ++ stop.enumerations ++ positionEnumerations ps

def generatorEnumerations : List Generator → List Enumeration
  | [] => []
  | .over _ _ domain :: gs => domain.enumerations ++ generatorEnumerations gs

end

/-- The first enumeration of each name, in order of appearance. -/
def distinctByName (es : List Enumeration) : List Enumeration :=
  es.foldl (fun found e => if found.any (·.name == e.name) then found else found ++ [e]) []

/-! ## Resolution -/

/-- The entities of a model: a symbol for each identity, and what is declared under its word. -/
structure Entities where
  symbols : List Symbol
  parameters : List (String × Expr)
  decisions : List (String × Expr)

/-- A model whose entities are named and whose enumerations are known. -/
structure ResolvedModel extends Entities where
  enumerations : List Enumeration
  constraints : List Expr
  objective : Objective

/-- Whether the value is given with the model instead of searched for. -/
def Expr.isParameter : Expr → Bool
  | .param .. | .derivedParam .. | .paramArray .. | .paramSet .. => true
  | _ => false

/-- Refuses a parameter whose value has no spelling. -/
def Expr.requireFiniteValue : Expr → Except ModelError Unit
  | .param _ v => v.requireFinite
  | _ => return

namespace Entities

def empty : Entities := ⟨[], [], []⟩

def nameOf? (s : Entities) (id : NodeId) : Option String :=
  (Symbol.lookup id s.symbols).map Symbol.word

/-- Names what an attribute holds, unless it has no identity or has a name. -/
def declare (s : Entities) (name : String) (e : Expr) : Except ModelError Entities :=
  match e.id? with
  | none => return s
  | some id => do
    if (s.nameOf? id).isSome then return s
    e.requireFiniteValue
    let symbols := s.symbols ++ [⟨id, name⟩]
    return if e.isParameter then { s with symbols, parameters := s.parameters ++ [(name, e)] }
      else { s with symbols, decisions := s.decisions ++ [(name, e)] }

/-- Names the attributes that follow those with the words in `used`. -/
def declareAll (s : Entities) (used : List String) : List (String × Expr) → Build Entities
  | [] => return s
  | (name, e) :: attributes => do
    Identifier.require name
    if name ∈ used then throw (.duplicateName name)
    let e ← if e.isOperation then e.bindVar else pure e
    let s ← s.declare name e
    s.declareAll (name :: used) attributes

end Entities

/-- Accepts an objective that is a number. -/
def Objective.require (o : Objective) : Except ModelError Unit :=
  match o.value? with
  | none => return
  | some e => do
    if e.isCollection then throw (.collectionObjective e.description)
    let type ← e.elemType
    unless type.isNumeric do throw (.nonNumericObjective e.description type)

/-- Settles the entities of a model. Constraints are checked first, then attributes, then
enumerations, then the objective. -/
def Model.resolve (m : Model) : Build ResolvedModel := do
  m.constraints.forM fun c => c.requireStatement
  let s ← Entities.empty.declareAll [] m.attributes
  let declared := (s.parameters ++ s.decisions).map Prod.snd
  let roots := declared ++ m.constraints ++ m.objective.value?.toList
  let enumerations := distinctByName (allEnumerations roots)
  enumerations.forM fun e => Identifier.requireAll e
  m.objective.require
  return { s with enumerations, constraints := m.constraints, objective := m.objective }

namespace ResolvedModel

def enumerationWords (m : ResolvedModel) : List String :=
  m.enumerations.flatMap fun e => e.name :: e.variants

def isTaken (m : ResolvedModel) (word : String) : Bool :=
  (Symbol.words m.symbols).contains word || m.enumerationWords.contains word

end ResolvedModel

end ConstraintModel
