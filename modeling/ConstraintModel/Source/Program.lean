import ConstraintModel.Source.Feature
import ConstraintModel.Source.OfExpr

/-!
# Programs

The source of a whole model: enumerations, parameters, variables with what they equal, constraints and
what is asked of the solutions. `ResolvedModel.program` builds it and `Program.text` writes one
statement a line, after the lines that include the library files it needs.
-/

namespace ConstraintModel

namespace Source

/-- What the elements of a declaration range over. -/
inductive Base
  | type (type : ElemType)
  | span (term : Term)

/-- The type of a declaration, where `search` tells variables from parameters. -/
inductive DeclaredType
  | scalar (search : Bool) (base : Base)
  | array (shape : Shape) (search : Bool) (base : Base)
  | set (search : Bool) (base : Base)

/-- A declared entity with the term that defines it, if one does. -/
structure Declaration where
  type : DeclaredType
  symbol : Symbol
  definition : Option Term

/-- A declared variable with the term that it equals, if it is bound to one. -/
structure VariableDeclaration where
  declaration : Declaration
  value : Option Term

inductive Goal
  | satisfy
  | minimize (term : Term)
  | maximize (term : Term)

structure Program where
  enumerations : List Enumeration
  parameters : List Declaration
  decisions : List VariableDeclaration
  constraints : List Term
  goal : Goal

/-! ## Text -/

def Base.text : Base → String
  | type t => t.text
  | span t => t.text

/-- The word before what is searched for. -/
def searchMark (search : Bool) : String :=
  if search then "var " else ""

def DeclaredType.text : DeclaredType → String
  | scalar search base => searchMark search ++ base.text
  | array shape search base =>
    "array[" ++ shape.indexSets ++ "] of " ++ searchMark search ++ base.text
  | set search base => searchMark search ++ "set of " ++ base.text

def Declaration.text (d : Declaration) : String :=
  d.type.text ++ ": " ++ d.symbol.word ++
    (match d.definition with
      | some t => " = " ++ t.text
      | none => "") ++ ";"

/-- The statement that a term holds. -/
def constraintText (t : Term) : String :=
  "constraint " ++ t.text ++ ";"

/-- The constraint that a variable equals what it is bound to. -/
def VariableDeclaration.equation? (d : VariableDeclaration) : Option Term :=
  d.value.map fun t => .binary .eq (.entity d.declaration.symbol) t

/-- A declaration, and the equation after it. -/
def VariableDeclaration.lines (d : VariableDeclaration) : List String :=
  d.declaration.text :: (d.equation?.map constraintText).toList

def Goal.text : Goal → String
  | satisfy => "solve satisfy;"
  | minimize t => "solve minimize " ++ t.text ++ ";"
  | maximize t => "solve maximize " ++ t.text ++ ";"

def enumerationText (e : Enumeration) : String :=
  "enum " ++ e.name ++ " = \x7b" ++ Term.commaSeparated e.variants ++ "\x7d;"

/-! ## Features -/

def Base.features : Base → List Feature
  | type .float => [.floats]
  | type _ => []
  | span t => t.features

def DeclaredType.features : DeclaredType → List Feature
  | scalar _ base | array _ _ base | set _ base => base.features

def Declaration.features (d : Declaration) : List Feature :=
  d.type.features ++ d.definition.toList.flatMap Term.features

def VariableDeclaration.features (d : VariableDeclaration) : List Feature :=
  d.declaration.features ++ d.equation?.toList.flatMap Term.features

def Goal.features : Goal → List Feature
  | satisfy => []
  | minimize t | maximize t => t.features

namespace Program

def features (p : Program) : List Feature :=
  p.parameters.flatMap Declaration.features ++ p.decisions.flatMap VariableDeclaration.features ++
    p.constraints.flatMap Term.features ++ p.goal.features

/-- The statements of a program without its includes, one a line. -/
def statements (p : Program) : List String :=
  p.enumerations.map enumerationText ++ p.parameters.map Declaration.text ++
    p.decisions.flatMap VariableDeclaration.lines ++ p.constraints.map constraintText ++
    [p.goal.text]

def lines (p : Program) : List String :=
  Feature.includeLines p.features ++ p.statements

def text (p : Program) : String :=
  "\n".intercalate p.lines

end Program

end Source

open Source

/-! ## Programs of models -/

/-- What the values of a domain are declared to range over. -/
def Domain.base (v : Vocabulary) : Domain → Except ModelError Base
  | .int => return .type .int
  | .float => return .type .float
  | .bool => return .type .bool
  | .enumeration e => return .type (.enumeration e)
  | .range start stop => return .span (← rangeSpan start stop (start.term v []) (stop.term v []))

/-- What the members of a parameter set are declared to be. -/
def SetMembers.base : SetMembers → Except ModelError Base
  | .listed values => return .type (← literalsType .set values)
  | .interval start stop => return .span (.span false (.int start) (.int (stop - 1)))

def Expr.declaration (v : Vocabulary) (name : String) : Expr → Except ModelError Declaration
  | .var id domain => return ⟨.scalar true (← domain.base v), ⟨id, name⟩, none⟩
  | .boundVar id type _ => return ⟨.scalar true (.type type), ⟨id, name⟩, none⟩
  | .param id value => return ⟨.scalar false (.type value.elemType), ⟨id, name⟩, none⟩
  | .derivedParam id value => do
    let type ← value.elemType
    return ⟨.scalar false (.type type), ⟨id, name⟩, some (← value.term v [])⟩
  | .varArray id domain shape => return ⟨.array shape true (← domain.base v), ⟨id, name⟩, none⟩
  | .paramArray id values shape =>
    return ⟨.array shape false (.type (← literalsType .array values)), ⟨id, name⟩, none⟩
  | .varSet id domain => return ⟨.set true (← domain.base v), ⟨id, name⟩, none⟩
  | .paramSet id members => return ⟨.set false (← members.base), ⟨id, name⟩, none⟩
  | e => throw (.unsupportedType e.subject .declaration)

/-- The declaration of a variable with the term that it equals. -/
def Expr.variableDeclaration (v : Vocabulary) (name : String) (e : Expr) :
    Except ModelError VariableDeclaration := do
  let declaration ← e.declaration v name
  match e with
  | .boundVar _ _ value => return ⟨declaration, some (← value.term v [])⟩
  | _ => return ⟨declaration, none⟩

def Objective.goal (v : Vocabulary) : Objective → Except ModelError Goal
  | .satisfy => return .satisfy
  | .minimize e => return .minimize (← e.term v [])
  | .maximize e => return .maximize (← e.term v [])

def ResolvedModel.program (m : ResolvedModel) : Except ModelError Program := do
  let v := Vocabulary.ofModel m
  let parameters ← m.parameters.mapM fun (name, e) => e.declaration v name
  let decisions ← m.decisions.mapM fun (name, e) => e.variableDeclaration v name
  let constraints ← m.constraints.mapM fun e => e.term v []
  let goal ← m.objective.goal v
  return ⟨m.enumerations, parameters, decisions, constraints, goal⟩

structure CompiledModel where
  resolved : ResolvedModel
  program : Program

def Model.compile (m : Model) : Build CompiledModel := do
  let resolved ← m.resolve
  let program ← resolved.program
  return ⟨resolved, program⟩

end ConstraintModel
