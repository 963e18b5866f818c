import ConstraintModel.Model

/-!
# Leaves and identities

The named leaves that the term of an expression mentions. The domain of a variable and the value
that it is bound to belong to its declaration, so a leaf is not looked into. The identities in an
expression are those of all its nodes, in whatever their leaves hold too.
-/

namespace ConstraintModel

mutual

/-- The variables, parameters, arrays and sets that the term of an expression mentions. -/
def Expr.leaves : Expr → List Expr
  | .var id domain => [.var id domain]
  | .boundVar id type value => [.boundVar id type value]
  | .param id value => [.param id value]
  | .derivedParam id value => [.derivedParam id value]
  | .varArray id domain shape => [.varArray id domain shape]
  | .paramArray id values shape => [.paramArray id values shape]
  | .varSet id domain => [.varSet id domain]
  | .paramSet id members => [.paramSet id members]
  | .literal _ | .setLiteral _ | .enumeration _ | .iterator .. => []
  | .view array positions => array :: positionLeaves positions
  | .size array _ => [array]
  | .unary _ operand => operand.leaves
  | .range left right | .binary _ left right | .power left right => left.leaves ++ right.leaves
  | .sequence items => allLeaves items
  | .aggregate _ args | .global _ args => allLeaves args
  | .comprehension _ generators body => generatorLeaves generators ++ body.leaves

def allLeaves : List Expr → List Expr
  | [] => []
  | e :: es => e.leaves ++ allLeaves es

def positionLeaves : List Position → List Expr
  | [] => []
  | .index i :: ps => i.leaves ++ positionLeaves ps
  | .slice start stop :: ps => start.leaves ++ stop.leaves ++ positionLeaves ps

def generatorLeaves : List Generator → List Expr
  | [] => []
  | .over _ _ domain :: gs => domain.leaves ++ generatorLeaves gs

end

theorem Expr.leaves_of_id {e : Expr} {id : NodeId} (h : e.id? = some id) : e.leaves = [e] := by
  cases e <;> simp_all [Expr.id?, Expr.leaves]

mutual

def Domain.ids : Domain → List NodeId
  | .range start stop => start.ids ++ stop.ids
  | .int | .float | .bool | .enumeration _ => []

def Expr.ids : Expr → List NodeId
  | .var id domain | .varArray id domain _ | .varSet id domain => id :: domain.ids
  | .boundVar id _ value | .derivedParam id value => id :: value.ids
  | .param id _ | .paramArray id _ _ | .paramSet id _ | .iterator id _ => [id]
  | .literal _ | .setLiteral _ | .enumeration _ => []
  | .view array positions => array.ids ++ positionIds positions
  | .size array _ => array.ids
  | .unary _ operand => operand.ids
  | .range left right | .binary _ left right | .power left right => left.ids ++ right.ids
  | .sequence items => allIds items
  | .aggregate _ args | .global _ args => allIds args
  | .comprehension _ generators body => generatorsIds generators ++ body.ids

def allIds : List Expr → List NodeId
  | [] => []
  | e :: es => e.ids ++ allIds es

def positionIds : List Position → List NodeId
  | [] => []
  | .index i :: ps => i.ids ++ positionIds ps
  | .slice start stop :: ps => start.ids ++ stop.ids ++ positionIds ps

def generatorsIds : List Generator → List NodeId
  | [] => []
  | .over id _ domain :: gs => id :: domain.ids ++ generatorsIds gs

end

theorem Expr.mem_ids_of_id {e : Expr} {id : NodeId} (h : e.id? = some id) : id ∈ e.ids := by
  cases e <;> simp_all [Expr.id?, Expr.ids]

def Model.ids (m : Model) : List NodeId :=
  m.attributes.flatMap (fun entry => entry.2.ids) ++ allIds m.constraints ++
    allIds m.objective.value?.toList

end ConstraintModel
