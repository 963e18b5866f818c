import ConstraintModel.Rectangular
import ConstraintModel.Typing

/-!
# Named leaves

Variables, parameters, arrays and sets are made here. Each takes the next node identity once its own
checks have passed, so a construction that fails takes none.
-/

namespace ConstraintModel

/-- A construction that takes node identities in order and may fail. What it has taken stays taken
when it fails. -/
abbrev Build := ExceptT ModelError (StateM Nat)

def Build.fresh : Build NodeId :=
  modifyGet fun n => (⟨n⟩, n + 1)

/-! ## Ranges -/

/-- Refuses a range between literals that holds nothing. -/
def requireRange : Expr → Expr → Except ModelError Unit
  | .literal a, .literal b => if a.isEmptyRange b then throw (.emptyRange a b) else return
  | _, _ => return

def requireUnitStep (step : Int) : Except ModelError Unit :=
  if step = 1 then return else throw (.unsupportedStep step)

namespace Expr

/-- The range from zero up to `stop`. -/
def upTo (stop : Expr) : Expr :=
  .range (.literal (.int 0)) stop

/-- The range from `start` up to `stop` with a step, which has to be one. -/
def rangeBy (start stop : Expr) (step : Int) : Except ModelError Expr := do
  requireUnitStep step
  requireRange start stop
  return .range start stop

/-! ## Scalars -/

/-- The type of a variable or parameter that equals this operation. -/
def bindingType (value : Expr) : Except ModelError ElemType :=
  if value.isOperation then value.elemType else throw (.invalidBinding value.description)

def newVar (domain : Domain) : Build Expr :=
  return .var (← Build.fresh) domain

/-- A decision variable that equals an operation. -/
def bindVar (value : Expr) : Build Expr := do
  let type ← value.bindingType
  return .boundVar (← Build.fresh) type value

def newParam (value : Literal) : Build Expr :=
  return .param (← Build.fresh) value

/-- A parameter that equals an operation which no decision variable enters. -/
def bindParam (value : Expr) : Build Expr := do
  let _ ← value.bindingType
  unless value.isFixed do throw (.variableInParameter value.description)
  return .derivedParam (← Build.fresh) value

/-! ## Arrays -/

/-- An array of decision variables over one domain. -/
def newVarArray (domain : Domain) (shape : Shape) : Build Expr := do
  shape.require
  return .varArray (← Build.fresh) domain shape

/-- An array of the given rectangular data. -/
def newParamArray (data : Nested) : Build Expr := do
  let (shape, values) ← data.shape
  return .paramArray (← Build.fresh) values shape

/-! ## Sets -/

/-- Accepts integers, or values of one enumeration. -/
def requireMembers : List Literal → Except ModelError Unit
  | [] => throw (.emptyCollection .set)
  | v :: vs => do
    match v.elemType with
    | .int | .enumeration _ => pure ()
    | t => throw (.unsupportedType (.type t) .set)
    match vs.find? fun w => w.elemType != v.elemType with
    | some w => throw (.mixedTypes (.type v.elemType) (.type w.elemType))
    | none => return

/-- Accepts the domains that a set can be drawn from: integers and enumerations. -/
def requireSetDomain : Domain → Except ModelError Unit
  | .int | .enumeration _ => return
  | .range start stop => do
    if (← (Domain.range start stop).elemType) ≠ .int then
      throw (.unsupportedType (.type .float) .set)
  | .float => throw (.unsupportedType (.type .float) .set)
  | .bool => throw (.unsupportedType (.type .bool) .set)

def newVarSet (domain : Domain) : Build Expr := do
  requireSetDomain domain
  return .varSet (← Build.fresh) domain

def newParamSet (values : List Literal) : Build Expr := do
  requireMembers values
  return .paramSet (← Build.fresh) (.listed values)

/-- A parameter set of the integers from `start` up to `stop`. -/
def newParamInterval (start stop : Int) : Build Expr := do
  requireRange (.literal (.int start)) (.literal (.int stop))
  return .paramSet (← Build.fresh) (.interval start stop)

def setOf (values : List Literal) : Except ModelError Expr := do
  requireMembers values
  return .setLiteral values

end Expr

end ConstraintModel
