import ConstraintModel.Construct.Leaf

/-!
# Operations

Arithmetic, aggregates and global constraints. Operators of the host notation build their node as
it is; the functions check what is known about the operands first.
-/

namespace ConstraintModel

/-! ## Arithmetic -/

instance : Add Expr := ⟨.binary .add⟩
instance : Sub Expr := ⟨.binary .sub⟩
instance : Mul Expr := ⟨.binary .mul⟩
instance : Div Expr := ⟨.binary .quotient⟩
instance : Mod Expr := ⟨.binary .remainder⟩
instance : Neg Expr := ⟨.unary .negate⟩

namespace Expr

/-- Refuses a divisor that is known to be zero. -/
def requireNonZero (divisor : Expr) : Except ModelError Unit :=
  if divisor.isZero then throw .divisionByZero else return

/-- Integer division by something not known to be zero. -/
def floorDiv (a b : Expr) : Except ModelError Expr := do
  requireNonZero b
  return a / b

def modulo (a b : Expr) : Except ModelError Expr := do
  requireNonZero b
  return a % b

/-- A power, for which no modulus is accepted. -/
def powMod (base exponent : Expr) (modulus : Option Expr) : Except ModelError Expr :=
  if modulus.isSome then throw .modulusUnsupported else return .power base exponent

def contains (set element : Expr) : Expr :=
  .binary .member element set

/-- The expression, once its type is known to exist. -/
def typed (e : Expr) : Except ModelError Expr := do
  let _ ← e.elemType
  return e

/-! ## Aggregates -/

/-- An aggregate over whole collections, of which the first argument is one. -/
def aggregateOf (op : Aggregate) (args : List Expr) : Except ModelError Expr := do
  match args.head? with
  | some e => unless e.isCollection do throw (.unsupportedType e.subject (.aggregate op))
  | none => pure ()
  typed (.aggregate op args)

/-- Accepts what an iterator can range over: a collection, but no empty sequence and no floats. -/
def requireIterable (domain : Expr) : Except ModelError Unit :=
  match domain with
  | .sequence [] => throw (.emptyCollection .sequence)
  | .range .. => do
    if (← domain.elemType) = .float then throw .floatIteration
  | _ => if domain.isCollection then return else throw (.unsupportedType domain.subject .iteration)

/-- An aggregate of a body over the bindings of generators. -/
def comprehend (op : Aggregate) (generators : List Generator) (body : Expr) :
    Except ModelError Expr :=
  typed (.comprehension op generators body)

end Expr

/-- A new iterator over the domain. It is numbered before the type of the domain is known. -/
def Generator.bind (domain : Expr) : Build Generator := do
  domain.requireIterable
  let id ← Build.fresh
  return .over id (← domain.elemType) domain

/-- The iterator that a generator binds. -/
def Generator.iterator : Generator → Expr
  | .over id type _ => .iterator id type

/-! ## Global constraints -/

namespace Expr

/-- Accepts a collection that is not an empty sequence. -/
def requireSequence : Expr → Except ModelError Unit
  | .sequence [] => throw (.emptyCollection .sequence)
  | e => if e.isCollection then return else throw (.unsupportedType e.subject .globalArgument)

def globalOf (kind : GlobalKind) (items : Expr) : Except ModelError Expr := do
  requireSequence items
  typed (.global kind [items])

/-- Accepts a parameter set of values that may repeat. -/
def requireExcepted : Expr → Except ModelError Unit
  | .varSet .. => throw .variableSetNotAllowed
  | .paramSet .. | .setLiteral _ => return
  | e => throw (.unsupportedType e.subject .exceptedValues)

/-- All members differ, but for zeros or for the members of a set. -/
def allDifferent (items : Expr) (exceptZero : Bool) (except : Option Expr) :
    Except ModelError Expr := do
  requireSequence items
  match exceptZero, except with
  | true, some _ => throw .conflictingExceptions
  | true, none => typed (.global .allDifferentExceptZero [items])
  | false, none => typed (.global .allDifferent [items])
  | false, some values => do
    requireExcepted values
    typed (.global .allDifferentExcept [items, values])

/-- Tasks never need more than the limit at one time. -/
def cumulative (starts durations needs limit : Expr) : Except ModelError Expr := do
  if limit.isCollection then throw (.unsupportedType limit.subject .cumulativeLimit)
  requireSequence starts
  requireSequence durations
  requireSequence needs
  typed (.global .cumulative [starts, durations, needs, limit])

/-- Tasks do not overlap; `kind` says whether those without duration may lie inside others. -/
def disjoint (kind : GlobalKind) (starts durations : Expr) : Except ModelError Expr := do
  requireSequence starts
  requireSequence durations
  typed (.global kind [starts, durations])

/-- A tuple is one of the rows of a two-dimensional array. -/
def rowOf (tuple rows : Expr) : Except ModelError Expr := do
  requireSequence rows
  match rows.shape? with
  | some shape => if shape.rank ≠ 2 then throw (.unsupportedType rows.subject .table)
  | none => pure ()
  requireSequence tuple
  typed (.global .table [tuple, rows])

end Expr

end ConstraintModel
