import ConstraintModel.Typing

/-!
# Numbered iterators

Two expressions are the same up to a renaming of bound iterators if they are equal once each
iterator has the number of generators around its own as its identity. Numbers change nothing else:
types, descriptions and errors stay as they are.
-/

namespace ConstraintModel

/-- The identities that stand for bound iterators, innermost first. -/
abbrev Numbers := List (NodeId × NodeId)

/-- Binds the next number to an iterator. -/
def Numbers.bind (bound : Numbers) (id : NodeId) : Numbers :=
  (id, ⟨bound.length⟩) :: bound

/-- What generators bind, inside all of them. -/
def Numbers.inside (bound : Numbers) : List Generator → Numbers
  | [] => bound
  | .over id _ _ :: gs => (bound.bind id).inside gs

mutual

/-- The expression with numbers for the iterators that it binds, and the given identities for those
that are bound around it. -/
def Expr.numbered (bound : Numbers) : Expr → Expr
  | .view array positions => .view array (positionsNumbered bound positions)
  | .range start stop => .range (start.numbered bound) (stop.numbered bound)
  | .sequence items => .sequence (allNumbered bound items)
  | .iterator id type => .iterator ((bound.lookup id).getD id) type
  | .unary op operand => .unary op (operand.numbered bound)
  | .binary op left right => .binary op (left.numbered bound) (right.numbered bound)
  | .power base exponent => .power (base.numbered bound) (exponent.numbered bound)
  | .aggregate op args => .aggregate op (allNumbered bound args)
  | .comprehension op generators body =>
    .comprehension op (generatorsNumbered bound generators)
      (body.numbered (bound.inside generators))
  | .global kind args => .global kind (allNumbered bound args)
  | e => e

def allNumbered (bound : Numbers) : List Expr → List Expr
  | [] => []
  | e :: es => e.numbered bound :: allNumbered bound es

def positionsNumbered (bound : Numbers) : List Position → List Position
  | [] => []
  | .index i :: ps => .index (i.numbered bound) :: positionsNumbered bound ps
  | .slice start stop :: ps =>
    .slice (start.numbered bound) (stop.numbered bound) :: positionsNumbered bound ps

/-- Generators with numbers, where a domain sees the numbers of the generators before it. -/
def generatorsNumbered (bound : Numbers) : List Generator → List Generator
  | [] => []
  | .over id type domain :: gs =>
    .over ⟨bound.length⟩ type (domain.numbered bound) :: generatorsNumbered (bound.bind id) gs

end

variable {bound : Numbers}

theorem Expr.numbered_of_id {e : Expr} {id : NodeId} (h : e.id? = some id) :
    e.numbered bound = e := by
  cases e <;> simp_all [Expr.id?, Expr.numbered]

theorem positionsNumbered_indices (bound : Numbers) (es : List Expr) :
    positionsNumbered bound (es.map .index) = (allNumbered bound es).map .index := by
  induction es with
  | nil => rfl
  | cons e es ih => simp [positionsNumbered, allNumbered, ih]

theorem literalInt?_numbered (bound : Numbers) (e : Expr) :
    (e.numbered bound).literalInt? = e.literalInt? := by
  cases e <;> rfl

theorem sliceCount_numbered (ps : List Position) :
    sliceCount (positionsNumbered bound ps) = sliceCount ps := by
  induction ps with
  | nil => rfl
  | cons p ps ih =>
      unfold sliceCount at ih ⊢
      cases p <;> simp [positionsNumbered, List.countP_cons, ih, Position.isSlice]

@[simp] theorem Expr.isCollection_numbered (e : Expr) :
    (e.numbered bound).isCollection = e.isCollection := by
  cases e <;> simp [Expr.numbered, Expr.isCollection, sliceCount_numbered]

@[simp] theorem Expr.subject_numbered (e : Expr) : (e.numbered bound).subject = e.subject := by
  cases e <;> simp [Expr.numbered, Expr.subject, Expr.description]

mutual

/-- Numbers leave the type of an expression as it is. -/
theorem Expr.elemType_numbered : ∀ (e : Expr) (bound : Numbers),
    (e.numbered bound).elemType = e.elemType
  | .literal _, _ | .var .., _ | .boundVar .., _ | .param .., _ | .derivedParam .., _
  | .varArray .., _ | .paramArray .., _ | .varSet .., _ | .paramSet .., _ | .setLiteral _, _
  | .view .., _ | .enumeration _, _ | .iterator .., _ | .size .., _ => by
      simp only [Expr.numbered, Expr.elemType]
  | .range start stop, bound => by
      simp only [Expr.numbered, Expr.elemType, start.elemType_numbered, stop.elemType_numbered]
  | .sequence items, bound => by
      simp only [Expr.numbered, Expr.elemType, commonType_numbered]
  | .unary op operand, bound => by
      cases op <;> simp only [Expr.numbered, Expr.elemType, operand.elemType_numbered,
        requireConstraint, scalarType, Expr.isCollection_numbered, Expr.subject_numbered]
  | .binary op left right, bound => by
      simp only [Expr.numbered, Expr.elemType, left.elemType_numbered, right.elemType_numbered,
        requireConstraint, scalarType, Expr.isCollection_numbered, Expr.subject_numbered]
  | .power base exponent, bound => by
      simp only [Expr.numbered, Expr.elemType, base.elemType_numbered, exponent.elemType_numbered,
        scalarType, Expr.isCollection_numbered, Expr.subject_numbered]
  | .aggregate op args, bound => by
      simp only [Expr.numbered, Expr.elemType, firstType_numbered]
  | .comprehension op generators body, bound => by
      simp only [Expr.numbered, Expr.elemType, body.elemType_numbered, domainsTyped_numbered,
        requireConstraint, Expr.isCollection_numbered, Expr.subject_numbered]
  | .global kind args, bound => by
      simp only [Expr.numbered, Expr.elemType, allTyped_numbered]

theorem commonType_numbered : ∀ (es : List Expr) (bound : Numbers),
    commonType (allNumbered bound es) = commonType es
  | [], _ => rfl
  | e :: es, bound => by
      simp only [allNumbered, commonType, e.elemType_numbered, allOfType_numbered]

theorem allOfType_numbered : ∀ (es : List Expr) (bound : Numbers) (type : ElemType),
    allOfType type (allNumbered bound es) = allOfType type es
  | [], _, _ => rfl
  | e :: es, bound, type => by
      simp only [allNumbered, allOfType, e.elemType_numbered, allOfType_numbered]

theorem firstType_numbered : ∀ (es : List Expr) (bound : Numbers),
    firstType (allNumbered bound es) = firstType es
  | [], _ => rfl
  | e :: es, bound => by
      simp only [allNumbered, firstType, e.elemType_numbered, allTyped_numbered]

theorem allTyped_numbered : ∀ (es : List Expr) (bound : Numbers),
    allTyped (allNumbered bound es) = allTyped es
  | [], _ => rfl
  | e :: es, bound => by
      simp only [allNumbered, allTyped, e.elemType_numbered, allTyped_numbered]

theorem domainsTyped_numbered : ∀ (gs : List Generator) (bound : Numbers),
    domainsTyped (generatorsNumbered bound gs) = domainsTyped gs
  | [], _ => rfl
  | .over id type domain :: gs, bound => by
      simp only [generatorsNumbered, domainsTyped, domain.elemType_numbered, domainsTyped_numbered]

end

end ConstraintModel
