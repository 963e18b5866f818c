import ConstraintModel.Error

/-!
# Rectangular data

Nested lists of literals are read one level at a time, from the outside in. They are rectangular when
each level holds lists only, all of one positive length, down to a level of literals only; the
lengths are then the shape, and the literals, from left to right, its elements in row-major order.
-/

namespace ConstraintModel

/-- Literals in nested lists. -/
inductive Nested
  | leaf (value : Literal)
  | list (items : List Nested)

namespace Nested

/-- The rows of a matrix, from the first to the last. -/
def ofMatrix (rows columns : Nat) (entry : Fin rows → Fin columns → Literal) : Nested :=
  .list ((List.finRange rows).map fun i =>
    .list ((List.finRange columns).map fun j => .leaf (entry i j)))

mutual

/-- The number of lists and literals. -/
def weight : Nested → Nat
  | leaf _ => 1
  | list items => 1 + weights items

def weights : List Nested → Nat
  | [] => 0
  | n :: ns => n.weight + weights ns

end

/-- The literals of a level that holds nothing else. -/
def leaves? : List Nested → Option (List Literal)
  | [] => some []
  | leaf v :: ns => (leaves? ns).map (v :: ·)
  | list _ :: _ => none

/-- The lists of a level that holds nothing else. -/
def lists? : List Nested → Option (List (List Nested))
  | [] => some []
  | list items :: ns => (lists? ns).map (items :: ·)
  | leaf _ :: _ => none

theorem weights_append (xs ys : List Nested) : weights (xs ++ ys) = weights xs + weights ys := by
  induction xs with
  | nil => simp [weights]
  | cons x xs ih => simp [weights, ih]; omega

theorem weights_of_lists {level : List Nested} {lists : List (List Nested)}
    (h : lists? level = some lists) : weights level = lists.length + weights lists.flatten := by
  induction level generalizing lists with
  | nil => simp_all [lists?, weights]
  | cons n ns ih =>
    cases n with
    | leaf v => simp [lists?] at h
    | list items =>
      obtain ⟨rest, hr, rfl⟩ := Option.map_eq_some_iff.1 h
      simp [weights, weight, weights_append, ih hr]
      omega

/-- What a message calls a member of a level. -/
def subject : Nested → Subject
  | leaf v => .type v.elemType
  | list _ => .list

def isList : Nested → Bool
  | leaf _ => false
  | list _ => true

/-- The error of a level that holds both lists and literals: its first member and the first of the
other kind. -/
def mixedLevel : List Nested → ModelError
  | [] => .emptyCollection .array
  | n :: ns => .mixedTypes n.subject (((ns.find? fun m => m.isList != n.isList).getD n).subject)

/-- Accepts lists of the given length. -/
def haveLength (level extent : Nat) : List (List Nested) → Except ModelError Unit
  | [] => return
  | items :: lists => do
    if items.isEmpty then throw (.emptyCollection .array)
    if items.length ≠ extent then throw (.raggedArray level extent items.length)
    haveLength level extent lists

/-- The extents of a level and those inside it, and all literals in it. -/
def extentsFrom (depth : Nat) (level : List Nested) :
    Except ModelError (List Nat × List Literal) :=
  match leaves? level with
  | some values => return ([], values)
  | none =>
    match _h : lists? level with
    | some (first :: rest) => do
      haveLength depth first.length (first :: rest)
      let (extents, values) ← extentsFrom (depth + 1) (first :: rest).flatten
      return (first.length :: extents, values)
    | _ => throw (mixedLevel level)
termination_by weights level
decreasing_by
  have := weights_of_lists _h
  simp only [List.length_cons] at this
  omega

/-- Accepts literals of one type. -/
def ofOneType : List Literal → Except ModelError Unit
  | [] => throw (.emptyCollection .array)
  | v :: vs =>
    match vs.find? fun w => w.elemType != v.elemType with
    | some w => throw (.mixedTypes (.type v.elemType) (.type w.elemType))
    | none => return

/-- Refuses literals that have no spelling. -/
def allFinite : List Literal → Except ModelError Unit
  | [] => return
  | v :: vs => do
    v.requireFinite
    allFinite vs

/-- The shape of rectangular data and its elements in row-major order. -/
def shape (n : Nested) : Except ModelError (Shape × List Literal) := do
  let (extents, values) ← extentsFrom 0 [n]
  let shape : Shape := ⟨extents⟩
  shape.require
  ofOneType values
  allFinite values
  return (shape, values)

end Nested

end ConstraintModel
