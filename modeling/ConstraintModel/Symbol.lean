import ConstraintModel.Error

/-!
# Symbols

A symbol is the identity of an entity or iterator together with the word that stands for it in a
source. Tables of symbols are read from the front, so an inner symbol hides an outer one of the same
identity.
-/

namespace ConstraintModel

/-- An entity or iterator and its word. -/
structure Symbol where
  id : NodeId
  word : String
  deriving DecidableEq, Repr

/-- The first symbol of an identity. -/
def Symbol.lookup (id : NodeId) (table : List Symbol) : Option Symbol :=
  table.find? (·.id == id)

/-- The words of several symbols. -/
def Symbol.words (table : List Symbol) : List String :=
  table.map Symbol.word

end ConstraintModel
