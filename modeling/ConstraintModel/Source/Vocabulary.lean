import ConstraintModel.Model

/-!
# Words of the generated source

The words that a source has for the entities of a model and for the iterators in scope. An iterator is
called by its depth, with underscores appended until the word is free; since fewer words are used than
candidates are tried, one is always found.
-/

namespace ConstraintModel.Source

/-- The words that a source uses at its top level. -/
structure Vocabulary where
  symbols : List Symbol
  /-- The names and variants of enumerations. -/
  enumerationWords : List String

/-- The iterators in scope, innermost first. -/
abbrev Scope := List Symbol

def Vocabulary.ofModel (m : ResolvedModel) : Vocabulary :=
  ⟨m.symbols, m.enumerationWords⟩

/-- The word of an iterator at a depth, if it is free. -/
def iteratorWord (depth : Nat) : String :=
  ["i", "j", "k", "l", "m", "n"][depth]?.getD ("i" ++ toString depth)

def underscored (word : String) (n : Nat) : String :=
  word ++ String.ofList (List.replicate n '_')

/-- The word with the fewest underscores appended that is not used. -/
def freeWord (word : String) (used : List String) : String :=
  let count := (List.range (used.length + 1)).find? fun n => !used.contains (underscored word n)
  underscored word (count.getD 0)

namespace Vocabulary

def symbolOf (v : Vocabulary) (e : Expr) : Except ModelError Symbol :=
  match e.id?.bind fun id => Symbol.lookup id v.symbols with
  | some s => return s
  | none => throw (.unnamed e.description)

/-- The words that an iterator in the given scope must not have. -/
def used (v : Vocabulary) (scope : Scope) : List String :=
  Symbol.words v.symbols ++ v.enumerationWords ++ Symbol.words scope

/-- The word of the next iterator in a scope. -/
def nextIterator (v : Vocabulary) (scope : Scope) : String :=
  freeWord (iteratorWord scope.length) (v.used scope)

end Vocabulary

end ConstraintModel.Source
