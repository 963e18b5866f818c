import ConstraintModel.Error

/-!
# Identifiers

The words that name the entities of a model: a letter, then letters, digits and underscores, and
none of the words that the modelling language keeps for itself. Letters and digits are those of ASCII.
-/

namespace ConstraintModel.Identifier

/-- The words that the modelling language keeps for itself. -/
def reserved : List String :=
  ["ann", "annotation", "any", "array", "bool", "case", "constraint", "diff", "div", "else",
    "elseif", "endif", "enum", "false", "float", "function", "if", "in", "include", "int",
    "intersect", "let", "list", "maximize", "minimize", "mod", "not", "of", "op", "opt",
    "output", "par", "predicate", "record", "satisfy", "set", "solve", "string", "subset",
    "superset", "symdiff", "test", "then", "true", "tuple", "type", "union", "var", "where",
    "xor"]

/-- Whether the characters are a letter followed by letters, digits and underscores. -/
def isWellFormed : List Char → Bool
  | [] => false
  | c :: cs => c.isAlpha && cs.all fun d => d.isAlphanum || d == '_'

/-- Refuses a word that is no identifier. -/
def require (name : String) : Except ModelError Unit := do
  unless isWellFormed name.toList do throw (.invalidName name .malformed)
  if name ∈ reserved then throw (.invalidName name .reserved)

/-- Refuses an enumeration whose name or variants are no identifiers. -/
def requireAll (e : Enumeration) : Except ModelError Unit := do
  require e.name
  e.variants.forM require

end ConstraintModel.Identifier
