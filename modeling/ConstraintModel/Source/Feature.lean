import ConstraintModel.Source.Term

/-!
# Features of the generated source

What a source uses beyond the core of the modelling language: global constraints, each declared in a
library file, and floats. Features are read off the terms and declarations; a set of literals uses
none, whatever its members are.
-/

namespace ConstraintModel.Source

/-- Something that a source uses. -/
inductive Feature
  | global (kind : GlobalKind)
  | floats
  deriving DecidableEq, Repr

namespace Feature

/-- All features in their order: global constraints first. -/
def all : List Feature :=
  GlobalKind.all.map global ++ [floats]

/-- The library file that the feature needs. -/
def file? : Feature → Option String
  | global kind => some kind.file
  | floats => none

/-- Each of the features once, in their order. -/
def ordered (features : List Feature) : List Feature :=
  all.filter (features.contains ·)

/-- One line for each library file that the features need. -/
def includeLines (features : List Feature) : List String :=
  (ordered features).filterMap fun f => f.file?.map fun file => "include \"" ++ file ++ "\";"

end Feature

/-- A literal uses floats if it is one. -/
def literalFeatures : Literal → List Feature
  | .float _ => [.floats]
  | _ => []

/-- A call of a global constraint uses it. -/
def Function.features : Function → List Feature
  | .global kind => [.global kind]
  | _ => []

namespace Term

mutual

def features : Term → List Feature
  | literal v => literalFeatures v
  | entity _ | iterator _ | enumeration _ | set _ => []
  | list items => allFeatures items
  | span float first last =>
    (if float then [Feature.floats] else []) ++ first.features ++ last.features
  | unary _ operand => operand.features
  | binary _ left right => left.features ++ right.features
  | element _ indices => allFeatures indices
  | call function args => function.features ++ allFeatures args
  | comprehension _ heads body => headFeatures heads ++ body.features

def allFeatures : List Term → List Feature
  | [] => []
  | t :: ts => t.features ++ allFeatures ts

def headFeatures : List (Symbol × Term) → List Feature
  | [] => []
  | (_, domain) :: heads => domain.features ++ headFeatures heads

end

end Term

end ConstraintModel.Source
