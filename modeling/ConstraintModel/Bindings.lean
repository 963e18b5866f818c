import ConstraintModel.Json.Value
import ConstraintModel.Model

/-!
# Parameter data

The values of the parameters of a model, as data that goes to the solver beside the source. Derived
parameters are left out, since the source defines them.
-/

namespace ConstraintModel

/-- A literal as data; an enumeration value is told from a string by its wrapping. -/
def Literal.json : Literal → Json
  | .int v => .int v
  | .float v => if v.isFinite then .float v else .null
  | .bool v => .bool v
  | .enumeration v => .object [("e", .string v.name)]

/-- The elements of an array in row-major order, nested by its extents. -/
def nestRows : List Nat → List Literal → Json
  | [], values | [_], values => .array (values.map Literal.json)
  | extent :: extents, values =>
    let stride := (⟨extents⟩ : Shape).size
    .array ((List.range extent).map fun i =>
      nestRows extents ((values.drop (i * stride)).take stride))

/-- The members of a set, or its first and last where they are consecutive. -/
def SetMembers.json : SetMembers → Json
  | .listed values => .object [("set", .array (values.map Literal.json))]
  | .interval start stop => .object [("set", .array [.array [.int start, .int (stop - 1)]])]

/-- The data of a parameter, unless the source defines it. -/
def Expr.data? : Expr → Option Json
  | .param _ v => some v.json
  | .paramArray _ values shape => some (nestRows shape.extents values)
  | .paramSet _ members => some members.json
  | _ => none

/-- The members of the data object of a model. -/
def ResolvedModel.bindings (m : ResolvedModel) : List (String × Json) :=
  Json.sorted (m.parameters.filterMap fun (name, e) => e.data?.map fun v => (name, v))

end ConstraintModel
