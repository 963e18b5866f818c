import ConstraintModel.Error
import ConstraintModel.Json.Document

/-!
# Results of a solver

A status and the solutions in the order in which they were found, each an assignment of values to
names. A result is written as JSON and read back from it.
-/

namespace ConstraintModel.Solver

/-- How a search ended. -/
inductive Status
  /-- There is a solution, and the search was not completed. -/
  | satisfied
  /-- The search was completed: all solutions are found, or the last one is optimal. -/
  | complete
  | unsatisfiable
  | unbounded
  | unknown
  deriving DecidableEq, Repr

namespace Status

def name : Status → String
  | satisfied => "Satisfied"
  | complete => "Complete"
  | unsatisfiable => "Unsatisfiable"
  | unbounded => "Unbounded"
  | unknown => "Unknown"

def all : List Status :=
  [satisfied, complete, unsatisfiable, unbounded, unknown]

def ofName? (name : String) : Option Status :=
  all.find? fun s => s.name == name

end Status

/-- The values of names, in the order of the names. -/
abbrev Assignment := List (String × Json)

/-- What a solver reports. -/
structure Result where
  status : Status
  solutions : List Assignment

/-- What can go wrong between a model and its result. -/
inductive Failure
  | model (error : ModelError)
  | solver (report : String)
  /-- A solution is no JSON object. -/
  | malformed
  /-- The solver cannot be run. -/
  | notRun
  deriving DecidableEq, Repr

/-- The wording of a failure, where it has one of its own. -/
def Failure.message? : Failure → Option String
  | model e => some e.message
  | solver report => some ("Solver error: " ++ report)
  | malformed | notRun => none

namespace Result

/-- The last solution, which is the best one where a value is optimized. -/
def best? (r : Result) : Option Assignment :=
  r.solutions.getLast?

def isSatisfied (r : Result) : Bool :=
  !r.solutions.isEmpty

/-! ## JSON -/

/-- The result as JSON text: its status, then its solutions. -/
def text (r : Result) : String :=
  "\x7b\"status\":" ++ Json.quote r.status.name ++ ",\"solutions\":" ++
    (Json.array (r.solutions.map Json.object)).text ++ "\x7d"

/-- The status that a document names, as a string or as the key of a null. -/
def status? : Json.Document → Option Status
  | .text raw => (Json.Document.string? raw).bind Status.ofName?
  | .object [(key, .word ['n', 'u', 'l', 'l'])] =>
    (Json.Document.string? key).bind Status.ofName?
  | _ => none

/-- The assignment that a document holds. -/
def assignment? (depth : Nat) (d : Json.Document) : Option Assignment :=
  match d.value? depth with
  | some (.object members) => some members
  | _ => none

/-- The assignments of a list that stands inside a result. -/
def solutions? : Json.Document → Option (List Assignment)
  | .array items => items.mapM (assignment? (Json.maxDepth - 2))
  | _ => none

/-- The documents of the members with the given name. -/
def named (name : String) (members : List (String × Json.Document)) : List Json.Document :=
  (members.filter fun (key, _) => key == name).map Prod.snd

/-- The keys and documents of members. -/
def keyed? (members : List (List Char × Json.Document)) :
    Option (List (String × Json.Document)) :=
  members.mapM fun (key, d) => (Json.Document.string? key).map fun k => (k, d)

/-- The result that a document holds: an object with a status and solutions, where other members are
not read, or a list of the two. -/
def ofDocument? : Json.Document → Option Result
  | .object members => do
    let members ← keyed? members
    match named "status" members, named "solutions" members with
    | [status], [solutions] => return ⟨← status? status, ← solutions? solutions⟩
    | _, _ => none
  | .array [status, solutions] => do return ⟨← status? status, ← solutions? solutions⟩
  | _ => none

/-- The result that is written as JSON text. -/
def read? (s : String) : Option Result :=
  (Json.Document.parse? s).bind ofDocument?

end Result

end ConstraintModel.Solver
