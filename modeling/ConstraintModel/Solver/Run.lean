import ConstraintModel.Bindings
import ConstraintModel.Solver.Settings
import ConstraintModel.Solver.Stream
import ConstraintModel.Source.Program

/-!
# Solving a model

A model is compiled and handed to a backend as source, parameter data and settings. One backend runs a
program: this module says on which arguments and files and what its output means, and takes from the
caller what comes of running it.
-/

namespace ConstraintModel

open Solver

namespace Solver

/-- What a backend is handed. -/
structure Request where
  source : String
  bindings : List (String × Json)
  settings : Settings

/-- Something that answers requests. -/
abbrev Backend := Request → Except Failure Result

/-- The arguments of a program that answers the request, given the files that hold the source and the
data. The file of data is named only if there are any. -/
def Request.arguments (r : Request) (sourceFile dataFile : String) : List String :=
  r.settings.args ++ [sourceFile] ++ if r.bindings.isEmpty then [] else [dataFile]

/-- The text of the file of data, if there are any. -/
def Request.data? (r : Request) : Option String :=
  if r.bindings.isEmpty then none else some (Json.object r.bindings).text

/-- What a program leaves behind when it ends. -/
structure Output where
  succeeded : Bool
  stdout : String
  stderr : String

/-- What the output of a program means; none if the program cannot be run. -/
def Result.ofOutput : Option Output → Except Failure Result
  | none => throw .notRun
  | some output =>
    if output.succeeded then Result.ofStream output.stdout
    else throw (.solver (String.ofList (trim output.stderr.toList)))

/-- What comes of running the program of that name on these arguments, with these texts in the files of
source and data; none if it cannot be run. -/
abbrev Runner := String → List String → String → Option String → Option Output

/-- The backend that runs a program on files of these names. -/
def Backend.running (run : Runner) (sourceFile dataFile : String) : Backend := fun r =>
  Result.ofOutput (run r.settings.executable (r.arguments sourceFile dataFile) r.source r.data?)

end Solver

/-- What a compiled model hands to a backend. -/
def CompiledModel.request (m : CompiledModel) (settings : Settings) : Request :=
  ⟨m.program.text, m.resolved.bindings, settings⟩

/-- Compiles a model and has a backend solve it. The state counts node identities. -/
def Model.solve (m : Model) (backend : Backend) (settings : Settings) :
    StateM Nat (Except Failure Result) := do
  match ← m.compile.run with
  | .error e => return .error (.model e)
  | .ok compiled => return backend (compiled.request settings)

end ConstraintModel
