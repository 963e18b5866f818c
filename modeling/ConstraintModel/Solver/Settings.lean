/-!
# Settings of a solver run

The program to run and the options that it is given, as command line arguments.
-/

namespace ConstraintModel.Solver

structure Settings where
  executable : String
  /-- The name of the solver behind the program. -/
  solver : String
  /-- Whether all solutions are reported, or all improvements where a value is optimized. -/
  allSolutions : Bool
  /-- The limit in microseconds. -/
  timeLimit : Option Nat
  processes : Option Nat
  randomSeed : Option Nat
  optimisationLevel : Option Nat
  deriving DecidableEq, Repr

namespace Settings

/-- The settings where nothing is chosen. -/
def standard : Settings :=
  ⟨"minizinc", "gecode", false, none, none, none, none⟩

/-- The standard settings with the program and solver of the environment, where it names them. -/
def ofEnvironment (executable solver : Option String) : Settings :=
  { standard with
    executable := executable.getD standard.executable
    solver := solver.getD standard.solver }

/-- An option and its value, if it is chosen. -/
def option (flag : String) (value : Option Nat) : List String :=
  match value with
  | some v => [flag, toString v]
  | none => []

/-- The arguments of a run without its files. The limit counts in whole milliseconds. -/
def args (s : Settings) : List String :=
  ["--solver", s.solver, "--output-mode", "json"] ++
    (if s.allSolutions then ["-a"] else []) ++
    option "--time-limit" (s.timeLimit.map (· / 1000)) ++
    option "-p" s.processes ++
    option "-r" s.randomSeed ++
    (s.optimisationLevel.map fun v => "-O" ++ toString v).toList

end Settings

end ConstraintModel.Solver
