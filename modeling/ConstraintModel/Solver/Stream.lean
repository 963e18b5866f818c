import ConstraintModel.Solver.Blank
import ConstraintModel.Solver.Result

/-!
# The output stream of a solver

A solver prints each solution as a JSON object over some lines, then a line of dashes; other marked
lines tell how the search ended. Lines count without the white space around them, and comments and
empty lines not at all. `Result.ofStream` reads the stream to its end, or to the first failure.
-/

namespace ConstraintModel.Solver

/-- What a line of the stream is. -/
inductive Line
  /-- The end of a solution. -/
  | separator
  | status (status : Status)
  /-- The solver gives up with an error. -/
  | failure
  /-- A comment, or nothing. -/
  | ignored
  /-- A part of a solution. -/
  | part (text : String)
  deriving DecidableEq, Repr

/-- The lines of a text, each without the character that ends it. -/
def lines (s : String) : List (List Char) :=
  s.toList.foldr (fun c rest =>
    match c, rest with
    | '\n', rest => [] :: rest
    | c, line :: rest => (c :: line) :: rest
    | c, [] => [[c]]) [[]]

/-- What a line without white space around it is. -/
def Line.ofTrimmed (line : String) : Line :=
  match line with
  | "----------" => .separator
  | "==========" => .status .complete
  | "=====UNSATISFIABLE=====" => .status .unsatisfiable
  | "=====UNBOUNDED=====" => .status .unbounded
  | "=====UNSATorUNBOUNDED=====" => .status .unknown
  | "=====UNKNOWN=====" => .status .unknown
  | "=====ERROR=====" => .failure
  | line => if line.isEmpty || line.startsWith "%" then .ignored else .part line

/-- What a line is. -/
def Line.ofChars (cs : List Char) : Line :=
  .ofTrimmed (String.ofList (trim cs))

/-- What is read of a stream: the result so far and the lines of a solution that is not complete. -/
structure Reading where
  result : Result
  block : String

/-- Whether the name is one that the solver adds for itself. -/
def isInternal (name : String) : Bool :=
  name.startsWith "_"

/-- The assignment of a block, without the names that the solver adds. -/
def assignmentOf (block : String) : Except Failure Assignment :=
  match Json.parse? block with
  | some (.object members) => return members.filter fun (name, _) => !isInternal name
  | _ => throw .malformed

namespace Reading

def start : Reading := ⟨⟨.unknown, []⟩, ""⟩

/-- The reading after a line. -/
def step (r : Reading) : Line → Except Failure Reading
  | .separator => do
    let a ← assignmentOf r.block
    return ⟨⟨.satisfied, r.result.solutions ++ [a]⟩, ""⟩
  | .status s => return { r with result.status := s }
  | .failure => throw (.solver "the solver reported an error")
  | .ignored => return r
  | .part text => return { r with block := r.block ++ text ++ "\n" }

end Reading

/-- The result that a stream reports. -/
def Result.ofStream (s : String) : Except Failure Result := do
  let r ← ((lines s).map Line.ofChars).foldlM Reading.step Reading.start
  return r.result

end ConstraintModel.Solver
