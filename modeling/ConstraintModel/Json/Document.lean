import ConstraintModel.Json.Escape
import ConstraintModel.Json.Numeral
import ConstraintModel.Json.Token

/-!
# JSON documents

A document is the nesting of a JSON text with its strings and numbers as they are written. Reading its
value is a second step, in which an unpaired escape, a number that overflows or too deep a nesting is
refused; a part whose value nobody asks for may hold any of these.
-/

namespace ConstraintModel.Json

/-- The nesting of a JSON text. -/
inductive Document
  /-- A keyword or number. -/
  | word (raw : List Char)
  | text (raw : List Char)
  | array (items : List Document)
  | object (members : List (List Char × Document))

namespace Document

/-! ## Nesting -/

/-- A container that is not closed yet, with its contents latest first. -/
inductive Frame
  | array (items : List Document)
  /-- The members so far and the key that comes next or is read. -/
  | object (members : List (List Char × Document)) (key : List Char)

/-- What the next token may be. -/
inductive Expected
  | value
  /-- A value, or the end of an array that holds none. -/
  | item
  | key
  /-- A key, or the end of an object that holds none. -/
  | member
  | colon
  /-- A comma, or the end of a container. -/
  | separator
  /-- The document is complete. -/
  | nothing (document : Document)

/-- Open containers, innermost first, and what may come next. -/
structure State where
  frames : List Frame
  expected : Expected

/-- The state after a value inside the given containers. -/
def complete (d : Document) : List Frame → State
  | [] => ⟨[], .nothing d⟩
  | .array items :: frames => ⟨.array (d :: items) :: frames, .separator⟩
  | .object members key :: frames => ⟨.object ((key, d) :: members) key :: frames, .separator⟩

/-- Whether the word is a keyword or a number. -/
def isWord (raw : List Char) : Bool :=
  raw == ['n', 'u', 'l', 'l'] || raw == ['t', 'r', 'u', 'e'] || raw == ['f', 'a', 'l', 's', 'e'] ||
    (Numeral.ofWord? raw).isSome

/-- The state after a token that begins a value. -/
def beginValue (frames : List Frame) : Token → Option State
  | .openArray => some ⟨.array [] :: frames, .item⟩
  | .openObject => some ⟨.object [] [] :: frames, .member⟩
  | .text raw => if isSpelled raw then some (complete (.text raw) frames) else none
  | .word raw => if isWord raw then some (complete (.word raw) frames) else none
  | _ => none

/-- The state after a token that ends the innermost container. -/
def close : List Frame → Token → Option State
  | .array items :: frames, .closeArray => some (complete (.array items.reverse) frames)
  | .object members _ :: frames, .closeObject => some (complete (.object members.reverse) frames)
  | _, _ => none

/-- The state after a key. -/
def readKey : List Frame → Token → Option State
  | .object members _ :: frames, .text raw =>
    if isSpelled raw then some ⟨.object members raw :: frames, .colon⟩ else none
  | _, _ => none

/-- The state after a token. -/
def step (s : State) (t : Token) : Option State :=
  match s.expected with
  | .value => beginValue s.frames t
  | .item => if t = .closeArray then close s.frames t else beginValue s.frames t
  | .key => readKey s.frames t
  | .member => if t = .closeObject then close s.frames t else readKey s.frames t
  | .colon => if t = .colon then some { s with expected := .value } else none
  | .separator =>
    match s.frames, t with
    | .array _ :: _, .comma => some { s with expected := .value }
    | .object .. :: _, .comma => some { s with expected := .key }
    | frames, t => close frames t
  | .nothing _ => none

def parse? (s : String) : Option Document := do
  let tokens ← Token.scan s
  let state ← tokens.foldlM step ⟨[], .value⟩
  match state.expected with
  | .nothing d => some d
  | _ => none

/-! ## Values -/

/-- The value of a keyword or number. -/
def wordValue? (raw : List Char) : Option Json :=
  if raw = ['n', 'u', 'l', 'l'] then some .null
  else if raw = ['t', 'r', 'u', 'e'] then some (.bool true)
  else if raw = ['f', 'a', 'l', 's', 'e'] then some (.bool false)
  else (Numeral.ofWord? raw).bind Numeral.value?

/-- The string between quotes. -/
def string? (raw : List Char) : Option String :=
  (unescape? raw).map String.ofList

mutual

/-- The value of a document that nests no deeper than `depth`. -/
def value? (depth : Nat) : Document → Option Json
  | word raw => wordValue? raw
  | text raw => (string? raw).map .string
  | array items =>
    match depth with
    | 0 => none
    | depth + 1 => (values? depth items).map .array
  | object members =>
    match depth with
    | 0 => none
    | depth + 1 => (memberValues? depth members).map fun ms => .object (sorted ms)

def values? (depth : Nat) : List Document → Option (List Json)
  | [] => some []
  | d :: ds => do return (← d.value? depth) :: (← values? depth ds)

def memberValues? (depth : Nat) : List (List Char × Document) → Option (List (String × Json))
  | [] => some []
  | (key, d) :: members => do
    return (← string? key, ← d.value? depth) :: (← memberValues? depth members)

end

end Document

/-- The deepest nesting that is read. -/
def maxDepth : Nat := 127

def parse? (s : String) : Option Json :=
  (Document.parse? s).bind (Document.value? maxDepth)

end ConstraintModel.Json
