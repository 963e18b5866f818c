/-!
# JSON tokens

A text is cut into brackets, commas, colons, quoted texts and words, where a word is a longest run of
anything else. Neither escapes nor words are read here.
-/

namespace ConstraintModel.Json

inductive Token
  | openArray
  | closeArray
  | openObject
  | closeObject
  | comma
  | colon
  /-- What stands between two quotes. -/
  | text (raw : List Char)
  | word (raw : List Char)
  deriving DecidableEq, Repr

namespace Token

/-- The token that is one character. -/
def ofChar? : Char → Option Token
  | '[' => some openArray
  | ']' => some closeArray
  | '\x7b' => some openObject
  | '\x7d' => some closeObject
  | ',' => some comma
  | ':' => some colon
  | _ => none

/-- Whether the character only separates tokens. -/
def isBlank (c : Char) : Bool :=
  c == ' ' || c == '\t' || c == '\n' || c == '\r'

/-- Where a cut stands in the text, with the characters read so far in reverse. -/
inductive Place
  /-- Outside quotes, in a word unless nothing is read. -/
  | outside (read : List Char)
  | quoted (read : List Char)
  /-- After a backslash inside quotes. -/
  | escaped (read : List Char)

/-- The tokens read so far, latest first, with the word that ends here. -/
def flush (done : List Token) : List Char → List Token
  | [] => done
  | read => word read.reverse :: done

/-- The tokens of a text that begins at the given place, after those in `done`. -/
def scanFrom (done : List Token) : Place → List Char → Option (List Token)
  | .outside read, [] => some (flush done read).reverse
  | .quoted _, [] | .escaped _, [] => none
  | .outside read, c :: cs =>
    if c = '"' then scanFrom (flush done read) (.quoted []) cs
    else if isBlank c then scanFrom (flush done read) (.outside []) cs
    else
      match ofChar? c with
      | some t => scanFrom (t :: flush done read) (.outside []) cs
      | none => scanFrom done (.outside (c :: read)) cs
  | .quoted read, c :: cs =>
    if c = '"' then scanFrom (text read.reverse :: done) (.outside []) cs
    else if c = '\\' then scanFrom done (.escaped (c :: read)) cs
    else scanFrom done (.quoted (c :: read)) cs
  | .escaped read, c :: cs => scanFrom done (.quoted (c :: read)) cs

/-- The tokens of a text, unless it ends inside quotes. -/
def scan (s : String) : Option (List Token) :=
  scanFrom [] (.outside []) s.toList

end Token

end ConstraintModel.Json
