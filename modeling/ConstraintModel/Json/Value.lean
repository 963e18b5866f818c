import ConstraintModel.Decimal.Layout

/-!
# JSON values

Values with whole numbers kept apart from floats. The members of an object are kept in the order of
their keys, each key once; `Json.text` writes a value without blanks.
-/

namespace ConstraintModel

inductive Json
  | null
  | bool (value : Bool)
  | int (value : Int)
  | float (value : Float)
  | string (text : String)
  | array (items : List Json)
  /-- Members with ascending keys. -/
  | object (members : List (String × Json))

namespace Json

/-- Puts a member at the place of its key, over one that is there. -/
def insert (key : String) (value : Json) : List (String × Json) → List (String × Json)
  | [] => [(key, value)]
  | (k, v) :: members =>
    if key < k then (key, value) :: (k, v) :: members
    else if key = k then (key, value) :: members
    else (k, v) :: insert key value members

/-- The members in the order of their keys; of several with one key, the last. -/
def sorted (members : List (String × Json)) : List (String × Json) :=
  members.foldl (fun done (k, v) => insert k v done) []

/-! ## Text -/

/-- Floats are positional from `0.00001` up to `10 ^ 16`, carry the sign of an exponent, and of two
equally near decimals the even one is written. -/
def floatLayout : Decimal.Layout :=
  ⟨-5, 16, true, .toEven⟩

/-- A hexadecimal digit, in lower case. -/
def hexDigit (n : Nat) : Char :=
  Nat.digitChar n

/-- A character inside quotes. Quotes, backslashes and control characters are escaped. -/
def escapeChar (c : Char) : List Char :=
  match c with
  | '"' => ['\\', '"']
  | '\\' => ['\\', '\\']
  | '\x08' => ['\\', 'b']
  | '\t' => ['\\', 't']
  | '\n' => ['\\', 'n']
  | '\x0c' => ['\\', 'f']
  | '\r' => ['\\', 'r']
  | c =>
    if c.toNat < 32 then ['\\', 'u', '0', '0', hexDigit (c.toNat / 16), hexDigit (c.toNat % 16)]
    else [c]

def quote (s : String) : String :=
  String.ofList ('"' :: s.toList.flatMap escapeChar ++ ['"'])

mutual

/-- The value on one line without blanks. A float without decimal digits is written as null. -/
def text : Json → String
  | null => "null"
  | bool b => if b then "true" else "false"
  | int v => toString v
  | float v => if v.isFinite then floatLayout.write v else "null"
  | string s => quote s
  | array items => "[" ++ ",".intercalate (itemTexts items) ++ "]"
  | object members => "\x7b" ++ ",".intercalate (memberTexts members) ++ "\x7d"

def itemTexts : List Json → List String
  | [] => []
  | v :: vs => v.text :: itemTexts vs

def memberTexts : List (String × Json) → List String
  | [] => []
  | (k, v) :: members => (quote k ++ ":" ++ v.text) :: memberTexts members

end

end Json

end ConstraintModel
