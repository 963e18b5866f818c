/-!
# Escapes in JSON strings

What stands between two quotes: characters that are no control characters, and escapes. Escapes for
code units beyond the basic plane come in pairs; a unit of a pair on its own stands for no character.
-/

namespace ConstraintModel.Json

/-- The value of a hexadecimal digit. -/
def hexValue? (c : Char) : Option Nat :=
  if c.isDigit then some (c.toNat - '0'.toNat)
  else if 'a' ≤ c ∧ c ≤ 'f' then some (c.toNat - 'a'.toNat + 10)
  else if 'A' ≤ c ∧ c ≤ 'F' then some (c.toNat - 'A'.toNat + 10)
  else none

/-- The code unit of four hexadecimal digits. -/
def codeUnit? (a b c d : Char) : Option Nat := do
  return ((← hexValue? a) * 16 + (← hexValue? b)) * 256 + (← hexValue? c) * 16 + (← hexValue? d)

/-- The character of an escape with a single letter. -/
def shortEscape? : Char → Option Char
  | '"' => some '"'
  | '\\' => some '\\'
  | '/' => some '/'
  | 'b' => some '\x08'
  | 'f' => some '\x0c'
  | 'n' => some '\n'
  | 'r' => some '\r'
  | 't' => some '\t'
  | _ => none

def isHigh (unit : Nat) : Bool :=
  0xD800 ≤ unit && unit < 0xDC00

def isLow (unit : Nat) : Bool :=
  0xDC00 ≤ unit && unit < 0xE000

/-- The character of a pair of units. -/
def pairChar (high low : Nat) : Char :=
  Char.ofNat (0x10000 + (high - 0xD800) * 0x400 + (low - 0xDC00))

/-- Whether escapes are spelled right and no control character stands bare. Pairs are not asked
for. -/
def isSpelled : List Char → Bool
  | [] => true
  | '\\' :: 'u' :: a :: b :: c :: d :: cs => (codeUnit? a b c d).isSome && isSpelled cs
  | '\\' :: c :: cs => (shortEscape? c).isSome && isSpelled cs
  | c :: cs => c != '\\' && 32 ≤ c.toNat && isSpelled cs

/-- The characters that stand between the quotes, unless an escape is misspelled or unpaired. -/
def unescape? : List Char → Option (List Char)
  | [] => some []
  | '\\' :: 'u' :: a :: b :: c :: d :: cs => do
    let unit ← codeUnit? a b c d
    if isLow unit then none
    else if isHigh unit then
      match cs with
      | '\\' :: 'u' :: e :: f :: g :: h :: cs => do
        let low ← codeUnit? e f g h
        if isLow low then return pairChar unit low :: (← unescape? cs) else none
      | _ => none
    else return Char.ofNat unit :: (← unescape? cs)
  | '\\' :: c :: cs => do return (← shortEscape? c) :: (← unescape? cs)
  | c :: cs => if c = '\\' ∨ c.toNat < 32 then none else do return c :: (← unescape? cs)

end ConstraintModel.Json
