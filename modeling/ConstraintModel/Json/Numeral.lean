import ConstraintModel.Json.Value

/-!
# JSON numbers

A number is a sign, digits without a leading zero, and perhaps a fraction and an exponent. Without
the latter two it is an integer if 64 bits hold it, and else a float. A float keeps the leading digits
that 64 bits hold and is scaled by a power of ten in double arithmetic.
-/

namespace ConstraintModel.Json

/-- The parts of a number as it is written. -/
structure Numeral where
  negative : Bool
  whole : List Char
  /-- The digits after the point, none if there is no point. -/
  fraction : List Char
  exponent : Option Int
  deriving DecidableEq, Repr

namespace Numeral

/-- The number that decimal digits denote. -/
def natOf (digits : List Char) : Nat :=
  digits.foldl (fun n c => 10 * n + (c.toNat - '0'.toNat)) 0

/-- The digits at the front and what follows them. -/
def digits (cs : List Char) : List Char × List Char :=
  cs.span Char.isDigit

/-- The exponent that ends a number, if anything is left of it. -/
def exponent? : List Char → Option (Option Int)
  | [] => some none
  | c :: cs =>
    if c ≠ 'e' ∧ c ≠ 'E' then none
    else
      let (sign, cs) : Int × List Char :=
        match cs with
        | '+' :: cs => (1, cs)
        | '-' :: cs => (-1, cs)
        | cs => (1, cs)
      let (ds, rest) := digits cs
      if ds.isEmpty || !rest.isEmpty then none else some (some (sign * natOf ds))

/-- The fraction and the exponent that follow the whole digits. -/
def tail? : List Char → Option (List Char × Option Int)
  | '.' :: cs =>
    let (ds, rest) := digits cs
    if ds.isEmpty then none else (exponent? rest).map (ds, ·)
  | cs => (exponent? cs).map ([], ·)

/-- The parts of a word that is a number. -/
def ofWord? (cs : List Char) : Option Numeral :=
  let (negative, cs) :=
    match cs with
    | '-' :: cs => (true, cs)
    | cs => (false, cs)
  let (whole, rest) := digits cs
  if whole.isEmpty || (whole.length != 1 && whole.head? == some '0') then none
  else (tail? rest).map fun (fraction, exponent) => ⟨negative, whole, fraction, exponent⟩

/-- Whether a further digit still fits 64 bits. -/
def fits (significand : Nat) (digit : Char) : Bool :=
  10 * significand + (digit.toNat - '0'.toNat) < Nat.pow 2 64

/-- The number that the leading digits denote as far as 64 bits hold it, and the digits beyond. -/
def leading (significand : Nat) : List Char → Nat × List Char
  | [] => (significand, [])
  | c :: cs =>
    if fits significand c then leading (10 * significand + (c.toNat - '0'.toNat)) cs
    else (significand, c :: cs)

/-- The power of ten as a double. -/
def powerOfTen (n : Nat) : Float :=
  Float.ofScientific 1 false n

/-- The double nearest to the significand, times a power of ten. Below `10 ^ -308` the division is
done in two steps, and an overflow has no value. -/
def scale? (significand : Nat) (exponent : Int) : Option Float :=
  let f := Float.ofNat significand
  if significand = 0 then some f
  else if 308 < exponent then none
  else if 0 ≤ exponent then
    let product := f * powerOfTen exponent.toNat
    if product.isInf then none else some product
  else if -308 ≤ exponent then some (f / powerOfTen (-exponent).toNat)
  else if -616 ≤ exponent then some (f / powerOfTen 308 / powerOfTen (-exponent - 308).toNat)
  else some 0.0

/-- The number as a float, unless it overflows. -/
def float? (n : Numeral) : Option Float :=
  let (significand, dropped) := leading 0 n.whole
  let (extended, beyond) := leading significand n.fraction
  let places := n.fraction.length - beyond.length
  let exponent := (dropped.length : Int) - (places : Int) + n.exponent.getD 0
  (scale? extended exponent).map fun f => if n.negative then -f else f

/-- The value of a number, unless it overflows. -/
def value? (n : Numeral) : Option Json :=
  if n.fraction.isEmpty && n.exponent.isNone then
    let magnitude := natOf n.whole
    if n.negative then
      if 0 < magnitude ∧ magnitude ≤ Nat.pow 2 63 then some (.int (-magnitude)) else n.float?.map .float
    else if magnitude < Nat.pow 2 64 then some (.int magnitude)
    else n.float?.map .float
  else n.float?.map .float

end Numeral

end ConstraintModel.Json
