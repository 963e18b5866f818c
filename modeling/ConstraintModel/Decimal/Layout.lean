import ConstraintModel.Decimal.Shortest

/-!
# Decimal notation

A `Layout` holds the decisions of one number format, and `Layout.write` lays the shortest digits of
a double out in it: positionally with a point and at least one digit on either side of it, or with
an exponent.
-/

namespace ConstraintModel.Decimal

/-- The decisions of a number format. -/
structure Layout where
  /-- Least power of ten of a leading digit that is written positionally. -/
  positionalFrom : Int
  /-- Least power of ten of a leading digit above those that are written positionally. -/
  positionalBelow : Int
  /-- Whether a positive exponent carries a plus sign. -/
  plusSign : Bool
  /-- The choice between two equally near decimals. -/
  tie : Tie

/-- The decimal digits of `n`, most significant first. -/
def digits (n : Nat) : List Char :=
  Nat.toDigits 10 n

/-- Digits with a point and at least one digit on either side of it. -/
def positional (d : Digits) : List Char :=
  let ds := digits d.significand
  if 0 ≤ d.exponent then ds ++ List.replicate d.exponent.toNat '0' ++ ['.', '0']
  else
    let places := (-d.exponent).toNat
    let padded := List.replicate (places + 1 - ds.length) '0' ++ ds
    let whole := padded.length - places
    padded.take whole ++ '.' :: padded.drop whole

/-- One digit, a point if more follow, and the power of ten of the first digit. -/
def scientific (plusSign : Bool) (d : Digits) : List Char :=
  let ds := digits d.significand
  let power := d.exponent + ((ds.length - 1 : Nat) : Int)
  let fraction := if ds.length = 1 then [] else '.' :: ds.drop 1
  let sign := if power < 0 then ['-'] else if plusSign then ['+'] else []
  ds.take 1 ++ fraction ++ 'e' :: sign ++ digits power.natAbs

namespace Layout

/-- Digits in the notation that the format has for their size. -/
def arrange (l : Layout) (d : Digits) : List Char :=
  let power := d.exponent + (((digits d.significand).length - 1 : Nat) : Int)
  if d.significand = 0 ∨ (l.positionalFrom ≤ power ∧ power < l.positionalBelow) then positional d
  else scientific l.plusSign d

/-- The text of a double; the values that no decimal stands for are written as words. -/
def write (l : Layout) (x : Float) : String :=
  if x.isNaN then "NaN"
  else
    let bits := x.toBits.toNat
    let sign := if Nat.pow 2 63 ≤ bits then "-" else ""
    if x.isInf then sign ++ "inf"
    else
      let m := Magnitude.ofBits (bits % Nat.pow 2 63)
      let d := if m.significand = 0 then ⟨0, 0⟩ else m.shortest l.tie
      sign ++ String.ofList (l.arrange d)

end Layout

end ConstraintModel.Decimal
