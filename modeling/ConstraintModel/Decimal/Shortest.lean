/-!
# Shortest decimals

A finite double stands for every real that rounds to it. Among the decimals in that interval
`Magnitude.shortest` selects one with the fewest digits and, of those, the one nearest to the
double. Selection is exact: ends of the interval and decimals are compared as products of
naturals, so nothing is rounded on the way.
-/

namespace ConstraintModel.Decimal

/-- The decimal `significand * 10 ^ exponent`. -/
structure Digits where
  significand : Nat
  exponent : Int
  deriving DecidableEq, Repr

/-- Which of two equally near decimals is taken. -/
inductive Tie
  | up
  | toEven
  deriving DecidableEq, Repr

/-- The absolute value `significand * 2 ^ exponent` of a finite double. -/
structure Magnitude where
  significand : Nat
  exponent : Int
  /-- The next smaller double is at half the distance of the next larger one. -/
  narrowBelow : Bool
  deriving DecidableEq, Repr

/-- The absolute value that the low 63 bits of a finite double stand for. -/
def Magnitude.ofBits (bits : Nat) : Magnitude :=
  let fraction : Nat := bits % Nat.pow 2 52
  let biased : Nat := bits / Nat.pow 2 52 % Nat.pow 2 11
  if biased = 0 then ⟨fraction, -1074, false⟩
  else ⟨fraction + Nat.pow 2 52, (biased : Int) - 1075, fraction = 0 && 1 < biased⟩

namespace Magnitude

/-- Quarters of the last binary place at which the rounding interval begins. -/
def lower (m : Magnitude) : Nat :=
  4 * m.significand - if m.narrowBelow then 1 else 2

/-- Quarters of the last binary place at which the rounding interval ends. -/
def upper (m : Magnitude) : Nat :=
  4 * m.significand + 2

/-- Factors `(a, b)` such that `d * 10 ^ place` and `c` quarters of the last binary place compare
as `d * b` and `c * a`. -/
def factors (m : Magnitude) (place : Int) : Nat × Nat :=
  let quarter := m.exponent - 2
  (Nat.pow 2 quarter.toNat * Nat.pow 10 (-place).toNat,
    Nat.pow 2 (-quarter).toNat * Nat.pow 10 place.toNat)

/-- Whether `d * 10 ^ place` rounds to the magnitude: it lies inside the interval, or at one of its
ends when the significand is even. -/
def readsBack (m : Magnitude) (place : Int) (d : Nat) : Bool :=
  let (a, b) := m.factors place
  if m.significand % 2 = 0 then m.lower * a ≤ d * b && d * b ≤ m.upper * a
  else m.lower * a < d * b && d * b < m.upper * a

/-- The multiple of `10 ^ place` to write, if a neighbour of the magnitude among them reads back. -/
def onGrid? (m : Magnitude) (tie : Tie) (place : Int) : Option Digits :=
  let (a, b) := m.factors place
  let value := 4 * m.significand * a
  let below := value / b
  let above := below + 1
  let pick (d : Nat) : Option Digits := some ⟨d, place⟩
  match m.readsBack place below, m.readsBack place above with
  | false, false => none
  | true, false => pick below
  | false, true => pick above
  | true, true =>
    match compare (2 * value) ((below + above) * b), tie with
    | .lt, _ => pick below
    | .gt, _ => pick above
    | .eq, .up => pick above
    | .eq, .toEven => pick (if below % 2 = 0 then below else above)

/-- The magnitude as a decimal with all its digits. -/
def exact (m : Magnitude) : Digits :=
  ⟨m.significand * Nat.pow 2 m.exponent.toNat * Nat.pow 5 (-m.exponent).toNat, min m.exponent 0⟩

/-- A power of ten above the magnitude: its binary length times `log 2 / log 10`, rounded up. -/
def topPlace (m : Magnitude) : Int :=
  (m.significand.log2 + m.exponent + 1) * 30103 / 100000 + 1

/-- The decimal with the fewest digits that reads back as the magnitude. Seventeen digits always
suffice, so the coarsest grid that serves is at most eighteen places below the top. -/
def shortest (m : Magnitude) (tie : Tie) : Digits :=
  let places := (List.range 20).map fun (n : Nat) => m.topPlace - (n : Int)
  (places.findSome? (m.onGrid? tie)).getD m.exact

end Magnitude

end ConstraintModel.Decimal
