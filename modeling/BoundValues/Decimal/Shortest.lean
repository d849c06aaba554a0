import BoundValues.Decimal.Places

namespace BoundValues.Decimal

open Text (natText)

/-- The numbers that read back as one number: its neighbourhood `low ≤ x ≤ high` around `value`, over
one denominator. The ends belong to it when the mantissa is even. -/
structure Neighbourhood where
  low : Nat
  value : Nat
  high : Nat
  den : Nat
  closed : Bool

namespace Neighbourhood

/-- The neighbourhood of `mantissa * 2 ^ power`. Below a power of two the next number is only half as
far away, except at the least power. -/
def ofFinite (f : Format) (mantissa : Nat) (power : Int) : Neighbourhood :=
  let below := if mantissa = twoTo f.fraction ∧ f.leastPower < power then 1 else 2
  let (unit, den) := Format.quotient 1 (power - 2)
  { low := (4 * mantissa - below) * unit
    value := 4 * mantissa * unit
    high := (4 * mantissa + 2) * unit
    den := den
    closed := mantissa % 2 = 0 }

def holds (n : Neighbourhood) (unit : Nat) (k : Nat) : Bool :=
  if n.closed then n.low ≤ k * unit && k * unit ≤ n.high
  else n.low < k * unit && k * unit < n.high

/-- The multiple of `10 ^ ten` nearest to the value among its two neighbours on that grid, if one of
them lies in the neighbourhood. -/
def onGrid? (n : Neighbourhood) (ten : Int) : Option Nat :=
  let (up, down) := if 0 ≤ ten then (1, tenTo ten.toNat) else (tenTo (-ten).toNat, 1)
  let grid : Neighbourhood := { n with low := n.low * up, value := n.value * up, high := n.high * up }
  let unit := n.den * down
  let k := grid.value / unit
  match grid.holds unit k, grid.holds unit (k + 1) with
  | true, true => some (if 2 * (grid.value % unit) < unit then k else k + 1)
  | true, false => some k
  | false, true => some (k + 1)
  | false, false => none

end Neighbourhood

/-- The first grid with a hit, from `ten` downwards over `count` grids. -/
def firstGrid (n : Neighbourhood) : Nat → Int → Nat × Int
  | 0, ten => (n.value / n.den, ten)
  | count + 1, ten =>
    match n.onGrid? ten with
    | some k => (k, ten)
    | none => firstGrid n count (ten - 1)

/-- The shortest digits of a positive number as a whole number, and the power of ten of the last
digit. The first grid is coarser than the number's first digit, for a number just below a power of
ten. Seventeen digits are enough for the 64-bit format. -/
def shortest (f : Format) (mantissa : Nat) (power : Int) : Nat × Int :=
  let (num, den) := Format.quotient mantissa power
  firstGrid (.ofFinite f mantissa power) 18 (exponent num den + 1)

/-- Writes `digits * 10 ^ ten` without an exponent. -/
def positional (digits : Nat) (ten : Int) : List Char :=
  if 0 ≤ ten then natText (digits * tenTo ten.toNat)
  else
    let places := (-ten).toNat
    setPoint places (padZeros (places + 1) (natText digits))

def display (f : Format) : Number → List Char
  | .nan => nanText
  | .infinite negative => infinityText negative
  | .finite negative mantissa power =>
    withMinus negative
      (if mantissa = 0 then ['0']
       else
        let (digits, ten) := shortest f mantissa power
        positional digits ten)

end BoundValues.Decimal
