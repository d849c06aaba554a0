import BoundValues.Decimal.Binary
import BoundValues.Text.Numeral

namespace BoundValues.Decimal

open Text (natText)

def nanText : List Char := "NaN".toList

def infinityText (negative : Bool) : List Char := (if negative then "-inf" else "inf").toList

def withMinus (negative : Bool) (cs : List Char) : List Char := if negative then '-' :: cs else cs

def padZeros (width : Nat) (cs : List Char) : List Char :=
  List.replicate (width - cs.length) '0' ++ cs

/-- Sets a point before the last `places` digits; none for a whole number. -/
def setPoint (places : Nat) (digits : List Char) : List Char :=
  if places = 0 then digits
  else
    let whole := digits.length - places
    digits.take whole ++ '.' :: digits.drop whole

def fixedDigits (places num den : Nat) : List Char :=
  setPoint places (padZeros (places + 1) (natText (roundDiv (num * tenTo places) den)))

def fixed (places : Nat) : Number → List Char
  | .nan => nanText
  | .infinite negative => infinityText negative
  | .finite negative mantissa power =>
    let (num, den) := Format.quotient mantissa power
    withMinus negative (fixedDigits places num den)

/-- The `count + 1` leading digits of `num / den` as a whole number, and the power of ten of the
first one, after rounding. Zero has the power zero. -/
def leading (count num den : Nat) : Nat × Int :=
  if num = 0 then (0, 0)
  else
    let power := exponent num den
    let (n, d) := scale num den (count - power)
    let digits := roundDiv n d
    if digits = tenTo (count + 1) then (tenTo count, power + 1) else (digits, power)

/-- An exponent with its sign and at least two digits. -/
def exponentText (power : Int) : List Char :=
  'e' :: (if power < 0 then '-' else '+') :: padZeros 2 (natText power.natAbs)

/-- Writes a number as one digit, `places` more after a point, and a power of ten. -/
def scientific (places : Nat) : Number → List Char
  | .nan => nanText
  | .infinite negative => infinityText negative
  | .finite negative mantissa power =>
    let (num, den) := Format.quotient mantissa power
    let (digits, ten) := leading places num den
    withMinus negative (setPoint places (padZeros (places + 1) (natText digits)) ++ exponentText ten)

end BoundValues.Decimal
