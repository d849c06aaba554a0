import BoundValues.Decimal.Reading
import BoundValues.Decimal.Shortest
import BoundValues.Template.Directive
import BoundValues.Text.Blank

namespace BoundValues.Template

open Decimal (double)
open Text (trim)

/-- An argument of a template. Integers have 128 bits, floats are 64-bit patterns. -/
inductive Argument
  | int (i : Int)
  | float (bits : Nat)
  | text (cs : List Char)
  | flag (b : Bool)
deriving DecidableEq, Repr

def leastInt : Int := -Int.ofNat (Decimal.twoTo 127)

def greatestInt : Int := Decimal.twoTo 127 - 1

namespace Argument

/-- An argument as an integer. Floats lose their fraction and are brought into range; a text that is
no integer counts as zero. -/
def toInt : Argument → Int
  | .int i => i
  | .float bits => double.truncate leastInt greatestInt bits
  | .flag b => if b then 1 else 0
  | .text cs => (Text.readBounded leastInt greatestInt (trim cs)).getD 0

def toFloat : Argument → Nat
  | .int i => double.ofInt i
  | .float bits => bits
  | .flag b => double.ofInt (if b then 1 else 0)
  | .text cs => (Decimal.read double (trim cs)).getD 0

def toText : Argument → List Char
  | .int i => Text.intText i
  | .float bits => Decimal.display double (double.decode bits)
  | .text cs => cs
  | .flag b => (if b then "true" else "false").toList

end Argument

def signOf : List Char → List Char
  | c :: _ => if c = '-' ∨ c = '+' ∨ c = ' ' then [c] else []
  | [] => []

/-- Puts the sign that the flags ask for in front of a number without a minus sign. -/
def withSign (layout : Layout) (body : List Char) : List Char :=
  if body.head? = some '-' then body
  else if layout.plus then '+' :: body
  else if layout.space then ' ' :: body
  else body

/-- Fills a text up to the width. Zeros go between the sign and the digits of a number. -/
def fill (layout : Layout) (numeric : Bool) (body : List Char) : List Char :=
  let missing := layout.width - body.length
  if layout.left then body ++ List.replicate missing ' '
  else if layout.zeros && numeric then
    let sign := signOf body
    sign ++ List.replicate missing '0' ++ body.drop sign.length
  else List.replicate missing ' ' ++ body

/-- Drops the zeros at the end of a fraction, and the point when nothing is left behind it. The
exponent stays. -/
def stripZeros (cs : List Char) : List Char :=
  let mantissa := cs.takeWhile (· != 'e')
  if mantissa.contains '.' then
    Text.dropEndWhile (· = '.') (Text.dropEndWhile (· = '0') mantissa) ++ cs.dropWhile (· != 'e')
  else cs

/-- Writes a number with a fixed number of digits, without trailing zeros: in scientific notation
when its power of ten, after rounding, is below -4 or not below the number of digits. -/
def generalText (digits : Nat) : Decimal.Number → List Char
  | .finite negative mantissa power =>
    if mantissa = 0 then ['0']
    else
      let places := max digits 1 - 1
      let (num, den) := Decimal.Format.quotient mantissa power
      let (_, ten) := Decimal.leading places num den
      let number := Decimal.Number.finite negative mantissa power
      stripZeros
        (if ten < -4 ∨ places < ten then Decimal.scientific places number
         else Decimal.fixed (places - ten).toNat number)
  | .nan => Decimal.nanText
  | .infinite negative => Decimal.infinityText negative

def hexadecimal (i : Int) : List Char := Text.hexText (i % Decimal.twoTo 128).toNat

def Conversion.body (layout : Layout) (argument : Argument) : Conversion → List Char
  | .signed => withSign layout (Text.intText argument.toInt)
  | .unsigned => Text.natText argument.toInt.toNat
  | .hexLower => hexadecimal argument.toInt
  | .hexUpper => (hexadecimal argument.toInt).map Char.toUpper
  | .fixed =>
    withSign layout (Decimal.fixed (layout.precision.getD 6) (double.decode argument.toFloat))
  | .scientific =>
    withSign layout (Decimal.scientific (layout.precision.getD 6) (double.decode argument.toFloat))
  | .general => withSign layout (generalText (layout.precision.getD 6) (double.decode argument.toFloat))
  | .text => match layout.precision with
    | some most => argument.toText.take most
    | none => argument.toText

def Piece.text (argument : Argument) : Piece → List Char
  | .plain c => [c]
  | .percent _ => ['%']
  | .convert _ layout conversion =>
    fill layout (conversion != .text) (conversion.body layout argument)
  | .verbatim source => source

end BoundValues.Template
