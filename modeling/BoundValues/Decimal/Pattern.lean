import BoundValues.Decimal.Binary
import BoundValues.Decimal.Places
import BoundValues.Text.Numeral

namespace BoundValues.Decimal

def nanPattern : List Char := "nan".toList

/-- All hexadecimal digits of a pattern behind `0x`, and one word for every NaN. -/
def Format.patternText (f : Format) (bits : Nat) : List Char :=
  if f.position? bits = none then nanPattern
  else
    let width := (f.fraction + f.exponentWidth + 1) / 4
    '0' :: 'x' :: padZeros width (Text.hexText bits)

def hexDigit (c : Char) : Nat :=
  if c.isDigit then c.toNat - '0'.toNat else c.toNat - 'a'.toNat + 10

def Format.readPattern (f : Format) (cs : List Char) : Nat :=
  if cs = nanPattern then f.quietNan else (cs.drop 2).foldl (fun n c => n * 16 + hexDigit c) 0

end BoundValues.Decimal
