import BoundValues.Decimal.Binary
import BoundValues.Text.Numeral

namespace BoundValues.Decimal

open Text (readDigits)

/-- An unsigned decimal numeral: `digits * 10 ^ power`. -/
structure Numeral where
  digits : Nat
  power : Int
deriving DecidableEq, Repr

namespace Numeral

def readPower : List Char → Option Int
  | '+' :: cs => (readDigits cs).map Int.ofNat
  | '-' :: cs => (readDigits cs).map fun n => -Int.ofNat n
  | cs => (readDigits cs).map Int.ofNat

/-- What may follow the digits: nothing, or the mark of an exponent and the exponent. -/
def readTail : List Char → Option Int
  | [] => some 0
  | c :: cs => if c = 'e' ∨ c = 'E' then readPower cs else none

def read (cs : List Char) : Option Numeral :=
  let whole := cs.takeWhile Char.isDigit
  let rest := cs.dropWhile Char.isDigit
  let (places, tail) := match rest with
    | '.' :: more => (more.takeWhile Char.isDigit, more.dropWhile Char.isDigit)
    | _ => ([], rest)
  match readDigits (whole ++ places), readTail tail with
  | some digits, some power => some ⟨digits, power - places.length⟩
  | _, _ => none

/-- The pattern nearest to a numeral. Powers far outside a format's range are decided by the number
of digits alone. -/
def toBits (f : Format) (negative : Bool) (n : Numeral) : Nat :=
  let size : Int := (Nat.toDigits 10 n.digits).length + n.power
  let range : Int := twoTo f.exponentWidth + f.fraction
  if n.digits = 0 ∨ size < -range then f.withSign negative 0
  else if size > range then f.withSign negative f.infinity
  else
    let (num, den) := scale n.digits 1 n.power
    f.ofRatio negative num den

end Numeral

def readMagnitude (f : Format) (negative : Bool) (cs : List Char) : Option Nat :=
  let lower := cs.map Char.toLower
  if lower = "inf".toList ∨ lower = "infinity".toList then some (f.withSign negative f.infinity)
  else if lower = "nan".toList then some f.quietNan
  else (Numeral.read cs).map (Numeral.toBits f negative)

def read (f : Format) : List Char → Option Nat
  | '+' :: cs => readMagnitude f false cs
  | '-' :: cs => readMagnitude f true cs
  | cs => readMagnitude f false cs

end BoundValues.Decimal
