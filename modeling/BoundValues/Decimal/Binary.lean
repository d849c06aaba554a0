import BoundValues.Decimal.Rounding

namespace BoundValues.Decimal

/-- An interchange format: the widths of the stored fraction and of the exponent field. -/
structure Format where
  fraction : Nat
  exponentWidth : Nat
deriving DecidableEq, Repr

def single : Format := ⟨23, 8⟩

def double : Format := ⟨52, 11⟩

/-- What a bit pattern stands for. A finite one is `± mantissa * 2 ^ power`. -/
inductive Number
  | nan
  | infinite (negative : Bool)
  | finite (negative : Bool) (mantissa : Nat) (power : Int)
deriving DecidableEq, Repr

namespace Format

/-- The exponent of the least positive number, a power of two. -/
def leastPower (f : Format) : Int := 2 - twoTo (f.exponentWidth - 1) - f.fraction

def infinity (f : Format) : Nat := (twoTo f.exponentWidth - 1) * twoTo f.fraction

def signBit (f : Format) : Nat := twoTo (f.fraction + f.exponentWidth)

def quietNan (f : Format) : Nat := f.infinity + twoTo (f.fraction - 1)

def withSign (f : Format) (negative : Bool) (magnitude : Nat) : Nat :=
  if negative then f.signBit + magnitude else magnitude

def decode (f : Format) (bits : Nat) : Number :=
  let negative := f.signBit ≤ bits
  let magnitude := bits % f.signBit
  let field := magnitude / twoTo f.fraction
  let stored := magnitude % twoTo f.fraction
  if magnitude > f.infinity then .nan
  else if magnitude = f.infinity then .infinite negative
  else if field = 0 then .finite negative stored f.leastPower
  else .finite negative (twoTo f.fraction + stored) (f.leastPower + field - 1)

def quotient (mantissa : Nat) (power : Int) : Nat × Nat :=
  if 0 ≤ power then (mantissa * twoTo power.toNat, 1) else (mantissa, twoTo (-power).toNat)

/-- The pattern nearest to `num / den` in magnitude, ties to even; infinity when it is too large. -/
def ofRatio (f : Format) (negative : Bool) (num den : Nat) : Nat :=
  if num = 0 then f.withSign negative 0
  else
    let guess : Int := num.log2 - den.log2
    let (n, d) := quotient num (-guess)
    let top := if n < d * den then guess - 1 else guess
    let power := max f.leastPower (top - f.fraction)
    let (n, d) := quotient num (-power)
    let mantissa := roundDiv n (d * den)
    let magnitude := mantissa + (power - f.leastPower).toNat * twoTo f.fraction
    f.withSign negative (min magnitude f.infinity)

def ofInt (f : Format) (i : Int) : Nat := f.ofRatio (i < 0) i.natAbs 1

/-- The pattern in `f` of the value that `bits` has in `g`. -/
def convert (f g : Format) (bits : Nat) : Nat :=
  match g.decode bits with
  | .nan => f.quietNan
  | .infinite negative => f.withSign negative f.infinity
  | .finite negative mantissa power =>
    let (n, d) := quotient mantissa power
    f.ofRatio negative n d

/-- A position on the number line: equal values have equal positions, and a NaN has none. -/
def position? (f : Format) (bits : Nat) : Option Int :=
  let magnitude := bits % f.signBit
  if magnitude > f.infinity then none
  else some (if f.signBit ≤ bits then -magnitude else magnitude)

def equal (f : Format) (a b : Nat) : Bool :=
  match f.position? a, f.position? b with
  | some x, some y => x == y
  | _, _ => false

def less (f : Format) (a b : Nat) : Bool :=
  match f.position? a, f.position? b with
  | some x, some y => x < y
  | _, _ => false

def add (f : Format) (a b : Nat) : Nat :=
  match f.decode a, f.decode b with
  | .nan, _ | _, .nan => f.quietNan
  | .infinite s, .infinite t => if s = t then f.withSign s f.infinity else f.quietNan
  | .infinite s, _ | _, .infinite s => f.withSign s f.infinity
  | .finite s m p, .finite t n q =>
    let low := min p q
    let left : Int := m * twoTo (p - low).toNat
    let right : Int := n * twoTo (q - low).toNat
    let sum := (if s then -left else left) + (if t then -right else right)
    let (num, den) := quotient sum.natAbs low
    f.ofRatio (if sum = 0 then s && t else sum < 0) num den

/-- The integer part of a value, brought between two bounds; zero for a NaN. -/
def truncate (f : Format) (least greatest : Int) (bits : Nat) : Int :=
  match f.decode bits with
  | .nan => 0
  | .infinite negative => if negative then least else greatest
  | .finite negative mantissa power =>
    let (n, d) := quotient mantissa power
    let whole : Int := n / d
    max least (min greatest (if negative then -whole else whole))

end Format

end BoundValues.Decimal
