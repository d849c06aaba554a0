import BoundValues.Decimal.Binary
import BoundValues.Datum.IntegerType

namespace BoundValues

/-- A value of some bindable type. Floats are bit patterns and compare by value, so that a NaN
differs from itself and the zeros are equal; arrays compare element by element. -/
inductive Datum
  | flag (b : Bool)
  | int (i : Int)
  | single (bits : Nat)
  | double (bits : Nat)
  | text (s : String)
  | array (elements : List Datum)
deriving Inhabited

namespace Datum

mutual

def equal : Datum → Datum → Bool
  | flag a, flag b => a == b
  | int a, int b => a == b
  | single a, single b => Decimal.single.equal a b
  | double a, double b => Decimal.double.equal a b
  | text a, text b => a == b
  | array as, array bs => equalAll as bs
  | _, _ => false

def equalAll : List Datum → List Datum → Bool
  | [], [] => true
  | a :: as, b :: bs => equal a b && equalAll as bs
  | _, _ => false

end

instance : BEq Datum := ⟨equal⟩

mutual

/-- Whether one value comes before another of its type. Arrays are ordered by the first place where
the elements differ. -/
def less : Datum → Datum → Bool
  | flag a, flag b => !a && b
  | int a, int b => a < b
  | single a, single b => Decimal.single.less a b
  | double a, double b => Decimal.double.less a b
  | text a, text b => a < b
  | array as, array bs => lessAt as bs
  | _, _ => false

def lessAt : List Datum → List Datum → Bool
  | a :: as, b :: bs => less a b || equal a b && lessAt as bs
  | [], _ :: _ => true
  | _, [] => false

end

end Datum

end BoundValues
