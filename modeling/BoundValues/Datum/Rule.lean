import BoundValues.Datum.Basic
import BoundValues.Part.Validation

namespace BoundValues

inductive Rule
  | accept
  | reject (message : String)
  | rejectIf (values : List Datum) (message : String)
  /-- Accepts a listed value as its counterpart, and the others as they are. -/
  | substitute (pairs : List (Datum × Datum))
  | range (low high : Datum) (message : String)
  | clamp (low high : Datum)
  | maxBytes (n : Nat) (message : String)

namespace Rule

/-- Whether a text has more than `n` bytes; other values have none. -/
def exceeds (n : Nat) : Datum → Bool
  | .text s => n < s.utf8ByteSize
  | _ => false

def refuseIf (b : Bool) (message : String) (candidate : Datum) : Except String Datum :=
  if b then .error message else .ok candidate

def run : Rule → Validator Datum
  | accept, v => .ok v
  | reject message, _ => .error message
  | rejectIf values message, v => refuseIf (values.any fun x => x == v) message v
  | substitute pairs, v =>
    match pairs.find? fun p => p.1 == v with
    | some p => .ok p.2
    | none => .ok v
  | range low high message, v => refuseIf (v.less low || high.less v) message v
  | clamp low high, v => .ok (if v.less low then low else if high.less v then high else v)
  | maxBytes n message, v => refuseIf (exceeds n v) message v

end Rule

end BoundValues
