import BoundValues.Text.Quoted
import BoundValues.Text.Record

namespace BoundValues

/-- A rule: it accepts a candidate, perhaps as another value, or refuses it with a message. -/
abbrev Validator (α : Type) := α → Except String α

/-- A rule, if there is one, and the last refusal; no text means that the last check passed. -/
structure Validation (α : Type) where
  validator : Option (Validator α) := none
  error : String := ""

namespace Validation

variable {α : Type}

/-- Puts a candidate to the rule. Without one it is accepted as it is. -/
def run (v : Validation α) (candidate : α) : Except String α :=
  match v.validator with
  | some rule => rule candidate
  | none => .ok candidate

/-- The candidate when a rule would run on it. -/
def checked (v : Validation α) (candidate : α) : Option α := v.validator.map fun _ => candidate

def setValidator (v : Validation α) (rule : Validator α) : Validation α :=
  { v with validator := some rule }

def refuse (v : Validation α) (message : String) : Validation α := { v with error := message }

def pass (v : Validation α) : Validation α := { v with error := "" }

def check (v : Validation α) (committed : α) : Validation α × Bool :=
  match v.run committed with
  | .ok _ => (v.pass, true)
  | .error message => (v.refuse message, false)

def valid (v : Validation α) : Bool := v.error.isEmpty

def describe (v : Validation α) : String :=
  Text.record "ValidationPolicy"
    [("validator", Text.flagText v.validator.isSome),
      ("last_error", String.ofList (Text.quote v.error.toList))]

end Validation

end BoundValues
