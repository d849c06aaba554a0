import BoundValues.Part.Display
import BoundValues.Part.Staging
import BoundValues.Part.Step
import BoundValues.Part.Validation

namespace BoundValues

structure Config (α : Type) where
  cell : Cell α
  fallback : α
  staging : Staging α := {}
  validation : Validation α := {}
  source : Source := .default
  visibility : Visibility := {}
  immediate : Bool := false
  /-- Whether a widget staged an edit since the change flag was cleared. -/
  edited : Bool := false

namespace Config

variable {α : Type}

def new (fallback : α) : Config α := { cell := ⟨fallback, false, "", "", .editable⟩, fallback }

def effective (c : Config α) : α := c.staging.effective c.cell.value

/-- Whether the value changed or was edited since the flags were cleared. -/
def isChanged (c : Config α) : Bool := c.cell.changed || c.edited

def clearChanged (c : Config α) : Config α := { c with cell := c.cell.clearChanged, edited := false }

variable [BEq α]

def hasPending (c : Config α) : Bool := c.staging.hasChanges c.cell.value

def trySet (c : Config α) (candidate : α) : Step (Config α) α (Outcome Unit) :=
  let checked := c.validation.checked candidate
  match c.validation.run candidate with
  | .ok accepted =>
    { state := { c with
        staging := c.staging.stage accepted, source := .user, validation := c.validation.pass }
      reply := .ok ()
      checked }
  | .error message =>
    { state := { c with validation := c.validation.refuse message }
      reply := .error (.refused message)
      checked }

def stage (c : Config α) (v : α) : Config α := { c with staging := c.staging.stage v }

/-- Commits the staged value when it differs. -/
def apply (c : Config α) : Step (Config α) α Bool :=
  match c.staging.take? c.cell.value with
  | some (v, staging) => { state := { c with cell := c.cell.assign v, staging }, reply := true }
  | none => { state := c, reply := false }

def revert (c : Config α) : Config α := { c with staging := c.staging.revert }

/-- Drops the staged value and commits the default when it differs. -/
def reset (c : Config α) : Step (Config α) α Bool :=
  let c := c.revert
  if c.cell.value == c.fallback then { state := c, reply := false }
  else
    { state := { c with cell := c.cell.assign c.fallback, source := .default }, reply := true }

/-- Reads, validates and commits a text. A staged value is dropped. -/
def load (type : ValueType α) (c : Config α) (text : String) : Step (Config α) α (Outcome Unit) :=
  match type.read text with
  | none => { state := c, reply := .error (.unreadable text type.name) }
  | some candidate =>
    let checked := c.validation.checked candidate
    match c.validation.run candidate with
    | .error message =>
      { state := { c with validation := c.validation.refuse message }
        reply := .error (.refused message)
        checked }
    | .ok accepted =>
      { state := { c with
          staging := c.staging.revert, cell := c.cell.assign accepted, source := .config
          validation := c.validation.pass }
        reply := .ok ()
        checked }

def check (c : Config α) : Step (Config α) α Bool :=
  let (validation, valid) := c.validation.check c.cell.value
  { state := { c with validation }, reply := valid, checked := c.validation.checked c.cell.value }

/-- Takes an edit from a widget: it is staged, and applied at once where that is asked for. -/
def edit (c : Config α) (r : Response) (v : α) : Step (Config α) α Bool :=
  if r.changed && c.cell.editable then
    let staged := c.trySet v
    match staged.reply with
    | .error _ => { state := staged.state, reply := false, checked := staged.checked }
    | .ok _ =>
      let edited := { staged.state with edited := true }
      { state := if edited.immediate then edited.apply.state else edited
        reply := true
        checked := staged.checked }
  else { state := c, reply := false }

end Config

end BoundValues
