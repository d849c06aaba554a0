import BoundValues.Part.Display
import BoundValues.Part.History
import BoundValues.Part.Link
import BoundValues.Part.Staging
import BoundValues.Part.Step
import BoundValues.Part.Validation

namespace BoundValues

/-- A value with every optional behaviour. -/
structure Full (α : Type) where
  cell : Cell α
  fallback : α
  staging : Staging α := {}
  validation : Validation α := {}
  history : History α := {}
  source : Source := .default
  visibility : Visibility := {}
  caption : Caption := {}
  hooks : Hooks := {}
  immediate : Bool := false
  /-- Whether a widget staged an edit since the change flag was cleared. -/
  edited : Bool := false
  link : Link := {}
  listeners : Signal Listener := {}

namespace Full

variable {α : Type}

/-- A value that starts from its default, with the default as its first history entry. -/
def new (fallback : α) : Full α :=
  { cell := ⟨fallback, false, "", "", .editable⟩, fallback, history := History.push {} fallback }

def effective (f : Full α) : α := f.staging.effective f.cell.value

/-- Whether the value changed or was edited since the flags were cleared. -/
def isChanged (f : Full α) : Bool := f.cell.changed || f.edited

def clearChanged (f : Full α) : Full α := { f with cell := f.cell.clearChanged, edited := false }

def setCapacity (f : Full α) (n : Nat) : Full α := { f with history := f.history.setCapacity n }

def clearHistory (f : Full α) : Full α := { f with history := f.history.clear }

variable [BEq α]

def hasPending (f : Full α) : Bool := f.staging.hasChanges f.cell.value

/-- Commits a value that differs, records it in the history and marks its source. -/
def commitFrom (f : Full α) (v : α) (source : Source) : Full α × Option (Change α) :=
  if f.cell.value == v then (f, none)
  else
    ({ f with cell := f.cell.commit v, history := f.history.push v, source },
      some ⟨f.cell.value, v⟩)

def refuse {ρ : Type} (f : Full α) (candidate : α) (message : String) :
    Step (Full α) α (Outcome ρ) :=
  { state := { f with validation := f.validation.refuse message }
    reply := .error (.refused message)
    checked := f.validation.checked candidate }

def set (f : Full α) (candidate : α) : Step (Full α) α (Outcome Bool) :=
  match f.validation.run candidate with
  | .error message => f.refuse candidate message
  | .ok accepted =>
    let (state, change) := commitFrom { f with validation := f.validation.pass } accepted .user
    { state, reply := .ok change.isSome, change, checked := f.validation.checked candidate }

def stage (f : Full α) (candidate : α) : Step (Full α) α (Outcome Unit) :=
  match f.validation.run candidate with
  | .error message => f.refuse candidate message
  | .ok accepted =>
    { state := { f with
        validation := f.validation.pass, staging := f.staging.stage accepted, source := .user }
      reply := .ok ()
      checked := f.validation.checked candidate }

def apply (f : Full α) : Step (Full α) α Bool :=
  match f.staging.take? f.cell.value with
  | none => { state := f, reply := false }
  | some (v, staging) =>
    { state := { f with cell := f.cell.assign v, staging, history := f.history.push v }
      reply := true
      change := some ⟨f.cell.value, v⟩ }

def revert (f : Full α) : Full α := { f with staging := f.staging.revert }

/-- Commits the entry before or after the cursor of the history. -/
def step (f : Full α) (forward : Bool) : Step (Full α) α (Option α) :=
  match f.history.step forward with
  | (history, none) => { state := { f with history }, reply := none }
  | (history, some v) =>
    { state := { f with history, cell := f.cell.assign v, source := .user }
      reply := some v
      change := some ⟨f.cell.value, v⟩ }

/-- Takes over a value that was read outside, unless an edit waits to be applied. -/
def commitPulled (f : Full α) (v : α) : Step (Full α) α Bool :=
  if f.hasPending || f.cell.value == v then { state := f, reply := false }
  else
    { state := { f with cell := f.cell.assign v, source := .external, history := f.history.push v }
      reply := true
      change := some ⟨f.cell.value, v⟩ }

/-- Drops the staged value and commits the default when it differs. -/
def reset (f : Full α) : Step (Full α) α Bool :=
  let (state, change) := f.revert.commitFrom f.fallback .default
  { state, reply := change.isSome, change }

/-- Reads, validates and commits a text. A staged value is dropped, and the source is marked even
when the value stays the same. -/
def load (type : ValueType α) (f : Full α) (text : String) : Step (Full α) α (Outcome Unit) :=
  match type.read text with
  | none => { state := f, reply := .error (.unreadable text type.name) }
  | some candidate =>
    match f.validation.run candidate with
    | .error message => f.refuse candidate message
    | .ok accepted =>
      let ready := revert { f with validation := f.validation.pass }
      let (state, change) := ready.commitFrom accepted .config
      { state := { state with source := .config }
        reply := .ok ()
        change
        checked := f.validation.checked candidate }

def check (f : Full α) : Step (Full α) α Bool :=
  let (validation, valid) := f.validation.check f.cell.value
  { state := { f with validation }, reply := valid, checked := f.validation.checked f.cell.value }

/-- Takes an edit from a widget that was shown the value in some mode: it is staged, and applied at
once where that was asked for when the drawing began. -/
def edit (f : Full α) (mode : EditMode) (immediate : Bool) (r : Response) (v : α) :
    Step (Full α) α Bool :=
  if r.changed && mode == .editable then
    let staged := f.stage v
    match staged.reply with
    | .error _ => { state := staged.state, reply := false, checked := staged.checked }
    | .ok _ =>
      let edited := { staged.state with edited := true }
      if immediate then { edited.apply with reply := true, checked := staged.checked }
      else { state := edited, reply := true, checked := staged.checked }
  else { state := f, reply := false }

end Full

end BoundValues
