import BoundValues.Control.Drawing

namespace BoundValues

inductive Source
  | user | external | default | config
deriving DecidableEq, Repr

namespace Source

def all : List Source := [user, external, default, config]

def name : Source → String
  | user => "user" | external => "external" | default => "default" | config => "config"

end Source

/-- A value replaced by another. -/
structure Change (α : Type) where
  old : α
  new : α
deriving DecidableEq, Repr

/-- A committed value with its change flag and display data. -/
structure Cell (α : Type) where
  value : α
  changed : Bool := false
  name : String := ""
  tooltip : String := ""
  mode : EditMode := .editable

namespace Cell

variable {α : Type}

/-- Stores a value. The flag then tells whether it differs from the one before. -/
def assign [BEq α] (c : Cell α) (v : α) : Cell α := { c with value := v, changed := v != c.value }

def commit (c : Cell α) (v : α) : Cell α := { c with value := v, changed := true }

/-- Stores a value without touching the flag. -/
def overwrite (c : Cell α) (v : α) : Cell α := { c with value := v }

def clearChanged (c : Cell α) : Cell α := { c with changed := false }

def editable (c : Cell α) : Bool := c.mode == .editable

end Cell

end BoundValues
