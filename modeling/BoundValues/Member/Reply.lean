import BoundValues.Control.BindingError
import BoundValues.Member.Body

namespace BoundValues

/-- A bound value with its type, its hints and its widget. -/
structure Member (α : Type) where
  type : ValueType α
  body : Body α
  hints : Hints α := {}
  widget : Option (Widget α) := none
  drawn : Nat := 0
  /-- The connection made last under each listener's name. -/
  connections : List (String × Ticket) := []

namespace Member

variable {α : Type}

def concrete (m : Member α) : Concrete := ⟨m.body.kind, m.type.name⟩

def interface (m : Member α) : Interface := .plain m.concrete.name m.body.kind.capabilities

def captionText (m : Member α) : String := m.body.caption.render m.type m.body.value

def valueText (m : Member α) : String := m.type.render none m.body.value

def picture [BEq α] (m : Member α) (label : String) : Picture α :=
  { label
    value := m.body.effective
    mode := m.body.cell.mode
    tooltip := m.body.cell.tooltip
    hints := m.hints
    pending := m.body.hasPending
    error := m.body.validation.error
    text := if m.body.caption.shown then some m.captionText else none }

/-- Connects a listener; only the kinds with listeners keep it. -/
def connect (m : Member α) (l : Listener) : Member α :=
  { m with
    body := m.body.mapListeners fun s => (s.connect l).1
    connections := (l.name, m.body.listeners.next) :: m.connections }

end Member

inductive Reply (α : Type)
  /-- The request was carried out; there is nothing to tell. -/
  | nothing
  | flag (b : Bool)
  | number (n : Nat)
  | text (s : String)
  | texts (ss : List String)
  | value (v : α)
  | mode (m : EditMode)
  | source (s : Source)
  | hints (h : Hints α)
  /-- Whether a query finds a capability, to look at and to change. -/
  | found (b : Bool)
  /-- For each capability, whether a query finds it. -/
  | presence (ps : List (Capability × Bool))
  | snapshot (m : Member α)
  | accepted (r : Reply α)
  | refused (e : BindingError)
  /-- The member lacks the capability. -/
  | absent
  /-- The member's kind does not know the request. -/
  | unsupported
  | dropped
  | missing
  | unknownHandle

namespace Reply

variable {α : Type}

def option (v : Option α) : Reply α := v.elim nothing value

def optionText (s : Option String) : Reply α := s.elim nothing text

def outcome {ρ : Type} (f : ρ → Reply α) : Outcome ρ → Reply α
  | .ok r => accepted (f r)
  | .error e => refused e

def done : Outcome Unit → Reply α := outcome fun _ => nothing

end Reply

end BoundValues
