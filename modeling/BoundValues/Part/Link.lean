import BoundValues.Part.Cell
import BoundValues.Part.Signal

namespace BoundValues

/-- One direction of a link: the variable, and what else is done when it is read or written. -/
structure Endpoint where
  external : Nat
  script : Option Nat := none
deriving DecidableEq, Repr

/-- How a value is read from outside and written to it. -/
structure Link where
  getter : Option Endpoint := none
  setter : Option Endpoint := none
deriving DecidableEq, Repr

def Link.linked (l : Link) : Bool := l.getter.isSome || l.setter.isSome

/-- What a listener is told. -/
inductive ListenerForm
  | pair
  /-- Only that something changed. -/
  | bare
  /-- Only that something changed, to a listener set up with the value. -/
  | built
deriving DecidableEq, Repr

/-- A change listener: its name, its form and what it does. -/
structure Listener where
  name : String
  form : ListenerForm
  script : Option Nat := none
deriving DecidableEq, Repr

/-- The listeners that a change is told to. There is nothing to tell when the value stayed the
same. -/
def Change.audience {α : Type} [BEq α] (c : Change α) (s : Signal Listener) :
    Option (List Listener) :=
  if c.old == c.new then none else some s.snapshot

end BoundValues
