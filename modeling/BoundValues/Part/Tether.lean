import BoundValues.Part.Host
import BoundValues.Text.Record

namespace BoundValues

inductive Transfer (α : Type)
  | read (v : α)
  | wrote (v : α)
deriving DecidableEq, Repr

/-- A host, an outside variable, and the directions in which they are linked. -/
structure Tether (α : Type) where
  host : Host α
  outside : α
  getter : Bool := false
  setter : Bool := false
  log : List (Transfer α) := []

namespace Tether

variable {α : Type}

def linked (m : Tether α) : Bool := m.getter || m.setter

def read (m : Tether α) : Tether α × Option α :=
  if m.getter then ({ m with log := m.log ++ [.read m.outside] }, some m.outside) else (m, none)

def write (m : Tether α) (v : α) : Tether α × Bool :=
  if m.setter then ({ m with outside := v, log := m.log ++ [.wrote v] }, true) else (m, false)

def push (m : Tether α) : Tether α × Bool := m.write m.host.cell.value

def acceptsPull (m : Tether α) : Bool := m.getter && !m.host.unapplied

/-- Reads the outside variable and takes the value over, unless an edit waits to be applied; tells
the value that was replaced. -/
def pull [BEq α] (m : Tether α) : Tether α × Option α :=
  if m.acceptsPull then
    match m.read with
    | (m, some v) =>
      let (host, replaced) := m.host.commitPulled v
      ({ m with host }, replaced)
    | (m, none) => (m, none)
  else (m, none)

def describe (m : Tether α) : String :=
  Text.record "ExternalSyncPolicy"
    [("getter", Text.flagText m.getter), ("setter", Text.flagText m.setter)]

end Tether

end BoundValues
