import BoundValues.Part.Link
import BoundValues.Part.Step

namespace BoundValues

structure Monitored (α : Type) where
  cell : Cell α
  source : Source := .default
  link : Link := {}
  listeners : Signal Listener := {}

namespace Monitored

variable {α : Type} [BEq α]

def commitFrom (m : Monitored α) (v : α) (source : Source) : Step (Monitored α) α Bool :=
  if m.cell.value == v then { state := m, reply := false }
  else
    { state := { m with cell := m.cell.assign v, source }
      reply := true
      change := some ⟨m.cell.value, v⟩ }

def set (m : Monitored α) (v : α) : Step (Monitored α) α Bool := m.commitFrom v .user

def commitPulled (m : Monitored α) (v : α) : Step (Monitored α) α Bool := m.commitFrom v .external

/-- Takes an edit from a widget that was shown the value in some mode. -/
def edit (m : Monitored α) (mode : EditMode) (r : Response) (v : α) : Step (Monitored α) α Bool :=
  if r.changed && mode == .editable then m.set v else { state := m, reply := false }

end Monitored

end BoundValues
