import BoundValues.Part.Cell
import BoundValues.Part.History
import BoundValues.Part.Staging

namespace BoundValues

/-- A cell with what a part asks about it. -/
structure Host (α : Type) where
  cell : Cell α
  unapplied : Bool := false
  source : Source := .default

variable {α : Type} [BEq α]

namespace Host

def commit (h : Host α) (v : α) : Host α := { h with cell := h.cell.assign v }

def replace (h : Host α) (v : α) (source : Source) : Host α × Option α :=
  if h.cell.value == v then (h, none) else ({ h.commit v with source }, some h.cell.value)

def applyPulled (h : Host α) (v : α) : Host α × Option α := h.replace v .external

/-- Takes over a value that was read outside, unless an edit waits to be applied. -/
def commitPulled (h : Host α) (v : α) : Host α × Option α :=
  if h.unapplied then (h, none) else h.applyPulled v

def reset (h : Host α) (fallback : α) : Host α × Option α := h.replace fallback .default

end Host

/-- Commits the staged value to a host when it differs from the committed one. -/
def Staging.applyTo (s : Staging α) (h : Host α) : Staging α × Host α × Bool :=
  match s.take? h.cell.value with
  | some (v, s) => (s, h.commit v, true)
  | none => (s, h, false)

/-- Commits the entry before or after the cursor to a host. -/
def History.stepOn (history : History α) (forward : Bool) (h : Host α) :
    History α × Host α × Option α :=
  match history.step forward with
  | (history, some v) => (history, h.commit v, some v)
  | (history, none) => (history, h, none)

end BoundValues
