import BoundValues.Control.Drawing
import BoundValues.Member.Kind

namespace BoundValues

/-- A presentation. The speed is a 32-bit pattern. -/
inductive Preset (α : Type)
  | plain
  | ofKind (kind : WidgetKind)
  | slider (low high : α)
  /-- Dragging with some speed; equal ends leave it unbounded. -/
  | drag (speed : Nat) (low high : α)
  | combo (options : List String)
  | radio (options : List String)

namespace Preset

variable {α : Type} [BEq α]

def hints : Preset α → Hints α
  | plain => {}
  | ofKind kind => { kind }
  | slider low high => { kind := .slider, range := some (low, high) }
  | drag speed low high =>
    { kind := .drag
      range := if low != high then some (low, high) else none
      speed := some speed }
  | combo options => { kind := .combo, options }
  | radio options => { kind := .radio, options }

end Preset

end BoundValues
