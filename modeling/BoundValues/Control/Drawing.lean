namespace BoundValues

/-- How a value may be presented. Only an editable one takes edits. -/
inductive EditMode
  | editable | readOnly | viewOnly
deriving DecidableEq, Repr

namespace EditMode

def all : List EditMode := [editable, readOnly, viewOnly]

def name : EditMode → String
  | editable => "editable" | readOnly => "read_only" | viewOnly => "view_only"

end EditMode

/-- The control that the rendering side should show. -/
inductive WidgetKind
  | auto | checkbox | input | slider | drag | combo | radio | color | vector | multiline
deriving DecidableEq, Repr

namespace WidgetKind

def all : List WidgetKind :=
  [auto, checkbox, input, slider, drag, combo, radio, color, vector, multiline]

def name : WidgetKind → String
  | auto => "auto" | checkbox => "checkbox" | input => "input" | slider => "slider"
  | drag => "drag" | combo => "combo" | radio => "radio" | color => "color" | vector => "vector"
  | multiline => "multiline"

end WidgetKind

/-- Presentation hints. The speed is a 32-bit pattern. -/
structure Hints (α : Type) where
  kind : WidgetKind := .auto
  range : Option (α × α) := none
  speed : Option Nat := none
  options : List String := []

structure Picture (α : Type) where
  label : String
  /-- The value to edit: the staged one where edits are staged. -/
  value : α
  mode : EditMode
  tooltip : String
  hints : Hints α
  /-- A staged value differs from the committed one. -/
  pending : Bool
  /-- The last refusal, or nothing. -/
  error : String
  text : Option String

structure Response where
  changed : Bool := false
  hovered : Bool := false
  menu : Bool := false
deriving DecidableEq, Repr

/-- A write through a named handle. -/
structure Poke (α : Type) where
  handle : String
  value : α

/-- What a widget does in one draw: it leaves an edited value, writes to other values, and
responds. -/
structure Stroke (α : Type) where
  value : α
  pokes : List (Poke α) := []
  response : Response := {}

/-- What a widget does at its n-th draw, counted from zero. The widget belongs to the rendering
side; a bound value only prepares the picture and takes the answer. -/
abbrev Widget (α : Type) := Nat → Picture α → Stroke α

end BoundValues
