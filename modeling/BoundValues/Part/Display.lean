import BoundValues.Text.Record

namespace BoundValues

/-- Visibility and grouping. Advanced values are drawn only where advanced values are shown. -/
structure Visibility where
  visible : Bool := true
  advanced : Bool := false
  group : String := ""
deriving DecidableEq, Repr

def Visibility.shown (v : Visibility) (showAdvanced : Bool) : Bool :=
  v.visible && (!v.advanced || showAdvanced)

/-- The text beside a value: whether it is shown, and the template it is rendered through. -/
structure Caption where
  shown : Bool := false
  template : Option String := none
deriving DecidableEq, Repr

def Caption.setTemplate (c : Caption) (template : String) : Caption :=
  { c with template := if template.isEmpty then none else some template }

structure Hook where
  name : String
  script : Option Nat := none
deriving DecidableEq, Repr

structure Hooks where
  tooltip : Option Hook := none
  menu : Option Hook := none
deriving DecidableEq, Repr

/-- What a hook is for: hovering, or opening the context menu. -/
inductive Occurrence
  | hovered | menuOpened
deriving DecidableEq, Repr

namespace Hooks

/-- The hooks that run, hovering first. -/
def due (h : Hooks) (hovered menu : Bool) : List (Occurrence × Hook) :=
  (if hovered then h.tooltip.toList.map fun hook => (.hovered, hook) else []) ++
    if menu then h.menu.toList.map fun hook => (.menuOpened, hook) else []

/-- Hooks that run are among those that run on every occasion. -/
theorem due_subset {hooks : Hooks} {hovered menu : Bool} {h : Occurrence × Hook}
    (hh : h ∈ hooks.due hovered menu) : h ∈ hooks.due true true := by
  rcases List.mem_append.mp hh with hh | hh
  · refine List.mem_append_left _ ?_
    split at hh
    · exact hh
    · cases hh
  · refine List.mem_append_right _ ?_
    split at hh
    · exact hh
    · cases hh

def describe (h : Hooks) : String :=
  Text.record "CallbacksPolicy"
    [("tooltip", Text.flagText h.tooltip.isSome), ("context_menu", Text.flagText h.menu.isSome)]

end Hooks

/-- What a value type brings along: its name, its text through a template, and how to read one. -/
structure ValueType (α : Type) where
  name : String
  render : Option String → α → String
  read : String → Option α

def Caption.render {α : Type} (c : Caption) (type : ValueType α) (v : α) : String :=
  type.render c.template v

end BoundValues
