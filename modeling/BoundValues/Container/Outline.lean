import BoundValues.Container.Pass
import BoundValues.Text.Numeral

namespace BoundValues

inductive OutlineStyle
  | ascii | unicode | compact
deriving DecidableEq, Repr

structure OutlineOptions where
  style : OutlineStyle := .unicode
  types : Bool := true
  capabilities : Bool := false
  pending : Bool := true
deriving DecidableEq, Repr

namespace OutlineOptions

def detailed : OutlineOptions := { capabilities := true }

def minimal : OutlineOptions := { types := false, pending := false }

end OutlineOptions

def OutlineStyle.branch : OutlineStyle → Bool → String
  | ascii, false => "+-- "
  | ascii, true => "`-- "
  | unicode, false => "├── "
  | unicode, true => "└── "
  | compact, _ => "- "

namespace Outline

/-- What follows the last double colon, if there is one. -/
def afterLastPath : List Char → Option (List Char)
  | ':' :: ':' :: cs => some ((afterLastPath cs).getD cs)
  | _ :: cs => afterLastPath cs
  | [] => none

/-- A type's name without the path in front. -/
def shortName (name : String) : String :=
  ((afterLastPath name.toList).map String.ofList).getD name

def line {α : Type} [BEq α] (o : OutlineOptions) (last : Bool) (id : String) (m : Member α) :
    String :=
  let name := m.body.cell.name
  String.join
    [o.style.branch last, id,
      if name.isEmpty || name == id then "" else " \"" ++ name ++ "\"",
      if o.types then " (" ++ shortName m.type.name ++ ")" else "",
      if o.capabilities then " [" ++ String.intercalate ", " m.interface.declared.flags ++ "]" else "",
      if o.pending && m.body.hasPending then " *pending*" else "",
      "\n"]

def lines {α : Type} [BEq α] (o : OutlineOptions) (w : World α) : List Entry → List String
  | [] => []
  | e :: es => ((w.member? e.key).elim "" (line o es.isEmpty e.id)) :: lines o w es

end Outline

def Container.outline {α : Type} [BEq α] (o : OutlineOptions) (c : Container α) : String :=
  let title := if c.options.name.isEmpty then "(unnamed)" else c.options.name
  let count := String.ofList (Text.natText c.size)
  let head := "Container " ++ title ++ " (" ++ count ++ " values):\n"
  head ++ if c.entries.isEmpty then "  (empty)\n" else String.join (Outline.lines o c.world c.entries)

end BoundValues
