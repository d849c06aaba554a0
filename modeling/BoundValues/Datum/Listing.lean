import BoundValues.Text.Blank
import BoundValues.Text.Buffer

namespace BoundValues.Listing

def render (items : List (List Char)) : List Char :=
  Text.clip ('(' :: List.intercalate [',', ' '] items ++ [')'])

def isOpening (c : Char) : Bool := c = '(' || c = '['

def isClosing (c : Char) : Bool := c = ')' || c = ']'

/-- The items between the brackets, read leniently: any run of opening brackets may stand in front
and of closing brackets behind. There is always at least one item, possibly empty. -/
def items (cs : List Char) : List (List Char) :=
  (Text.dropEndWhile isClosing ((Text.trim cs).dropWhile isOpening)).splitOn ','

def read {α : Type} (item : List Char → Option α) (size : Nat) (cs : List Char) : Option (List α) :=
  if (items cs).length = size then (items cs).mapM item else none

end BoundValues.Listing
