import BoundValues.Template.Scanner

namespace BoundValues.Template

/-- The whole text of a template, of any length: the texts of its pieces. -/
def rendered (template : List Char) (argument : Argument) : List Char :=
  (pieces template).flatMap (Piece.text argument)

def isFull (out : List Char) : Bool := Text.bufferSize ≤ Text.byteLength out

def format (template : List Char) (argument : Argument) : List Char :=
  Text.clip ((scan template argument isFull [] (placed 0 template)).getD [])

end BoundValues.Template
