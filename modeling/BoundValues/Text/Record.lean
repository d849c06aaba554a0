namespace BoundValues.Text

def flagText (b : Bool) : String := if b then "true" else "false"

def fieldText (f : String × String) : String := f.1 ++ ": " ++ f.2

def record (name : String) (fields : List (String × String)) : String :=
  name ++ " \x7b " ++ String.intercalate ", " (fields.map fieldText) ++ " \x7d"

end BoundValues.Text
