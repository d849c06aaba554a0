import BoundValues.Datum.Basic
import BoundValues.Datum.Listing
import BoundValues.Template.Render

namespace BoundValues

/-- A bindable type. A `custom` type has integers for values and no conversion to or from text. -/
inductive DataType
  | flag
  | integer (type : IntegerType)
  | single
  | double
  | text
  | custom (name : String)
  | array (element : DataType) (size : Nat)
deriving DecidableEq, Repr

namespace DataType

def name : DataType → String
  | flag => "bool"
  | integer t => t.name
  | single => "f32"
  | double => "f64"
  | text => "alloc::string::String"
  | custom name => name
  | array element size => "[" ++ element.name ++ "; " ++ String.ofList (Text.natText size) ++ "]"

def default : DataType → Datum
  | flag => .flag false
  | integer _ | custom _ => .int 0
  | single => .single 0
  | double => .double 0
  | text => .text ""
  | array element size => .array (List.replicate size element.default)

def floatTemplate (places : List Char) : List Char := "%.".toList ++ places ++ ['f']

/-- What types without a text are rendered as. -/
def unsupported : List Char := "<unsupported type>".toList

/-- The text of a value, through a template when there is one. An array's elements are rendered one
by one. -/
def render : DataType → Option (List Char) → Datum → List Char
  | flag, some template, .flag b => Template.format template (.flag b)
  | flag, none, .flag b => (if b then "true" else "false").toList
  | integer _, some template, .int i => Template.format template (.int i)
  | integer _, none, .int i => Text.intText i
  | single, template, .single bits =>
    Template.format (template.getD (floatTemplate ['3']))
      (.float (Decimal.double.convert Decimal.single bits))
  | double, template, .double bits =>
    Template.format (template.getD (floatTemplate ['6'])) (.float bits)
  | text, some template, .text s => Template.format template (.text s.toList)
  | text, none, .text s => s.toList
  | array element _, template, .array elements =>
    Listing.render (elements.map (element.render template))
  | _, _, _ => unsupported

def readFlag (cs : List Char) : Option Bool :=
  let word := String.ofList ((Text.trim cs).map Char.toLower)
  if word ∈ ["true", "1", "yes", "on"] then some true
  else if word ∈ ["false", "0", "no", "off"] then some false
  else none

def read : DataType → List Char → Option Datum
  | flag, cs => (readFlag cs).map .flag
  | integer t, cs => (t.read (Text.trim cs)).map .int
  | single, cs => (Decimal.read Decimal.single (Text.trim cs)).map .single
  | double, cs => (Decimal.read Decimal.double (Text.trim cs)).map .double
  | text, cs => some (.text (String.ofList cs))
  | custom _, _ => none
  | array element size, cs => (Listing.read element.read size cs).map .array

/-- Adds two values: integers wrap around, texts are joined, flags are combined by exclusive or, and
arrays are added element by element. -/
def add : DataType → Datum → Datum → Datum
  | flag, .flag a, .flag b => .flag (a != b)
  | integer t, .int a, .int b => .int (t.wrap (a + b))
  | custom _, .int a, .int b => .int (IntegerType.i64.wrap (a + b))
  | single, .single a, .single b => .single (Decimal.single.add a b)
  | double, .double a, .double b => .double (Decimal.double.add a b)
  | text, .text a, .text b => .text (a ++ b)
  | array element _, .array as, .array bs => .array (List.zipWith element.add as bs)
  | _, a, _ => a

end DataType

end BoundValues
