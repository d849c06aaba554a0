import BoundValues.Container.Basic
import BoundValues.Datum.Bindable

namespace BoundValues.Recipe

def ofDatum (type : DataType) (initial : Datum) (preset : Preset Datum) : Recipe Datum :=
  readyMade .plain type.bindable initial initial preset

def toggle (initial : Bool) (label tooltip : String) : Recipe Datum :=
  { ofDatum .flag (.flag initial) (.ofKind .checkbox) with
    settings := [.name label, .tooltip tooltip] }

def float (initial : Datum) : Recipe Datum := ofDatum .single initial .plain

def slider (low high initial : Datum) : Recipe Datum := ofDatum .single initial (.slider low high)

/-- A choice among options, by index. -/
def combo (options : List String) (initial : Int) : Recipe Datum :=
  ofDatum (.integer .i32) (.int initial) (.combo options)

end BoundValues.Recipe
