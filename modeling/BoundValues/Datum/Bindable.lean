import BoundValues.Datum.DataType
import BoundValues.Part.Display

namespace BoundValues

/-- What a type of data brings along when its values are bound. -/
def DataType.bindable (t : DataType) : ValueType Datum where
  name := t.name
  render template v := String.ofList (t.render (template.map String.toList) v)
  read text := t.read text.toList

end BoundValues
