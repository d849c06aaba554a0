import BoundValues.Control.Drawing
import BoundValues.Datum.DataType

namespace BoundValues

structure Frame where
  /-- Sets the value. -/
  set : Option Datum := none
  /-- Then adds to it. -/
  add : Option Datum := none
  /-- Then sets it to the upper end of the range, when there is one. -/
  toUpperEnd : Bool := false
  pokes : List (Poke Datum) := []
  response : Response := {}

namespace Frame

def edit (type : DataType) (f : Frame) (hints : Hints Datum) (v : Datum) : Datum :=
  let v := f.set.getD v
  let v := f.add.elim v (type.add v)
  if f.toUpperEnd then hints.range.elim v Prod.snd else v

def stroke (type : DataType) (f : Frame) (p : Picture Datum) : Stroke Datum :=
  ⟨f.edit type p.hints p.value, f.pokes, f.response⟩

def at? (frames : List Frame) (n : Nat) : Option Frame := frames[min n (frames.length - 1)]?

/-- The widget that some frames describe. Without any it leaves everything as it is. -/
def widget (type : DataType) (frames : List Frame) : Widget Datum := fun n picture =>
  ((at? frames n).getD {}).stroke type picture

end Frame

end BoundValues
