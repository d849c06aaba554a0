import BoundValues.Part.Step

namespace BoundValues

structure Plain (α : Type) where
  cell : Cell α

namespace Plain

variable {α : Type} [BEq α]

def set (p : Plain α) (v : α) : Step (Plain α) α Bool :=
  let cell := p.cell.assign v
  { state := { p with cell }, reply := cell.changed }

def edit (p : Plain α) (r : Response) (v : α) : Step (Plain α) α Bool :=
  if r.changed && p.cell.editable then p.set v else { state := p, reply := false }

end Plain

end BoundValues
