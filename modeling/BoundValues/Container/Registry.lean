import BoundValues.Member.Kind

namespace BoundValues

/-- What is registered under an id: a key in the world, and the concrete type of the member that was
added there. -/
structure Entry where
  id : String
  key : Nat
  concrete : Concrete
deriving DecidableEq, Repr

/-- Entries in slots, the slots in drawing order, and the slot of each id. Slots are never used
twice: a new id takes one more at the end, and an id that is taken keeps its own. -/
structure Registry where
  slots : List (Option Entry) := []
  order : List Nat := []
  index : List (String × Nat) := []
deriving DecidableEq, Repr

namespace Registry

def slot? (r : Registry) (slot : Nat) : Option Entry := (r.slots[slot]?).join

def find? (r : Registry) (id : String) : Option Entry := (r.index.lookup id).bind r.slot?

def contains (r : Registry) (id : String) : Bool := (r.index.lookup id).isSome

/-- The entries in drawing order. A slot without an entry is passed over. -/
def entries (r : Registry) : List Entry := r.order.filterMap r.slot?

def size (r : Registry) : Nat := r.order.length

def insert (e : Entry) (r : Registry) : Registry :=
  match r.index.lookup e.id with
  | some slot => { r with slots := r.slots.set slot (some e) }
  | none =>
    { slots := r.slots ++ [some e], order := r.order ++ [r.slots.length]
      index := (e.id, r.slots.length) :: r.index }

/-- Removes the entry under an id; tells whether the id was taken. -/
def remove (id : String) (r : Registry) : Registry × Bool :=
  match r.index.lookup id with
  | none => (r, false)
  | some slot =>
    ({ slots := r.slots.set slot none, order := r.order.filter fun s => s != slot
       index := r.index.filter fun p => p.1 != id }, true)

def clear (r : Registry) : Registry := { slots := r.slots.map fun _ => none }

end Registry

end BoundValues
