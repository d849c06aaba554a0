import BoundValues.Container.Registry
import BoundValues.World.Create

namespace BoundValues

structure Container.Options where
  name : String := ""
  /-- An invisible container draws nothing. -/
  visible : Bool := true
  /-- Whether a change is applied and reported as soon as its member was drawn. -/
  immediate : Bool := false
  showAdvanced : Bool := false
  /-- The mode that every member gets before it is drawn. -/
  globalMode : Option EditMode := none
deriving DecidableEq, Repr

/-- A listener of a container: its name, the one member it is told of when there is only one, and what
it does. -/
structure Watcher where
  name : String
  only : Option String := none
  script : Option Nat := none
deriving DecidableEq, Repr

/-- Members of any kinds and types under ids, in the order in which they are drawn, with the
listeners for changed members and for applied changes. -/
structure Container (α : Type) where
  world : World α := {}
  registry : Registry := {}
  options : Container.Options := {}
  valueChanged : Signal Watcher := {}
  applied : Signal Watcher := {}
  /-- The connection made last under each listener's name, among those for changed members. -/
  changeConnections : List (String × Ticket) := []
  /-- The connection made last under each listener's name, among those for applied changes. -/
  appliedConnections : List (String × Ticket) := []

namespace Container

variable {α : Type}

def entries (c : Container α) : List Entry := c.registry.entries

def ids (c : Container α) : List String := c.entries.map Entry.id

def size (c : Container α) : Nat := c.registry.size

def contains (c : Container α) (id : String) : Bool := c.registry.contains id

def key? (c : Container α) (id : String) : Option Nat := (c.registry.find? id).map Entry.key

def member? (c : Container α) (id : String) : Option (Member α) :=
  (c.key? id).bind c.world.member?

/-- The concrete type that the member under an id was added as. -/
def concrete? (c : Container α) (id : String) : Option Concrete :=
  (c.registry.find? id).map Entry.concrete

def cast? (c : Container α) (e : Entry) (type : Concrete) : Option (Member α) :=
  (c.world.member? e.key).filter fun m => m.concrete == type

def get? (c : Container α) (id : String) (type : Concrete) : Option (Member α) :=
  ((c.registry.find? id).filter fun e => e.concrete == type).bind fun e => c.cast? e type

/-- Access for changes to the member under an id: the member, and the container with another in its
place. -/
def getMut? (c : Container α) (id : String) (type : Concrete) :
    Option (Member α × (Member α → Container α)) :=
  ((c.registry.find? id).filter fun e => e.concrete == type).bind fun e =>
    (c.cast? e type).map fun m => (m, fun m' => { c with world := c.world.setMember e.key m' })

/-- The member under an id, or why there is none of a concrete type. -/
def tryGet (c : Container α) (id : String) (type : Concrete) : Outcome (Member α) :=
  match c.registry.find? id with
  | none => .error (.notFound id)
  | some e => match c.cast? e type with
    | some m => .ok m
    | none => .error (.typeMismatch id type.name e.concrete.name)

def query (c : Container α) (id : String) (capability : Capability) : Outcome Unit :=
  match c.member? id with
  | none => .error (.notFound id)
  | some m =>
    if m.interface.answers capability then .ok () else .error (.capabilityMissing id capability)

/-- Adds the member of a recipe under an id. A member that was there before is dropped. -/
def add [BEq α] (run : World.Runner α) (id : String) (r : Recipe α) (c : Container α) :
    Container α :=
  let world := c.world.create run id r
  { c with
    world := (c.key? id).elim world world.drop
    registry := c.registry.insert ⟨id, c.world.nextKey, r.concrete⟩ }

def remove (id : String) (c : Container α) : Container α × Bool :=
  let (registry, found) := c.registry.remove id
  ({ c with world := (c.key? id).elim c.world c.world.drop, registry }, found)

def clear (c : Container α) : Container α :=
  { c with
    world := (c.registry.slots.filterMap id).foldl (fun w e => w.drop e.key) c.world
    registry := c.registry.clear }

end Container

end BoundValues
