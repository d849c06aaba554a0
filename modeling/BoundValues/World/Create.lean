import BoundValues.Member.Preset
import BoundValues.Member.Setting
import BoundValues.World.Run

namespace BoundValues

/-- What a member is made from. -/
structure Recipe (α : Type) where
  kind : Kind
  type : ValueType α
  /-- The initial value, and the default of the kinds that have one. -/
  initial : α
  outside : α
  linked : Bool := false
  preset : Preset α := .plain
  settings : List (Setting α) := []

namespace Recipe

variable {α : Type}

/-- A ready-made member with a presentation. The monitored kinds come linked. -/
def readyMade (kind : Kind) (type : ValueType α) (initial outside : α) (preset : Preset α) :
    Recipe α :=
  { kind, type, initial, outside, preset, linked := kind = .monitored || kind = .captioned }

def concrete (r : Recipe α) : Concrete := ⟨r.kind, r.type.name⟩

/-- The member before it is linked and set up. -/
def base [BEq α] (r : Recipe α) : Member α :=
  { type := r.type, body := Body.new r.kind r.initial, hints := r.preset.hints }

/-- Whether the value is pulled when it is made: the monitored kinds are, when they are linked. -/
def pulls (r : Recipe α) : Bool := r.linked && r.kind != .full

def link (r : Recipe α) (key : Nat) : Link :=
  if r.linked then { getter := some ⟨key, none⟩, setter := some ⟨key, none⟩ } else {}

end Recipe

namespace World

variable {α : Type} [BEq α]

/-- Adds the member of a recipe, under the next key. It is pulled before it is set up. -/
def create (run : Runner α) (label : String) (r : Recipe α) (w : World α) : World α :=
  let key := w.nextKey
  let w := (w.add label r.base r.outside).mapBody key (Body.mapLink fun _ => r.link key)
  let w := if r.pulls then (w.pull run key).1 else w
  w.modify key (Setting.configureAll r.settings)

end World

end BoundValues
