import BoundValues.Member.Reply

namespace BoundValues

/-- One step of setting a member up. A kind passes over the settings that it has no use for, so one
chain fits all kinds. -/
inductive Setting (α : Type)
  | name (name : String)
  | tooltip (tooltip : String)
  | mode (mode : EditMode)
  | validator (rule : Validator α)
  | default (v : α)
  | template (template : String)
  | shown (b : Bool)
  | advanced
  | group (name : String)
  | immediate (b : Bool)
  | capacity (n : Nat)
  | kind (kind : WidgetKind)
  | range (low high : α)
  | speed (bits : Nat)
  | options (options : List String)
  | widget (w : Widget α)
  /-- A listener that is only told that something changed. -/
  | onChange (listener : String)

namespace Setting

variable {α : Type}

def mapHints (g : Hints α → Hints α) (m : Member α) : Member α := { m with hints := g m.hints }

def mapBody (g : Body α → Body α) (m : Member α) : Member α := { m with body := g m.body }

def configure : Setting α → Member α → Member α
  | name s => mapBody (Body.mapCell fun c => { c with name := s })
  | tooltip s => mapBody (Body.mapCell fun c => { c with tooltip := s })
  | mode e => mapBody (Body.mapCell fun c => { c with mode := e })
  | validator rule => mapBody (Body.setValidator rule)
  | default v => mapBody (Body.setFallback v)
  | template s => mapBody (Body.mapCaption (·.setTemplate s))
  | shown b => mapBody (Body.mapCaption fun c => { c with shown := b })
  | advanced => mapBody (Body.mapVisibility fun v => { v with advanced := true })
  | group s => mapBody (Body.mapVisibility fun v => { v with group := s })
  | immediate b => mapBody (Body.setImmediate b)
  | capacity n => mapBody (Body.setCapacity n)
  | kind k => mapHints fun h => { h with kind := k }
  | range low high => mapHints fun h => { h with range := some (low, high) }
  | speed bits => mapHints fun h => { h with speed := some bits }
  | options ss => mapHints fun h => { h with options := ss }
  | widget w => fun m => { m with widget := some w, drawn := 0 }
  | onChange listener =>
    mapBody (Body.mapListeners fun s => (s.connect ⟨listener, .built, none⟩).1)

def configureAll (settings : List (Setting α)) (m : Member α) : Member α :=
  settings.foldl (fun m s => s.configure m) m

/-- Settings never change what a member is. -/
theorem configure_concrete (s : Setting α) (m : Member α) :
    (s.configure m).concrete = m.concrete := by
  cases s <;> simp [configure, mapBody, mapHints, Member.concrete]

/-- Nor does a chain of them. -/
theorem configureAll_concrete (settings : List (Setting α)) (m : Member α) :
    (configureAll settings m).concrete = m.concrete := by
  induction settings generalizing m with
  | nil => rfl
  | cons s settings ih => exact (ih (s.configure m)).trans (configure_concrete s m)

end Setting

end BoundValues
