import BoundValues.Kind.Config
import BoundValues.Kind.Full
import BoundValues.Kind.Monitored
import BoundValues.Kind.Plain
import BoundValues.Member.Kind

namespace BoundValues

inductive Body (α : Type)
  | plain (p : Plain α)
  | monitored (m : Monitored α)
  | captioned (m : Monitored α) (caption : Caption)
  | config (c : Config α)
  | full (f : Full α)

namespace Body

variable {α : Type}

/-- A value of a kind that starts from an initial value, which is also its default. -/
def new (kind : Kind) (initial : α) : Body α :=
  let cell : Cell α := ⟨initial, false, "", "", .editable⟩
  match kind with
  | .plain => plain ⟨cell⟩
  | .monitored => monitored { cell }
  | .captioned => captioned { cell } { shown := true }
  | .config => config (Config.new initial)
  | .full => full (Full.new initial)

def kind : Body α → Kind
  | plain _ => .plain
  | monitored _ => .monitored
  | captioned .. => .captioned
  | config _ => .config
  | full _ => .full

def cell : Body α → Cell α
  | plain p => p.cell
  | monitored m | captioned m _ => m.cell
  | config c => c.cell
  | full f => f.cell

def mapCell (g : Cell α → Cell α) : Body α → Body α
  | plain p => plain { p with cell := g p.cell }
  | monitored m => monitored { m with cell := g m.cell }
  | captioned m caption => captioned { m with cell := g m.cell } caption
  | config c => config { c with cell := g c.cell }
  | full f => full { f with cell := g f.cell }

def value (b : Body α) : α := b.cell.value

def isChanged : Body α → Bool
  | config c => c.isChanged
  | full f => f.isChanged
  | b => b.cell.changed

def clearChanged : Body α → Body α
  | config c => config c.clearChanged
  | full f => full f.clearChanged
  | b => b.mapCell Cell.clearChanged

def source? : Body α → Option Source
  | plain _ => none
  | monitored m | captioned m _ => some m.source
  | config c => some c.source
  | full f => some f.source

def link : Body α → Link
  | monitored m | captioned m _ => m.link
  | full f => f.link
  | _ => {}

def mapLink (g : Link → Link) : Body α → Body α
  | monitored m => monitored { m with link := g m.link }
  | captioned m caption => captioned { m with link := g m.link } caption
  | full f => full { f with link := g f.link }
  | b => b

/-- The change listeners; kinds without them have none. -/
def listeners : Body α → Signal Listener
  | monitored m | captioned m _ => m.listeners
  | full f => f.listeners
  | _ => {}

def mapListeners (g : Signal Listener → Signal Listener) : Body α → Body α
  | monitored m => monitored { m with listeners := g m.listeners }
  | captioned m caption => captioned { m with listeners := g m.listeners } caption
  | full f => full { f with listeners := g f.listeners }
  | b => b

/-- Whether handles can be taken: the kinds that may be written from elsewhere. -/
def shared : Body α → Bool
  | monitored _ | captioned .. | full _ => true
  | plain _ | config _ => false

def hooks : Body α → Hooks
  | full f => f.hooks
  | _ => {}

/-- The visibility; kinds without one are always visible and never advanced. -/
def visibility : Body α → Visibility
  | config c => c.visibility
  | full f => f.visibility
  | _ => {}

def mapVisibility (g : Visibility → Visibility) : Body α → Body α
  | config c => config { c with visibility := g c.visibility }
  | full f => full { f with visibility := g f.visibility }
  | b => b

def caption : Body α → Caption
  | captioned _ caption => caption
  | full f => f.caption
  | _ => {}

def mapCaption (g : Caption → Caption) : Body α → Body α
  | captioned m caption => captioned m (g caption)
  | full f => full { f with caption := g f.caption }
  | b => b

/-- The staged edit; kinds that commit at once have none. -/
def staging : Body α → Staging α
  | config c => c.staging
  | full f => f.staging
  | _ => {}

/-- The validation; kinds without one accept everything. -/
def validation : Body α → Validation α
  | config c => c.validation
  | full f => f.validation
  | _ => {}

def setValidator (rule : Validator α) : Body α → Body α
  | config c => config { c with validation := c.validation.setValidator rule }
  | full f => full { f with validation := f.validation.setValidator rule }
  | b => b

def fallback? : Body α → Option α
  | config c => some c.fallback
  | full f => some f.fallback
  | _ => none

def setFallback (v : α) : Body α → Body α
  | config c => config { c with fallback := v }
  | full f => full { f with fallback := v }
  | b => b

def immediate : Body α → Bool
  | config c => c.immediate
  | full f => f.immediate
  | _ => false

/-- Sets whether accepted edits are applied at once, in the kinds that stage edits. -/
def setImmediate (immediate : Bool) : Body α → Body α
  | config c => config { c with immediate }
  | full f => full { f with immediate }
  | b => b

/-- The history; only full values have one. -/
def history : Body α → History α
  | full f => f.history
  | _ => {}

def setCapacity (n : Nat) : Body α → Body α
  | full f => full (f.setCapacity n)
  | b => b

def revert : Body α → Body α
  | config c => config c.revert
  | full f => full f.revert
  | b => b

def effective (b : Body α) : α := b.staging.effective b.value

section Kinds

variable (b : Body α)

/-- A body is of the kind that it was made as. -/
@[simp] theorem kind_new (kind : Kind) (initial : α) : (new kind initial).kind = kind := by
  cases kind <;> rfl

@[simp] theorem kind_mapCell (g : Cell α → Cell α) : (b.mapCell g).kind = b.kind := by
  cases b <;> rfl

@[simp] theorem kind_clearChanged : b.clearChanged.kind = b.kind := by cases b <;> rfl

@[simp] theorem kind_mapLink (g : Link → Link) : (b.mapLink g).kind = b.kind := by cases b <;> rfl

@[simp] theorem kind_mapListeners (g : Signal Listener → Signal Listener) :
    (b.mapListeners g).kind = b.kind := by cases b <;> rfl

@[simp] theorem kind_mapVisibility (g : Visibility → Visibility) :
    (b.mapVisibility g).kind = b.kind := by cases b <;> rfl

@[simp] theorem kind_mapCaption (g : Caption → Caption) : (b.mapCaption g).kind = b.kind := by
  cases b <;> rfl

@[simp] theorem kind_setValidator (rule : Validator α) : (b.setValidator rule).kind = b.kind := by
  cases b <;> rfl

@[simp] theorem kind_setFallback (v : α) : (b.setFallback v).kind = b.kind := by cases b <;> rfl

@[simp] theorem kind_setImmediate (on : Bool) : (b.setImmediate on).kind = b.kind := by
  cases b <;> rfl

@[simp] theorem kind_setCapacity (n : Nat) : (b.setCapacity n).kind = b.kind := by cases b <;> rfl

@[simp] theorem kind_revert : b.revert.kind = b.kind := by cases b <;> rfl

end Kinds

section Parts

variable (b : Body α) (g : Cell α → Cell α) (l : Link → Link) (s : Signal Listener → Signal Listener)

@[simp] theorem value_mapCell : (b.mapCell g).value = (g b.cell).value := by cases b <;> rfl

@[simp] theorem shared_mapCell : (b.mapCell g).shared = b.shared := by cases b <;> rfl

@[simp] theorem link_mapCell : (b.mapCell g).link = b.link := by cases b <;> rfl

@[simp] theorem listeners_mapCell : (b.mapCell g).listeners = b.listeners := by cases b <;> rfl

@[simp] theorem value_clearChanged : b.clearChanged.value = b.value := by cases b <;> rfl

@[simp] theorem shared_clearChanged : b.clearChanged.shared = b.shared := by cases b <;> rfl

@[simp] theorem link_clearChanged : b.clearChanged.link = b.link := by cases b <;> rfl

@[simp] theorem listeners_clearChanged : b.clearChanged.listeners = b.listeners := by
  cases b <;> rfl

@[simp] theorem value_mapLink : (b.mapLink l).value = b.value := by cases b <;> rfl

@[simp] theorem shared_mapLink : (b.mapLink l).shared = b.shared := by cases b <;> rfl

@[simp] theorem listeners_mapLink : (b.mapLink l).listeners = b.listeners := by cases b <;> rfl

/-- The kinds that are linked are those that handles can be taken from. -/
theorem link_mapLink {b : Body α} (h : b.shared = true) : (b.mapLink l).link = l b.link := by
  cases b <;> first | rfl | cases h

@[simp] theorem value_mapListeners : (b.mapListeners s).value = b.value := by cases b <;> rfl

@[simp] theorem shared_mapListeners : (b.mapListeners s).shared = b.shared := by cases b <;> rfl

@[simp] theorem link_mapListeners : (b.mapListeners s).link = b.link := by cases b <;> rfl

theorem listeners_mapListeners {b : Body α} (h : b.shared = true) :
    (b.mapListeners s).listeners = s b.listeners := by
  cases b <;> first | rfl | cases h

/-- Only the kinds that may be written from elsewhere are linked. -/
theorem shared_of_linked {b : Body α} (h : b.link.linked = true) : b.shared = true := by
  cases b <;> first | rfl | cases h

end Parts

variable [BEq α]

/-- Whether a staged value differs from the committed one. -/
def hasPending (b : Body α) : Bool := b.staging.hasChanges b.value

/-- Commits the staged value when it differs; nothing happens in kinds that commit at once. -/
def apply : Body α → Step (Body α) α Bool
  | config c => c.apply.map config id
  | full f => f.apply.map full id
  | b => { state := b, reply := false }

def commitPulled (v : α) : Body α → Step (Body α) α Bool
  | monitored m => (m.commitPulled v).map monitored id
  | captioned m caption => (m.commitPulled v).map (captioned · caption) id
  | full f => (f.commitPulled v).map full id
  | b => { state := b, reply := false }

/-- A write through a handle; a refusal counts as no change. -/
def setShared (v : α) : Body α → Step (Body α) α Bool
  | monitored m => (m.set v).map monitored id
  | captioned m caption => (m.set v).map (captioned · caption) id
  | full f => (f.set v).map full fun r => r.toOption.getD false
  | b => { state := b, reply := false }

/-- Takes what a widget did. The widget was shown `before`; an edit of a shared kind goes by the
mode and the immediate flag that held then. -/
def edit (before : Body α) (r : Response) (v : α) : Body α → Step (Body α) α Bool
  | plain p => (p.edit r v).map plain id
  | monitored m => (m.edit before.cell.mode r v).map monitored id
  | captioned m caption => (m.edit before.cell.mode r v).map (captioned · caption) id
  | config c => (c.edit r v).map config id
  | full f => (f.edit before.cell.mode before.immediate r v).map full id

end Body

end BoundValues
