import BoundValues.Container.Basic

namespace BoundValues

namespace Container

variable {α : Type}

def hasPending [BEq α] (c : Container α) : Bool :=
  c.entries.any fun e => (c.world.member? e.key).any fun m => m.body.hasPending

def hasAdvanced (c : Container α) : Bool :=
  c.entries.any fun e => (c.world.member? e.key).any fun m => m.body.visibility.advanced

def revertAll (c : Container α) : Container α :=
  { c with world := c.entries.foldl (fun w e => w.mapBody e.key Body.revert) c.world }

def Watcher.event (watcher : Watcher) (id : String) : Event α :=
  match watcher.only with
  | some _ => .memberChanged watcher.name
  | none => .valueChanged watcher.name id

variable [BEq α]

/-- Tells a watcher that the member under an id changed, unless it watches another one. -/
def tell (run : World.Runner α) (id : String) (watcher : Watcher) (w : World α) : World α :=
  if watcher.only.all (· == id) then
    (w.record (Watcher.event watcher id)).runScript run watcher.script
  else w

def emitChanged (run : World.Runner α) (c : Container α) (id : String) (w : World α) : World α :=
  (c.valueChanged.emit (tell run id) w).1

def emitApplied (run : World.Runner α) (c : Container α) (w : World α) : World α :=
  (c.applied.emit (fun watcher w =>
    (w.record (.applied watcher.name)).runScript run watcher.script) w).1

/-- Does something with each member in turn; counts how often it succeeded. -/
def sweep (act : Nat → World α → World α × Bool) (es : List Entry) (w : World α) : World α × Nat :=
  es.foldl (fun (w, n) e =>
    let (w, done) := act e.key w
    (w, if done then n + 1 else n)) (w, 0)

def applyAll (run : World.Runner α) (c : Container α) : Container α × Nat :=
  let (w, n) := sweep (World.apply run) c.entries c.world
  ({ c with world := emitApplied run c w }, n)

def pullAll (run : World.Runner α) (c : Container α) : Container α × Nat :=
  let (world, n) := sweep (World.pull run) c.entries c.world
  ({ c with world }, n)

/-- Pushes every member; counts those with a setter. -/
def pushAll (run : World.Runner α) (c : Container α) : Container α × Nat :=
  let (world, n) := sweep (World.push run) c.entries c.world
  ({ c with world }, n)

/-- A drawing pass under way: the world, and the ids of the members that changed so far. -/
structure Drawn (α : Type) where
  world : World α
  changed : List String := []

/-- Makes a member ready to be drawn: it gets the global mode, and its change mark is cleared. -/
def prepare (mode : Option EditMode) (b : Body α) : Body α :=
  (mode.elim b fun mode => b.mapCell fun c => { c with mode }).clearChanged

/-- What a member is drawn under: its name, or its id when it has no name. -/
def drawLabel (e : Entry) (m : Member α) : String :=
  if m.body.cell.name.isEmpty then e.id else m.body.cell.name

/-- Draws one member that is shown. In immediate mode a reported change is applied and announced at
once. -/
def drawShown (run : World.Runner α) (c : Container α) (e : Entry) (m : Member α) (d : Drawn α) :
    Drawn α :=
  let prepared := d.world.mapBody e.key (prepare c.options.globalMode)
  let (w, reported) := prepared.draw run e.key (drawLabel e m)
  let w := if reported && c.options.immediate then emitChanged run c e.id (w.apply run e.key).1 else w
  { world := w
    changed :=
      if (w.member? e.key).any fun m => m.body.isChanged then d.changed ++ [e.id]
      else d.changed }

def drawEntry (run : World.Runner α) (c : Container α) (d : Drawn α) (e : Entry) : Drawn α :=
  match d.world.member? e.key with
  | some m => if m.body.visibility.shown c.options.showAdvanced then drawShown run c e m d else d
  | none => d

/-- Draws all members in order, and tells the ids of those that changed. Unless changes are announced
at once, they are announced when all members were drawn. -/
def drawAll (run : World.Runner α) (c : Container α) : Container α × List String :=
  if c.options.visible then
    let d := c.entries.foldl (drawEntry run c) { world := c.world }
    let world :=
      if c.options.immediate then d.world
      else d.changed.foldl (fun w id => emitChanged run c id w) d.world
    ({ c with world }, d.changed)
  else (c, [])

end Container

end BoundValues
