import BoundValues.World.Basic

namespace BoundValues

namespace World

variable {α : Type} [BEq α]

/-- How the scripts of a world are run, by their numbers. -/
abbrev Runner (α : Type) := Nat → World α → World α

def runScript (run : Runner α) (script : Option Nat) (w : World α) : World α :=
  match script with
  | some s => run s w
  | none => w

def call (run : Runner α) (key : Nat) (change : Change α) (l : Listener) (w : World α) : World α :=
  (w.record (.notified key l.name l.form change)).runScript run l.script

/-- Tells the listeners of a member that its value was replaced by a different one. -/
def notify (run : Runner α) (key : Nat) (change : Change α) (w : World α) : World α :=
  match (w.member? key).bind fun m => change.audience m.body.listeners with
  | some listeners => listeners.foldl (fun w l => w.call run key change l) w
  | none => w

def announce (run : Runner α) (key : Nat) (change : Change α) (w : World α) : World α :=
  (w.record (.committed key change)).notify run key change

/-- Gives the committed value of a member to its setter; tells whether there is one. -/
def push (run : Runner α) (key : Nat) (w : World α) : World α × Bool :=
  match w.member? key with
  | none => (w, false)
  | some m => match m.body.link.setter with
    | none => (w, false)
    | some setter =>
      let pushed := (w.record (.pushed key m.body.value)).setVariable setter.external m.body.value
      (pushed.runScript run setter.script, true)

def noteCheck (key : Nat) (checked : Option α) (w : World α) : World α :=
  match checked with
  | some candidate => w.record (.validated key candidate)
  | none => w

omit [BEq α] in
@[simp] theorem member?_noteCheck (k : Nat) (checked : Option α) (w : World α) (key : Nat) :
    (w.noteCheck k checked).member? key = w.member? key := by
  cases checked <;> rfl

/-- Puts the outcome of a step into the world: a commit is announced, then pushed. -/
def settle {ρ : Type} (run : Runner α) (key : Nat) (s : Step (Body α) α ρ) (w : World α) :
    World α × ρ :=
  let w := (w.noteCheck key s.checked).mapBody key fun _ => s.state
  match s.change with
  | some change => (((w.announce run key change).push run key).1, s.reply)
  | none => (w, s.reply)

/-- Takes over a value that was read outside. It is announced but not pushed back. -/
def commitPulled (run : Runner α) (key : Nat) (v : α) (w : World α) : World α × Bool :=
  match w.member? key with
  | none => (w, false)
  | some m =>
    let s := m.body.commitPulled v
    let w := w.mapBody key fun _ => s.state
    match s.change with
    | some change => (w.announce run key change, s.reply)
    | none => (w, s.reply)

/-- Reads the outside variable of a member through its getter and takes the value over. Nothing is
read while an edit waits to be applied, nor taken over when one does after the reading. -/
def pull (run : Runner α) (key : Nat) (w : World α) : World α × Bool :=
  match w.member? key with
  | none => (w, false)
  | some m => match m.body.link.getter with
    | none => (w, false)
    | some getter =>
      if m.body.hasPending then (w, false)
      else match w.externals[getter.external]? with
        | none => (w, false)
        | some v =>
          ((w.record (.read key v)).runScript run getter.script).commitPulled run key v

def apply (run : Runner α) (key : Nat) (w : World α) : World α × Bool :=
  match w.member? key with
  | none => (w, false)
  | some m => w.settle run key m.body.apply

def setShared (run : Runner α) (key : Nat) (v : α) (w : World α) : World α × Outcome Bool :=
  match w.member? key with
  | none => (w, .error .valueDropped)
  | some m =>
    let (w, changed) := w.settle run key (m.body.setShared v)
    (w, .ok changed)

def pullShared (run : Runner α) (key : Nat) (w : World α) : World α × Outcome Bool :=
  if w.alive key then
    let (w, changed) := w.pull run key
    (w, .ok changed)
  else (w, .error .valueDropped)

/-- Writes through a named handle, and records what came of it. -/
def poke (run : Runner α) (p : Poke α) (w : World α) : World α :=
  let (w, reply) := match w.handleKey? p.handle with
    | none => (w, Reply.unknownHandle)
    | some key =>
      let (w, changed) := w.setShared run key p.value
      (w, Reply.outcome Reply.flag changed)
  w.record (.poked p.handle reply)

def runHooks (run : Runner α) (key : Nat) (hooks : Hooks) (r : Response) (w : World α) : World α :=
  (hooks.due r.hovered r.menu).foldl (fun w (occurrence, hook) =>
    (w.record (.hooked key occurrence hook.name)).runScript run hook.script) w

def finishDraw (run : Runner α) (key : Nat) (before : Body α) (s : Stroke α) (w : World α) :
    World α × Bool :=
  match w.member? key with
  | none => (w, false)
  | some m => w.settle run key (Body.edit before s.response s.value m.body)

def draw (run : Runner α) (key : Nat) (label : String) (w : World α) : World α × Bool :=
  match w.member? key with
  | none => (w, false)
  | some m => match m.widget with
    | none => (w, false)
    | some widget =>
      let picture := m.picture label
      let stroke := widget m.drawn picture
      let w := (w.record (.drew key picture)).modify key fun m => { m with drawn := m.drawn + 1 }
      let w := stroke.pokes.foldl (fun w p => w.poke run p) w
      let w := w.runHooks run key m.body.hooks stroke.response
      w.finishDraw run key m.body stroke

def callThrough (run : Runner α) (key : Nat) (m : Member α) (c : Call) (w : World α) :
    World α × Reply α :=
  if m.interface.answers c.capability then
    match c with
    | .pull => let (w, b) := w.pull run key; (w, .flag b)
    | .push => let (w, b) := w.push run key; (w, .flag b)
    | c => w.settle run key (c.step m)
  else (w, .absent)

def listen (key : Nat) (name : String) (form : ListenerForm) (acts : List (Act α)) (w : World α) :
    World α :=
  let (w, script) := w.arm key name acts
  w.modify key fun m => m.connect ⟨name, form, some script⟩

/-- Removes the listener connected last under a name; tells whether it was there. -/
def unlisten (key : Nat) (m : Member α) (name : String) (w : World α) : World α × Bool :=
  match m.connections.lookup name with
  | none => (w, false)
  | some id =>
    (w.mapBody key (Body.mapListeners fun s => (s.disconnect id).1),
      (m.body.listeners.disconnect id).2)

def execShared (run : Runner α) (key : Nat) (m : Member α) (c : Command α) (w : World α) :
    World α × Reply α :=
  match c with
  | .get => (w, .value m.body.value)
  | .source => (w, m.body.source?.elim .nothing .source)
  | .refresh =>
    if m.body.kind = .full then (w, .unsupported)
    else
      let (w, b) := w.pull run key
      (w, .flag b)
  | .listen name form acts => (w.listen key name form acts, .nothing)
  | .unlisten name => let (w, b) := w.unlisten key m name; (w, .flag b)
  | .unlistenAll => (w.mapBody key (Body.mapListeners Signal.disconnectAll), .nothing)
  | .bindGetter acts =>
    let (w, script) := w.arm key "getter" acts
    (w.mapBody key (Body.mapLink fun l => { l with getter := some ⟨key, some script⟩ }), .nothing)
  | .bindSetter acts =>
    let (w, script) := w.arm key "setter" acts
    (w.mapBody key (Body.mapLink fun l => { l with setter := some ⟨key, some script⟩ }), .nothing)
  | .takeHandle name => (w.setHandle name key, .nothing)
  | .setThroughHandle v =>
    let (w, r) := w.setShared run key v
    (w, .outcome .flag r)
  | .pullThroughHandle =>
    let (w, r) := w.pullShared run key
    (w, .outcome .flag r)
  | _ => (w, .unsupported)

def exec (run : Runner α) (key : Nat) (c : Command α) (w : World α) : World α × Reply α :=
  match w.member? key with
  | none => (w, .dropped)
  | some m =>
    match c with
    | .name => (w, .text m.body.cell.name)
    | .tooltip => (w, .text m.body.cell.tooltip)
    | .mode => (w, .mode m.body.cell.mode)
    | .isChanged => (w, .flag m.body.isChanged)
    | .typeName => (w, .text m.type.name)
    | .setName name => (w.mapBody key (Body.mapCell fun c => { c with name }), .nothing)
    | .setTooltip tooltip => (w.mapBody key (Body.mapCell fun c => { c with tooltip }), .nothing)
    | .setMode mode => (w.mapBody key (Body.mapCell fun c => { c with mode }), .nothing)
    | .clearChanged => (w.mapBody key Body.clearChanged, .nothing)
    | .draw label => let (w, b) := w.draw run key label; (w, .flag b)
    | .capabilities => (w, .texts m.interface.declared.flags)
    | .present => (w, .presence (Capability.all.map fun c => (c, m.interface.answers c)))
    | .has cs => (w, .flag (m.interface.declared.declaresAll cs))
    | .hints => (w, .hints m.hints)
    | .snapshot => (w, .snapshot m)
    | .outside => (w, .option w.externals[key]?)
    | .setOutside v => (w.setVariable key v, .nothing)
    | .setWidget widget =>
      (w.modify key fun m => { m with widget := some widget, drawn := 0 }, .nothing)
    | .call c => w.callThrough run key m c
    | .edit e => match e.step m.type m.body with
      | some s => w.settle run key s
      | none => (w, .unsupported)
    | c => if m.body.shared then w.execShared run key m c else (w, .unsupported)

def perform (run : Runner α) (script i : Nat) (w : World α) : World α :=
  match w.takeAct script i with
  | none => w
  | some (s, .command _ c, w) =>
    let (w, reply) := w.exec run s.owner c
    w.record (.acted s.who c reply)
  | some (_, .poke p, w) => w.poke run p

/-- Runs a script: its acts in order. What the acts set off may run scripts again, nested up to a
depth; nothing happens beyond it. -/
def react : Nat → Runner α
  | 0, _, w => w
  | depth + 1, script, w =>
    (List.range (w.actCount script)).foldl (fun w i => w.perform (react depth) script i) w

/-- How deep reactions may be nested. Only scripts without a limit come near it. -/
def nesting : Nat := 10000

end World

end BoundValues
