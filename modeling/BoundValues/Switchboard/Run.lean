import BoundValues.Switchboard.Basic

namespace BoundValues.Switchboard

variable {α : Type}

/-- How the acts of a slot are run. -/
abbrev Runner (α : Type) := Contact → Switchboard α → Switchboard α

/-- Runs the slots that are connected now; tells how many there were. -/
def emit (run : Runner α) (s : Signal Contact) (payload : α) (b : Switchboard α) :
    Switchboard α × Nat :=
  if s.blocked then (b, 0)
  else
    let number := b.emissions
    s.emit (fun c b => run c (b.record (.ran number c.name payload)))
      { b with emissions := number + 1 }

def execOpen (run : Runner α) (s : Signal Contact) (r : SwitchRequest α) (b : Switchboard α) :
    Switchboard α × SwitchReply :=
  match r with
  | .connect name acts =>
    let (s, id) := s.connect ⟨name, b.scripts.length⟩
    (b.plug s id name acts, .nothing)
  | .connectGuarded name acts =>
    let (s, guard) := s.connectGuarded ⟨name, b.scripts.length⟩
    ((b.plug s guard.id name acts).keepGuard name guard, .nothing)
  | .disconnect name =>
    match b.connections.lookup name with
    | none => (b, .flag false)
    | some id =>
      let (s, found) := s.disconnect id
      ({ b with signal := some s }, .flag found)
  | .disconnectAll => ({ b with signal := some s.disconnectAll }, .nothing)
  | .emit payload => let (b, n) := b.emit run s payload; (b, .number n)
  | .block blocked => ({ b with signal := some (s.setBlocked blocked) }, .nothing)
  | .count => (b, .number s.count)
  | .describe => (b, .text s.describe)
  | .dropGuard _ | .close => (b, .gone)

/-- Carries out a request. Guards can be dropped even when the signal is gone. -/
def exec (run : Runner α) (r : SwitchRequest α) (b : Switchboard α) : Switchboard α × SwitchReply :=
  match r with
  | .dropGuard name => let (b, found) := b.dropGuard name; (b, .flag found)
  | .close => ({ b with signal := none }, .flag b.signal.isSome)
  | r => match b.signal with
    | some s => b.execOpen run s r
    | none => (b, .gone)

def perform (run : Runner α) (c : Contact) (i : Nat) (b : Switchboard α) : Switchboard α :=
  match b.takeAct c.script i with
  | none => b
  | some (r, b) =>
    let (b, reply) := b.exec run r
    b.record (.acted c.name r reply)

/-- Runs the acts of a slot in order. What they set off may run slots again, nested up to a depth;
nothing happens beyond it. -/
def react : Nat → Runner α
  | 0, _, b => b
  | depth + 1, c, b => (List.range (b.actCount c.script)).foldl (fun b i => b.perform (react depth) c i) b

/-- How deep reactions may be nested. Acts are used up long before. -/
def nesting : Nat := 10000

end BoundValues.Switchboard
