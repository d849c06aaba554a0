import BoundValues.Container.Pass
import BoundValues.World.Handle

namespace BoundValues

inductive Occasion
  | valueChanged | applied
deriving DecidableEq, Repr

inductive Action (α : Type)
  | add (id : String) (r : Recipe α)
  | remove (id : String)
  | clear
  | drawAll
  | applyAll
  | revertAll
  | pullAll
  | pushAll
  | setOptions (o : Container.Options)
  /-- Connects a listener, for all members or only for one. -/
  | watch (occasion : Occasion) (name : String) (only : Option String)
  | unwatch (occasion : Occasion) (name : String)
  | block (occasion : Occasion) (blocked : Bool)
  | command (id : String) (c : Command α)
  | handle (name : String) (r : HandleRequest α)

namespace Container

variable {α : Type}

def signal (c : Container α) : Occasion → Signal Watcher
  | .valueChanged => c.valueChanged
  | .applied => c.applied

def setSignal (c : Container α) (s : Signal Watcher) : Occasion → Container α
  | .valueChanged => { c with valueChanged := s }
  | .applied => { c with applied := s }

def connections (c : Container α) : Occasion → List (String × Ticket)
  | .valueChanged => c.changeConnections
  | .applied => c.appliedConnections

def noteConnection (c : Container α) (name : String) (id : Ticket) : Occasion → Container α
  | .valueChanged => { c with changeConnections := (name, id) :: c.changeConnections }
  | .applied => { c with appliedConnections := (name, id) :: c.appliedConnections }

def watch (occasion : Occasion) (watcher : Watcher) (c : Container α) : Container α :=
  let (s, id) := (c.signal occasion).connect watcher
  (c.setSignal s occasion).noteConnection watcher.name id occasion

/-- Removes the listener connected last under a name; tells whether it was there. -/
def unwatch (occasion : Occasion) (name : String) (c : Container α) : Container α × Bool :=
  match (c.connections occasion).lookup name with
  | none => (c, false)
  | some id =>
    let (s, found) := (c.signal occasion).disconnect id
    (c.setSignal s occasion, found)

variable [BEq α]

def command (run : World.Runner α) (id : String) (cmd : Command α) (c : Container α) :
    Container α × Reply α :=
  match c.key? id with
  | none => (c, .missing)
  | some key =>
    let (world, reply) := c.world.exec run key cmd
    ({ c with world }, reply)

def perform (run : World.Runner α) (a : Action α) (c : Container α) : Container α × Reply α :=
  match a with
  | .add id r => (c.add run id r, .nothing)
  | .remove id => let (c, b) := c.remove id; (c, .flag b)
  | .clear => (c.clear, .nothing)
  | .drawAll => let (c, ids) := c.drawAll run; (c, .texts ids)
  | .applyAll => let (c, n) := c.applyAll run; (c, .number n)
  | .revertAll => (c.revertAll, .nothing)
  | .pullAll => let (c, n) := c.pullAll run; (c, .number n)
  | .pushAll => let (c, n) := c.pushAll run; (c, .number n)
  | .setOptions o => ({ c with options := o }, .nothing)
  | .watch occasion name only => (c.watch occasion { name, only }, .nothing)
  | .unwatch occasion name => let (c, b) := c.unwatch occasion name; (c, .flag b)
  | .block occasion b => (c.setSignal ((c.signal occasion).setBlocked b) occasion, .nothing)
  | .command id cmd => c.command run id cmd
  | .handle name r =>
    let (world, reply) := c.world.execHandle run name r
    ({ c with world }, reply)

end Container

end BoundValues
