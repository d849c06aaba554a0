import BoundValues.Part.Signal

namespace BoundValues

/-- A request to a switchboard. A slot is connected with its acts: the requests that it makes when it
runs, each with how often it may be made. -/
inductive SwitchRequest (α : Type)
  | connect (name : String) (acts : List (SwitchRequest α × Nat))
  /-- Connects a slot that stays as long as its guard, which is kept under the same name. -/
  | connectGuarded (name : String) (acts : List (SwitchRequest α × Nat))
  | dropGuard (name : String)
  | disconnect (name : String)
  | disconnectAll
  | emit (payload : α)
  | block (blocked : Bool)
  | count
  | describe
  | close

instance {α : Type} : Inhabited (SwitchRequest α) := ⟨.count⟩

inductive SwitchReply
  | nothing
  | flag (b : Bool)
  | number (n : Nat)
  | text (s : String)
  /-- The signal was dropped before. -/
  | gone
deriving DecidableEq, Repr

inductive SwitchEvent (α : Type)
  /-- An emission, given by its number, ran a slot. -/
  | ran (emission : Nat) (slot : String) (payload : α)
  | acted (slot : String) (request : SwitchRequest α) (reply : SwitchReply)

/-- A slot: its name, and the place of its acts among the scripts. -/
structure Contact where
  name : String
  script : Nat
deriving DecidableEq, Repr

/-- A signal whose slots make requests to the signal itself when they run, with their acts and a log
of what happened. -/
structure Switchboard (α : Type) where
  /-- The signal, until it is dropped. -/
  signal : Option (Signal Contact) := some {}
  /-- The acts of each slot, with how often each may still be carried out. -/
  scripts : List (List (SwitchRequest α × Nat)) := []
  connections : List (String × Ticket) := []
  guards : List (String × Guard) := []
  emissions : Nat := 0
  log : List (SwitchEvent α) := []

namespace Switchboard

variable {α : Type}

def record (b : Switchboard α) (e : SwitchEvent α) : Switchboard α := { b with log := b.log ++ [e] }

def clearLog (b : Switchboard α) : Switchboard α := { b with log := [] }

/-- Takes over a signal with a new connection under a name. -/
def plug (b : Switchboard α) (s : Signal Contact) (id : Ticket) (name : String)
    (acts : List (SwitchRequest α × Nat)) : Switchboard α :=
  { b with
    signal := some s, scripts := b.scripts ++ [acts], connections := (name, id) :: b.connections }

/-- Drops the guard kept under a name; tells whether there was one. -/
def dropGuard (b : Switchboard α) (name : String) : Switchboard α × Bool :=
  match b.guards.lookup name with
  | none => (b, false)
  | some guard =>
    ({ b with
        signal := guard.drop b.signal, guards := b.guards.filter fun g => g.1 != name }, true)

/-- Keeps a guard under a name. A guard kept there before is dropped. -/
def keepGuard (b : Switchboard α) (name : String) (guard : Guard) : Switchboard α :=
  let dropped := (b.dropGuard name).1
  { dropped with guards := (name, guard) :: dropped.guards }

def actCount (b : Switchboard α) (script : Nat) : Nat := (b.scripts.getD script []).length

/-- Takes one act of a script for carrying out, unless it is used up. -/
def takeAct (b : Switchboard α) (script i : Nat) : Option (SwitchRequest α × Switchboard α) :=
  match b.scripts[script]? with
  | none => none
  | some acts => match acts[i]? with
    | some (r, left + 1) =>
      some (r, { b with scripts := b.scripts.set script (acts.set i (r, left)) })
    | _ => none

end Switchboard

end BoundValues
