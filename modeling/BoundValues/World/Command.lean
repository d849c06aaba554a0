import BoundValues.Member.Call

namespace BoundValues

mutual

inductive Command (α : Type)
  | name
  | tooltip
  | mode
  | isChanged
  | typeName
  | setName (name : String)
  | setTooltip (tooltip : String)
  | setMode (mode : EditMode)
  | clearChanged
  | draw (label : String)
  | capabilities
  | present
  | has (cs : List Capability)
  | hints
  | snapshot
  | outside
  | setOutside (v : α)
  | setWidget (w : Widget α)
  | call (c : Call)
  | edit (e : Edit α)
  | get
  | source
  /-- Pulls a monitored value from outside; full values are pulled through their capability. -/
  | refresh
  | listen (name : String) (form : ListenerForm) (acts : List (Act α))
  | unlisten (name : String)
  | unlistenAll
  | bindGetter (acts : List (Act α))
  | bindSetter (acts : List (Act α))
  | takeHandle (name : String)
  | setThroughHandle (v : α)
  | pullThroughHandle

inductive Act (α : Type)
  /-- A command to the member that the script belongs to, carried out at most so many times. -/
  | command (times : Nat) (c : Command α)
  /-- A write through a named handle, every time. -/
  | poke (p : Poke α)

end

instance {α : Type} : Inhabited (Command α) := ⟨.name⟩

/-- How often an act may be carried out; nothing for an act without a limit. -/
def Act.times {α : Type} : Act α → Option Nat
  | .command times _ => some times
  | .poke _ => none

/-- Something that happened, as seen by what is attached to the members. -/
inductive Event (α : Type)
  | validated (key : Nat) (candidate : α)
  | read (key : Nat) (v : α)
  | pushed (key : Nat) (v : α)
  | committed (key : Nat) (change : Change α)
  | notified (key : Nat) (listener : String) (form : ListenerForm) (change : Change α)
  | drew (key : Nat) (picture : Picture α)
  | poked (handle : String) (reply : Reply α)
  | acted (who : String) (command : Command α) (reply : Reply α)
  | hooked (key : Nat) (occurrence : Occurrence) (hook : String)
  | valueChanged (listener id : String)
  | memberChanged (listener : String)
  | applied (listener : String)

end BoundValues
