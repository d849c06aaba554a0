import BoundValues.World.Run

namespace BoundValues

inductive HandleRequest (α : Type)
  | get
  | set (v : α)
  | pull
  | source
  | alive
  | copy (name : String)
  | describe

def describeHandle (alive : Bool) : String :=
  Text.record "ValueHandle" [("alive", Text.flagText alive)]

namespace World

variable {α : Type} [BEq α]

def execHandle (run : Runner α) (name : String) (r : HandleRequest α) (w : World α) :
    World α × Reply α :=
  match w.handleKey? name with
  | none => (w, .unknownHandle)
  | some key =>
    match r with
    | .get => (w, .option ((w.member? key).map fun m => m.body.value))
    | .set v =>
      let (w, r) := w.setShared run key v
      (w, .outcome .flag r)
    | .pull =>
      let (w, r) := w.pullShared run key
      (w, .outcome .flag r)
    | .source =>
      let source := (w.member? key).bind fun m => m.body.source?
      (w, source.elim .nothing .source)
    | .alive => (w, .flag (w.alive key))
    | .copy other => (w.setHandle other key, .nothing)
    | .describe => (w, .text (describeHandle (w.alive key)))

end World

end BoundValues
