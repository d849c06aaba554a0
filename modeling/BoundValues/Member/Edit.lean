import BoundValues.Member.Reply

namespace BoundValues

inductive Edit (α : Type)
  /-- Commits a value, validated where the kind validates. -/
  | set (v : α)
  | trySet (v : α)
  | stage (v : α)
  | apply
  | revert
  | undo
  | redo
  | reset
  | load (text : String)
  | setCapacity (n : Nat)
  | setValidator (rule : Validator α)
  | setDefault (v : α)
  | assignCell (v : α)
  /-- Overwrites the bare cell's value, past its change flag. -/
  | overwriteCell (v : α)
  | cellChanged
  | nameCell (name : String)

namespace Edit

variable {α : Type} [BEq α]

/-- A step that only replaces the body. -/
def settled (b : Body α) : Step (Body α) α (Reply α) := { state := b, reply := .nothing }

def onCell (wrap : Cell α → Body α) (c : Cell α) : Edit α → Option (Step (Body α) α (Reply α))
  | assignCell v =>
    let c := c.assign v
    some { state := wrap c, reply := .flag c.changed }
  | overwriteCell v => some (settled (wrap (c.overwrite v)))
  | cellChanged => some { state := wrap c, reply := .flag c.changed }
  | nameCell name => some (settled (wrap { c with name }))
  | _ => none

def onMonitored (wrap : Monitored α → Body α) (m : Monitored α) :
    Edit α → Option (Step (Body α) α (Reply α))
  | set v => some ((m.set v).map wrap .flag)
  | _ => none

def onConfig (type : ValueType α) (c : Config α) : Edit α → Option (Step (Body α) α (Reply α))
  | trySet v => some ((c.trySet v).map .config .done)
  | stage v => some (settled (.config (c.stage v)))
  | apply => some (c.apply.map .config .flag)
  | revert => some (settled (.config c.revert))
  | reset => some (c.reset.map .config .flag)
  | load text => some ((c.load type text).map .config .done)
  | setValidator rule => some (settled (Body.setValidator rule (.config c)))
  | setDefault v => some (settled (Body.setFallback v (.config c)))
  | e => e.onCell (fun cell => .config { c with cell }) c.cell

def onFull (type : ValueType α) (f : Full α) : Edit α → Option (Step (Body α) α (Reply α))
  | set v => some ((f.set v).map .full (.outcome .flag))
  | stage v => some ((f.stage v).map .full .done)
  | apply => some (f.apply.map .full .flag)
  | revert => some (settled (.full f.revert))
  | undo => some ((f.step false).map .full .option)
  | redo => some ((f.step true).map .full .option)
  | reset => some (f.reset.map .full .flag)
  | load text => some ((f.load type text).map .full .done)
  | setCapacity n => some (settled (Body.setCapacity n (.full f)))
  | setValidator rule => some (settled (Body.setValidator rule (.full f)))
  | setDefault v => some (settled (Body.setFallback v (.full f)))
  | _ => none

/-- What an edit comes to; nothing when the kind does not know it. -/
def step (type : ValueType α) (e : Edit α) : Body α → Option (Step (Body α) α (Reply α))
  | .plain p => match e with
    | set v => some ((p.set v).map .plain .flag)
    | e => e.onCell (fun cell => .plain ⟨cell⟩) p.cell
  | .monitored m => e.onMonitored .monitored m
  | .captioned m caption => e.onMonitored (.captioned · caption) m
  | .config c => e.onConfig type c
  | .full f => e.onFull type f

end Edit

end BoundValues
