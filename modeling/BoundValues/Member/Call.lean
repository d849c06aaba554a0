import BoundValues.Member.Edit

namespace BoundValues

inductive Call
  | apply | revert | pending | dirty | present
  | pull | push | synced
  | validate | valid | error
  | canUndo | canRedo | undo | redo | clear | size
  | visible | setVisible (b : Bool) | advanced | setAdvanced (b : Bool)
  | group | setGroup (name : String)
  | valueText | setValueText (text : String)
  | shown | setShown (b : Bool) | template | setTemplate (template : String) | captionText
  | setTooltipHook (name : String) | setMenuHook (name : String) | hasTooltipHook | hasMenuHook
  | immediate | setImmediate (b : Bool)
deriving DecidableEq, Repr

namespace Call

def capability : Call → Capability
  | apply | revert | pending | dirty | present => .deferred
  | pull | push | synced => .external
  | validate | valid | error => .validation
  | canUndo | canRedo | undo | redo | clear | size => .history
  | visible | setVisible _ | advanced | setAdvanced _ | group | setGroup _ => .visibility
  | valueText | setValueText _ => .string
  | shown | setShown _ | template | setTemplate _ | captionText => .text
  | setTooltipHook _ | setMenuHook _ | hasTooltipHook | hasMenuHook => .callbacks
  | immediate | setImmediate _ => .immediate

variable {α : Type} [BEq α]

def succeeded : Reply α → Reply α
  | .accepted _ | .value _ => .flag true
  | .refused _ | .nothing => .flag false
  | r => r

def edit (m : Member α) (e : Edit α) (g : Reply α → Reply α) : Step (Body α) α (Reply α) :=
  match e.step m.type m.body with
  | some s => s.map id g
  | none => { state := m.body, reply := .unsupported }

def check : Body α → Step (Body α) α (Reply α)
  | .config c => c.check.map .config .flag
  | .full f => f.check.map .full .flag
  | b => { state := b, reply := .unsupported }

def clearHistory : Body α → Body α
  | .full f => .full f.clearHistory
  | b => b

def mapHooks (g : Hooks → Hooks) : Body α → Body α
  | .full f => .full { f with hooks := g f.hooks }
  | b => b

def step (m : Member α) (call : Call) : Step (Body α) α (Reply α) :=
  let b := m.body
  let tell (r : Reply α) : Step (Body α) α (Reply α) := { state := b, reply := r }
  let become (b : Body α) : Step (Body α) α (Reply α) := { state := b, reply := .nothing }
  match call with
  | apply => edit m .apply id
  | revert => edit m .revert id
  | pending => tell (.flag b.hasPending)
  | dirty => tell (.flag b.staging.dirty)
  | present => tell (.found true)
  | pull | push => tell .unsupported
  | synced => tell (.flag b.link.linked)
  | validate => check b
  | valid => tell (.flag b.validation.valid)
  | error => tell (.text b.validation.error)
  | canUndo => tell (.flag b.history.canUndo)
  | canRedo => tell (.flag b.history.canRedo)
  | undo => edit m .undo succeeded
  | redo => edit m .redo succeeded
  | clear => become (clearHistory b)
  | size => tell (.number b.history.size)
  | visible => tell (.flag b.visibility.visible)
  | setVisible on => become (b.mapVisibility fun v => { v with visible := on })
  | advanced => tell (.flag b.visibility.advanced)
  | setAdvanced on => become (b.mapVisibility fun v => { v with advanced := on })
  | group => tell (.text b.visibility.group)
  | setGroup name => become (b.mapVisibility fun v => { v with group := name })
  | valueText => tell (.text m.valueText)
  | setValueText text => edit m (.load text) succeeded
  | shown => tell (.flag b.caption.shown)
  | setShown on => become (b.mapCaption fun c => { c with shown := on })
  | template => tell (.optionText b.caption.template)
  | setTemplate text => become (b.mapCaption (·.setTemplate text))
  | captionText => tell (.text m.captionText)
  | setTooltipHook name => become (mapHooks (fun h => { h with tooltip := some { name } }) b)
  | setMenuHook name => become (mapHooks (fun h => { h with menu := some { name } }) b)
  | hasTooltipHook => tell (.flag b.hooks.tooltip.isSome)
  | hasMenuHook => tell (.flag b.hooks.menu.isSome)
  | immediate => tell (.flag b.immediate)
  | setImmediate on => become (b.setImmediate on)

end Call

end BoundValues
