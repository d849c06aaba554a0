import BoundValues.Proofs.Quiet
import BoundValues.Proofs.Views

namespace BoundValues

variable {α : Type}

/-- A widget to which the text beside a value makes no difference. -/
def TextBlind (widget : Widget α) : Prop :=
  ∀ n picture text, widget n { picture with text } = widget n picture

def Edit.common : Edit α → Bool
  | .apply | .revert | .reset | .load _ | .setValidator _ | .setDefault _ => true
  | _ => false

def Call.common : Call → Bool
  | .apply | .revert | .pending | .dirty | .validate | .valid | .error | .valueText
  | .setValueText _ | .immediate | .setImmediate _ => true
  | _ => false

/-- One request, as a configuration value and a full value know it. Only a checked edit goes by two
names. -/
inductive Command.Twin : Command α → Command α → Prop
  | offer (v : α) : Twin (.edit (.trySet v)) (.edit (.stage v))
  | edit {e : Edit α} (h : e.common = true) : Twin (.edit e) (.edit e)
  | call {c : Call} (h : c.common = true) : Twin (.call c) (.call c)
  | mode (mode : EditMode) : Twin (.setMode mode) (.setMode mode)
  | clearChanged : Twin .clearChanged .clearChanged
  | widget {widget : Widget α} (h : TextBlind widget) : Twin (.setWidget widget) (.setWidget widget)
  | draw (label : String) : Twin (.draw label) (.draw label)

/-- A configuration value and a full value with the same edit under way. The change flags may
differ: loading a text that changes nothing clears only one of them. -/
structure Config.Alike (c : Config α) (f : Full α) : Prop where
  value : c.cell.value = f.cell.value
  tooltip : c.cell.tooltip = f.cell.tooltip
  mode : c.cell.mode = f.cell.mode
  fallback : c.fallback = f.fallback
  staging : c.staging = f.staging
  validation : c.validation = f.validation
  source : c.source = f.source
  immediate : c.immediate = f.immediate

structure Config.StepsAlike {ρ : Type} (s : Step (Config α) α ρ) (s' : Step (Full α) α ρ) : Prop where
  state : s.state.Alike s'.state
  reply : s.reply = s'.reply

namespace Config.Alike

variable {c : Config α} {f : Full α}

theorem new (initial : α) (caption : Caption) :
    Alike (Config.new initial) { Full.new initial with caption } :=
  ⟨rfl, rfl, rfl, rfl, rfl, rfl, rfl, rfl⟩

theorem revert (h : Alike c f) : Alike c.revert f.revert := { h with staging := rfl }

theorem clearChanged (h : Alike c f) : Alike c.clearChanged f.clearChanged := { h with }

theorem pass (h : Alike c f) : Alike { c with validation := c.validation.pass }
    { f with validation := f.validation.pass } :=
  { h with validation := congrArg Validation.pass h.validation }

theorem refuse (h : Alike c f) (message : String) :
    Alike { c with validation := c.validation.refuse message }
      { f with validation := f.validation.refuse message } :=
  { h with validation := congrArg (·.refuse message) h.validation }

theorem run (h : Alike c f) (v : α) : c.validation.run v = f.validation.run v :=
  congrArg (·.run v) h.validation

/-- A checked edit goes by two names and is one. -/
theorem offer (h : Alike c f) (v : α) : StepsAlike (c.trySet v) (f.stage v) := by
  cases hv : f.validation.run v with
  | error message =>
    simp only [Config.trySet, Full.stage, h.run, hv]
    exact ⟨h.refuse message, rfl⟩
  | ok accepted =>
    simp only [Config.trySet, Full.stage, h.run, hv]
    exact ⟨{ h.pass with staging := rfl, source := rfl }, rfl⟩

theorem check (h : Alike c f) : StepsAlike c.check f.check := by
  unfold Config.check Full.check
  rw [h.validation, h.value]
  exact ⟨{ h with validation := rfl }, rfl⟩

variable [BEq α]

theorem apply (h : Alike c f) : StepsAlike c.apply f.apply := by
  unfold Config.apply Full.apply
  rw [h.staging, h.value]
  cases f.staging.take? f.cell.value with
  | none => exact ⟨h, rfl⟩
  | some taken => exact ⟨{ h with value := rfl, staging := rfl }, rfl⟩

theorem reset (h : Alike c f) : StepsAlike c.reset f.reset := by
  have reverted := h.revert
  have same : (c.revert.cell.value == c.revert.fallback) = (f.revert.cell.value == f.fallback) := by
    rw [reverted.value, reverted.fallback]
    rfl
  unfold Config.reset Full.reset Full.commitFrom
  dsimp only
  rw [same]
  split
  · exact ⟨reverted, rfl⟩
  · exact ⟨{ reverted with value := reverted.fallback, source := rfl }, rfl⟩

/-- One kind stores the value in any case, the other only when it differs. -/
theorem assign [LawfulBEq α] (h : Alike c f) (v : α) (source : Source) :
    Alike { c with cell := c.cell.assign v, source }
      { (f.commitFrom v source).1 with source } := by
  unfold Full.commitFrom
  split
  · rename_i same
    exact { h with value := (eq_of_beq same).symm, source := rfl }
  · exact { h with value := rfl, source := rfl }

/-- A text that changes nothing clears the flag of one kind only, which is not compared. -/
theorem load [LawfulBEq α] (h : Alike c f) (type : ValueType α) (text : String) :
    StepsAlike (c.load type text) (f.load type text) := by
  cases ht : type.read text with
  | none =>
    simp only [Config.load, Full.load, ht]
    exact ⟨h, rfl⟩
  | some candidate =>
    cases hv : f.validation.run candidate with
    | error message =>
      simp only [Config.load, Full.load, ht, h.run, hv]
      exact ⟨h.refuse message, rfl⟩
    | ok accepted =>
      simp only [Config.load, Full.load, ht, h.run, hv]
      exact ⟨h.pass.revert.assign accepted .config, rfl⟩

/-- A widget's edit goes by the mode and the immediate flag, which are the same. -/
theorem edit (h : Alike c f) (r : Response) (v : α) :
    StepsAlike (c.edit r v) (f.edit f.cell.mode f.immediate r v) := by
  have offered := h.offer v
  have edited : Alike { (c.trySet v).state with edited := true }
    { (f.stage v).state with edited := true } := { offered.state with }
  have immediate : (c.trySet v).state.immediate = f.immediate := by
    unfold Config.trySet
    split <;> exact h.immediate
  unfold Config.edit Full.edit Cell.editable
  rw [h.mode]
  split
  · dsimp only
    rw [offered.reply]
    cases (f.stage v).reply with
    | error e => exact ⟨offered.state, rfl⟩
    | ok _ =>
      dsimp only
      by_cases hi : f.immediate = true
      · rw [if_pos (immediate.trans hi), if_pos hi]
        exact ⟨edited.apply.state, rfl⟩
      · rw [if_neg (immediate ▸ hi), if_neg hi]
        exact ⟨edited, rfl⟩
  · exact ⟨h, rfl⟩

end Config.Alike

inductive Body.Alike : Body α → Body α → Prop
  | intro {c : Config α} {f : Full α} (h : c.Alike f) : Alike (.config c) (.full f)

structure Body.StepsAlike {ρ : Type} (s s' : Step (Body α) α ρ) : Prop where
  state : s.state.Alike s'.state
  reply : s.reply = s'.reply

structure Member.Alike (m m' : Member α) : Prop where
  body : m.body.Alike m'.body
  type : m.type = m'.type
  hints : m.hints = m'.hints
  widget : m.widget = m'.widget
  drawn : m.drawn = m'.drawn
  blind : ∀ widget ∈ m.widget, TextBlind widget

theorem Config.StepsAlike.map {ρ π : Type} {s : Step (Config α) α ρ} {s' : Step (Full α) α ρ}
    (h : Config.StepsAlike s s') (g : ρ → π) :
    Body.StepsAlike (s.map .config g) (s'.map .full g) :=
  ⟨.intro h.state, congrArg g h.reply⟩

section Parts

variable {b b' : Body α}

theorem Body.Alike.value (h : b.Alike b') : b.value = b'.value := by
  obtain ⟨h⟩ := h
  exact h.value

theorem Body.Alike.staging (h : b.Alike b') : b.staging = b'.staging := by
  obtain ⟨h⟩ := h
  exact h.staging

theorem Body.Alike.validation (h : b.Alike b') : b.validation = b'.validation := by
  obtain ⟨h⟩ := h
  exact h.validation

theorem Body.Alike.source (h : b.Alike b') : b.source? = b'.source? := by
  obtain ⟨h⟩ := h
  exact congrArg some h.source

theorem Body.Alike.fallback (h : b.Alike b') : b.fallback? = b'.fallback? := by
  obtain ⟨h⟩ := h
  exact congrArg some h.fallback

theorem Body.Alike.immediate (h : b.Alike b') : b.immediate = b'.immediate := by
  obtain ⟨h⟩ := h
  exact h.immediate

theorem Body.Alike.kinds (h : b.Alike b') : b.kind = .config ∧ b'.kind = .full := by
  obtain ⟨_⟩ := h
  exact ⟨rfl, rfl⟩

theorem Body.Alike.display (h : b.Alike b') :
    b.cell.mode = b'.cell.mode ∧ b.cell.tooltip = b'.cell.tooltip := by
  obtain ⟨h⟩ := h
  exact ⟨h.mode, h.tooltip⟩

theorem Body.Alike.clearChanged (h : b.Alike b') : b.clearChanged.Alike b'.clearChanged := by
  obtain ⟨h⟩ := h
  exact .intro h.clearChanged

theorem Body.Alike.setMode (h : b.Alike b') (mode : EditMode) :
    (b.mapCell fun c => { c with mode }).Alike (b'.mapCell fun c => { c with mode }) := by
  obtain ⟨h⟩ := h
  exact .intro { h with mode := rfl }

theorem Body.Alike.setImmediate (h : b.Alike b') (on : Bool) :
    (b.setImmediate on).Alike (b'.setImmediate on) := by
  obtain ⟨h⟩ := h
  exact .intro { h with immediate := rfl }

theorem Body.Alike.check (h : b.Alike b') : StepsAlike (Call.check b) (Call.check b') := by
  obtain ⟨h⟩ := h
  exact h.check.map Reply.flag

end Parts

section Requests

variable {b b' : Body α} {m m' : Member α}

/-- Both kinds hand out the capability of every call that they have in common. -/
theorem Member.Alike.answers (h : m.Alike m') {c : Call} (common : c.common = true) :
    m.interface.answers c.capability = true ∧ m'.interface.answers c.capability = true := by
  have declared : ∀ k ∈ [Kind.config, .full], ∀ a ∈ [Capability.deferred, .validation, .string,
      .immediate], k.capabilities.declares a = true := by decide
  have asked : c.capability ∈ [Capability.deferred, .validation, .string, .immediate] := by
    cases c <;> first | (cases common; done) | simp [Call.capability]
  simp only [Member.interface, Interface.answers_plain, h.body.kinds]
  exact ⟨declared _ (by simp) _ asked, declared _ (by simp) _ asked⟩

variable [BEq α]

theorem Body.Alike.hasPending (h : b.Alike b') : b.hasPending = b'.hasPending := by
  simp only [Body.hasPending, h.staging, h.value]

theorem Body.Alike.edit (h : b.Alike b') (r : Response) (v : α) :
    StepsAlike (Body.edit b r v b) (Body.edit b' r v b') := by
  obtain ⟨h⟩ := h
  exact (h.edit r v).map id

/-- An edit that both kinds know comes to the same. -/
theorem Command.Twin.edits [LawfulBEq α] {e e' : Edit α} (h : Twin (.edit e) (.edit e'))
    (alike : b.Alike b') (type : ValueType α) :
    ∃ s s', e.step type b = some s ∧ e'.step type b' = some s' ∧ Body.StepsAlike s s' := by
  obtain ⟨alike⟩ := alike
  cases h with
  | offer v => exact ⟨_, _, rfl, rfl, (alike.offer v).map Reply.done⟩
  | edit common =>
    cases e
    case apply => exact ⟨_, _, rfl, rfl, alike.apply.map Reply.flag⟩
    case revert => exact ⟨_, _, rfl, rfl, .intro alike.revert, rfl⟩
    case reset => exact ⟨_, _, rfl, rfl, alike.reset.map Reply.flag⟩
    case load text => exact ⟨_, _, rfl, rfl, (alike.load type text).map Reply.done⟩
    case setValidator rule =>
      exact ⟨_, _, rfl, rfl, .intro
        { alike with validation := congrArg (·.setValidator rule) alike.validation }, rfl⟩
    case setDefault v => exact ⟨_, _, rfl, rfl, .intro { alike with fallback := rfl }, rfl⟩
    all_goals cases common

structure Body.Agrees (b b' : Body α) : Prop where
  committed : b.value = b'.value
  staged : b.staging.pending = b'.staging.pending
  hasPending : b.hasPending = b'.hasPending
  dirty : b.staging.dirty = b'.staging.dirty
  error : b.validation.error = b'.validation.error
  valid : b.validation.valid = b'.validation.valid
  source : b.source? = b'.source?
  fallback : b.fallback? = b'.fallback?

theorem Body.Alike.agrees (h : b.Alike b') : b.Agrees b' where
  committed := h.value
  staged := congrArg _ h.staging
  hasPending := h.hasPending
  dirty := congrArg _ h.staging
  error := congrArg _ h.validation
  valid := congrArg _ h.validation
  source := h.source
  fallback := h.fallback

theorem Member.Alike.callEdit [LawfulBEq α] (h : m.Alike m') {e : Edit α} (common : e.common = true)
    (g : Reply α → Reply α) : Body.StepsAlike (Call.edit m e g) (Call.edit m' e g) := by
  obtain ⟨s, s', hs, hs', steps⟩ := (Command.Twin.edit common).edits h.body m.type
  rw [h.type] at hs'
  simp only [Call.edit, hs, hs']
  exact ⟨steps.state, congrArg g steps.reply⟩

/-- A call that both kinds take comes to the same. -/
theorem Member.Alike.call [LawfulBEq α] (h : m.Alike m') {c : Call} (common : c.common = true) :
    Body.StepsAlike (c.step m) (c.step m') := by
  have body := h.body
  cases c
  case apply | revert | setValueText => exact h.callEdit rfl _
  case validate => exact body.check
  case pending => exact ⟨body, congrArg Reply.flag body.hasPending⟩
  case dirty => exact ⟨body, congrArg (fun s : Staging α => Reply.flag s.dirty) body.staging⟩
  case valid => exact ⟨body, congrArg (fun v : Validation α => Reply.flag v.valid) body.validation⟩
  case error => exact ⟨body, congrArg (fun v : Validation α => Reply.text v.error) body.validation⟩
  case valueText =>
    have text : m.valueText = m'.valueText := by
      simp only [Member.valueText, h.type, body.value]
    exact ⟨body, congrArg Reply.text text⟩
  case immediate => exact ⟨body, congrArg Reply.flag body.immediate⟩
  case setImmediate on => exact ⟨body.setImmediate on, rfl⟩
  all_goals cases common

/-- What a picture shows is the same, except for the text. -/
theorem Member.Alike.picture (h : m.Alike m') (label : String) :
    m.picture label = { m'.picture label with text := (m.picture label).text } := by
  have body := h.body
  simp only [Member.picture, Body.effective, body.hasPending, body.staging, body.value,
    body.validation, body.display, h.hints]

/-- A widget that cannot tell the two kinds apart answers both alike. -/
theorem Member.Alike.redrawn (h : m.Alike m') (label : String) :
    (m.redrawn label).1.Alike (m'.redrawn label).1 ∧
      (m.redrawn label).2 = (m'.redrawn label).2 := by
  cases hw : m.widget with
  | none =>
    simp only [Member.redrawn, hw, h.widget ▸ hw]
    exact ⟨h, trivial⟩
  | some widget =>
    have same : widget m.drawn (m.picture label) = widget m'.drawn (m'.picture label) := by
      rw [h.picture, h.drawn]
      exact h.blind widget hw ..
    rw [Member.redrawn_of_widget hw same rfl, Member.redrawn_of_widget (h.widget ▸ hw) rfl rfl]
    have edited := h.body.edit (widget m'.drawn (m'.picture label)).response
      (widget m'.drawn (m'.picture label)).value
    exact ⟨{ h with body := edited.state, drawn := congrArg (· + 1) h.drawn }, edited.reply⟩

end Requests

namespace World

/-- A member of a quiet world in which nobody holds a handle. -/
structure Undisturbed (w : World α) (key : Nat) (m : Member α) : Prop where
  quiet : w.Quiet
  unheld : w.handles = []
  here : w.member? key = some m

def ask [BEq α] (depth key : Nat) : List (Command α) → World α → World α × List (Reply α)
  | [], w => (w, [])
  | c :: cs, w =>
    let (w, r) := w.exec (react depth) key c
    let (w, rs) := w.ask depth key cs
    (w, r :: rs)

section Undisturbed

variable {w v : World α} {key : Nat} {m m' : Member α} {told : List Sign}

/-- No handle leads anywhere, so a member may change as it likes, its widget included. -/
theorem Undisturbed.setMember (h : w.Undisturbed key m) (m' : Member α) :
    (w.setMember key m').Undisturbed key m' := by
  have mute : ∀ name, w.Mute name := by
    intro name k hk
    simp [handleKey?, h.unheld] at hk
  have mute' := mute_setMember h.here m'
  refine ⟨⟨?_, ?_⟩, h.unheld, member?_setMember_self h.here m'⟩
  · rw [mute']
    exact h.quiet.scripts.congr rfl rfl
  · intro k n widget _ _ i picture p _
    rw [mute']
    exact mute p.handle

/-- Where there are neither scripts nor handles, nothing disturbs a member. -/
theorem Undisturbed.of_alone (scripts : w.scripts = []) (unheld : w.handles = [])
    (here : w.member? key = some m) : w.Undisturbed key m := by
  refine ⟨⟨⟨?_, fun _ _ _ => trivial⟩, ?_⟩, unheld, here⟩
  · rw [scripts]
    exact fun _ hs => nomatch hs
  · intro k n widget _ _ i picture p _ k hk
    simp [handleKey?, unheld] at hk

theorem Undisturbed.idles (h : w.Undisturbed key m) (idles : Idles told (w.setMember key m') v) :
    v.Undisturbed key m' := by
  have put := h.setMember m'
  exact ⟨idles.quiet put.quiet, idles.handles.trans put.unheld,
    (idles.member? key).trans put.here⟩

theorem Undisturbed.modify (h : w.Undisturbed key m) (g : Member α → Member α) :
    (w.modify key g).Undisturbed key (g m) := by
  rw [modify_of_member? h.here]
  exact h.setMember (g m)

variable [BEq α] {run : Runner α}

/-- Nobody hears of a step, so only its own member is different. -/
theorem Undisturbed.settle (h : w.Undisturbed key m) (runs : Harmless run) {ρ : Type}
    (s : Step (Body α) α ρ) : (w.settle run key s).1.Undisturbed key { m with body := s.state } :=
  h.idles (h.quiet.settle runs h.here s)

/-- A draw comes to what the widget's edit makes of the member. -/
theorem Undisturbed.draw (h : w.Undisturbed key m) (runs : Harmless run) (label : String) :
    (w.draw run key label).1.Undisturbed key (m.redrawn label).1 ∧
      (w.draw run key label).2 = (m.redrawn label).2 := by
  obtain ⟨idles, reply⟩ := h.quiet.draw runs h.here label
  exact ⟨h.idles idles, reply⟩

end Undisturbed

/-- A configuration value and a full value with the same edit under way, each in a world in which
nothing disturbs it. -/
def Tandem (w w' : World α) (key key' : Nat) : Prop :=
  ∃ m m', w.Undisturbed key m ∧ w'.Undisturbed key' m' ∧ m.Alike m'

section Tandem

variable [BEq α] {w w' : World α} {key key' : Nat} {run run' : Runner α}

/-- The calls that both kinds take lead nowhere outside. -/
theorem callThrough_common {m : Member α} {c : Call} (answers : m.interface.answers c.capability)
    (common : c.common = true) : w.callThrough run key m c = w.settle run key (c.step m) := by
  unfold World.callThrough
  rw [if_pos answers]
  cases c
  case pull | push => cases common
  all_goals rfl

variable [LawfulBEq α]

/-- One request keeps the two kinds in step, and is answered alike by both. -/
theorem Tandem.exec (h : w.Tandem w' key key') (runs : Harmless run) (runs' : Harmless run')
    {c c' : Command α} (twin : c.Twin c') :
    (w.exec run key c).1.Tandem (w'.exec run' key' c').1 key key' ∧
      (w.exec run key c).2 = (w'.exec run' key' c').2 := by
  obtain ⟨m, m', hm, hm', alike⟩ := h
  -- The replacements of a member that run nothing.
  have put {g : Member α → Member α} (ha : (g m).Alike (g m')) :
      (w.modify key g).Tandem (w'.modify key' g) key key' :=
    ⟨_, _, hm.modify g, hm'.modify g, ha⟩
  have settled {s s' : Step (Body α) α (Reply α)} (steps : Body.StepsAlike s s') :
      (w.settle run key s).1.Tandem (w'.settle run' key' s').1 key key' ∧
        (w.settle run key s).2 = (w'.settle run' key' s').2 := by
    rw [settle_reply, settle_reply]
    exact ⟨⟨_, _, hm.settle runs s, hm'.settle runs' s', { alike with body := steps.state }⟩,
      steps.reply⟩
  have edited {e e' : Edit α} (twin : (Command.edit e).Twin (.edit e')) :
      (w.exec run key (.edit e)).1.Tandem (w'.exec run' key' (.edit e')).1 key key' ∧
        (w.exec run key (.edit e)).2 = (w'.exec run' key' (.edit e')).2 := by
    obtain ⟨s, s', hs, hs', steps⟩ := twin.edits alike.body m.type
    rw [alike.type] at hs'
    simp only [World.exec, hm.here, hm'.here, hs, hs']
    exact settled steps
  cases twin with
  | offer v => exact edited (.offer v)
  | edit common => exact edited (.edit common)
  | call common =>
    obtain ⟨answers, answers'⟩ := alike.answers common
    simp only [World.exec, hm.here, hm'.here, callThrough_common answers common,
      callThrough_common answers' common]
    exact settled (alike.call common)
  | mode mode =>
    simp only [World.exec, hm.here, hm'.here]
    exact ⟨put { alike with body := alike.body.setMode mode }, trivial⟩
  | clearChanged =>
    simp only [World.exec, hm.here, hm'.here]
    exact ⟨put { alike with body := alike.body.clearChanged }, trivial⟩
  | widget blind =>
    simp only [World.exec, hm.here, hm'.here]
    refine ⟨put { alike with widget := rfl, drawn := rfl, blind := ?_ }, trivial⟩
    intro widget hw
    cases hw
    exact blind
  | draw label =>
    obtain ⟨drawn, reply⟩ := hm.draw runs label
    obtain ⟨drawn', reply'⟩ := hm'.draw runs' label
    obtain ⟨members, replies⟩ := alike.redrawn label
    simp only [World.exec, hm.here, hm'.here, reply, reply', replies]
    exact ⟨⟨_, _, drawn, drawn', members⟩, trivial⟩

/-- Any run of requests keeps the two kinds in step, and is answered alike by both. -/
theorem Tandem.ask (depth depth' : Nat) {cs : List (Command α × Command α)}
    (twins : ∀ c ∈ cs, c.1.Twin c.2) (h : w.Tandem w' key key') :
    (w.ask depth key (cs.map Prod.fst)).1.Tandem (w'.ask depth' key' (cs.map Prod.snd)).1 key key' ∧
      (w.ask depth key (cs.map Prod.fst)).2 = (w'.ask depth' key' (cs.map Prod.snd)).2 := by
  induction cs generalizing w w' with
  | nil => exact ⟨h, rfl⟩
  | cons c cs ih =>
    obtain ⟨first, reply⟩ :=
      h.exec (harmless_react depth) (harmless_react depth') (twins c List.mem_cons_self)
    obtain ⟨rest, replies⟩ := ih (fun c' hc => twins c' (List.mem_cons_of_mem c hc)) first
    simp only [List.map_cons, World.ask]
    exact ⟨rest, by rw [reply, replies]⟩

end Tandem

/-- A configuration value and a full value that start from the same initial value, each in a world in
which nothing disturbs it, answer every run of common requests alike, and agree after it. -/
theorem one_workflow [BEq α] [LawfulBEq α] {w w' : World α} {key key' : Nat} {m : Member α}
    {initial : α} {caption : Caption}
    (config : w.Undisturbed key { m with body := .config (Config.new initial) })
    (full : w'.Undisturbed key' { m with body := .full { Full.new initial with caption } })
    (blind : ∀ widget ∈ m.widget, TextBlind widget) (depth depth' : Nat)
    {cs : List (Command α × Command α)} (twins : ∀ c ∈ cs, c.1.Twin c.2) :
    (w.ask depth key (cs.map Prod.fst)).2 = (w'.ask depth' key' (cs.map Prod.snd)).2 ∧
      ∃ b b', (w.ask depth key (cs.map Prod.fst)).1.body? key = some b ∧
        (w'.ask depth' key' (cs.map Prod.snd)).1.body? key' = some b' ∧ b.Agrees b' := by
  have start : w.Tandem w' key key' :=
    ⟨_, _, config, full, .intro (.new initial caption), rfl, rfl, rfl, rfl, blind⟩
  obtain ⟨⟨n, n', hn, hn', alike⟩, replies⟩ := start.ask depth depth' twins
  exact ⟨replies, n.body, n'.body, body?_of_member? hn.here, body?_of_member? hn'.here,
    alike.body.agrees⟩

/-- An edit that is staged and applied, one by a widget, and the way back to the default. -/
theorem solo_config_replies_as_full :
    let widget : Widget Nat := fun n picture => ⟨picture.value + n, [], { changed := true }⟩
    ((solo .config false).ask 3 0 [.edit (.trySet 5), .call .apply, .setWidget widget, .draw "v",
        .call .apply, .edit .reset]).2 =
      ((solo .full false).ask 3 0 [.edit (.stage 5), .call .apply, .setWidget widget, .draw "v",
        .call .apply, .edit .reset]).2 := by
  intro widget
  have twins : ∀ c ∈ [(Command.edit (.trySet 5), Command.edit (.stage 5)),
      (.call .apply, .call .apply), (.setWidget widget, .setWidget widget), (.draw "v", .draw "v"),
      (.call .apply, .call .apply), (.edit .reset, .edit .reset)], Command.Twin c.1 c.2 := by
    simp only [List.mem_cons, List.not_mem_nil, or_false, forall_eq_or_imp, forall_eq]
    exact ⟨.offer 5, .call rfl, .widget fun _ _ _ => rfl, .draw "v", .call rfl, .edit rfl⟩
  exact (one_workflow (.of_alone rfl rfl rfl) (.of_alone rfl rfl rfl) (by intro _ hw; cases hw)
    3 3 twins).1

end World

end BoundValues
