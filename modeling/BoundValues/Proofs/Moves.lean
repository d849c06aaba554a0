import BoundValues.Member.Call
import BoundValues.World.Command

namespace BoundValues

variable {α : Type}

/-- A commit is told of as it happened, and nothing is told when the value stayed. -/
def Change.Accounts (change : Option (Change α)) (old new : α) : Prop :=
  match change with
  | some c => c = ⟨old, new⟩
  | none => new = old

structure Full.Core (α : Type) where
  value : α
  history : History α
  link : Link
  listeners : Signal Listener

def Full.core (f : Full α) : Full.Core α := ⟨f.cell.value, f.history, f.link, f.listeners⟩

/-- What an operation does to the core of a full value. `sizes` are the capacities that may be set. -/
inductive Full.Core.Moves (sizes : Nat → Prop) (c : Full.Core α) :
    Full.Core α → Option (Change α) → Prop
  | stay : Moves sizes c c none
  | commit (v : α) :
      Moves sizes c { c with value := v, history := c.history.push v } (some ⟨c.value, v⟩)
  | walk (forward : Bool) (history : History α) (v : α)
      (found : c.history.step forward = (history, some v)) :
      Moves sizes c { c with value := v, history := history } (some ⟨c.value, v⟩)
  | halt (forward : Bool) (history : History α)
      (ended : c.history.step forward = (history, none)) :
      Moves sizes c { c with history := history } none
  | resize (n : Nat) (allowed : sizes n) :
      Moves sizes c { c with history := c.history.setCapacity n } none
  | forget : Moves sizes c { c with history := c.history.clear } none

structure Monitored.Moves (m m' : Monitored α) (change : Option (Change α)) : Prop where
  link : m'.link = m.link
  listeners : m'.listeners = m.listeners
  value : Change.Accounts change m.cell.value m'.cell.value

/-- What an operation does to a body. The kinds without listeners never tell of a commit. -/
inductive Body.Moves (sizes : Nat → Prop) : Body α → Body α → Option (Change α) → Prop
  | plain (p p' : Plain α) : Moves sizes (.plain p) (.plain p') none
  | config (c c' : Config α) : Moves sizes (.config c) (.config c') none
  | monitored {m m' : Monitored α} {change : Option (Change α)} (h : m.Moves m' change) :
      Moves sizes (.monitored m) (.monitored m') change
  | captioned {m m' : Monitored α} {caption caption' : Caption} {change : Option (Change α)}
      (h : m.Moves m' change) : Moves sizes (.captioned m caption) (.captioned m' caption') change
  | full {f f' : Full α} {change : Option (Change α)} (h : f.core.Moves sizes f'.core change) :
      Moves sizes (.full f) (.full f') change

/-- What a body shows to the outside when others share it: its kind, link and listeners stay, and a
commit is told of as it happened. -/
structure Body.Faithful (b b' : Body α) (change : Option (Change α)) : Prop where
  shared : b'.shared = b.shared
  link : b'.link = b.link
  listeners : b'.listeners = b.listeners
  value : b.shared = true → Change.Accounts change b.value b'.value

/-- Whatever the move, it tells of the change that it made. -/
theorem Full.Core.Moves.accounts {sizes : Nat → Prop} {c c' : Full.Core α}
    {change : Option (Change α)} (h : c.Moves sizes c' change) :
    c'.link = c.link ∧ c'.listeners = c.listeners ∧ Change.Accounts change c.value c'.value := by
  cases h <;> exact ⟨rfl, rfl, rfl⟩

/-- The cases of the kinds come to what others can see of a body. -/
theorem Body.Moves.faithful {sizes : Nat → Prop} {b b' : Body α} {change : Option (Change α)}
    (h : b.Moves sizes b' change) : b.Faithful b' change := by
  cases h with
  | plain p p' => exact ⟨rfl, rfl, rfl, fun hs => by cases hs⟩
  | config c c' => exact ⟨rfl, rfl, rfl, fun hs => by cases hs⟩
  | monitored h => exact ⟨rfl, h.link, h.listeners, fun _ => h.value⟩
  | captioned h => exact ⟨rfl, h.link, h.listeners, fun _ => h.value⟩
  | full h =>
    obtain ⟨hl, hs, hv⟩ := h.accounts
    exact ⟨rfl, hl, hs, fun _ => hv⟩

theorem Body.Moves.quiet {sizes : Nat → Prop} {b b' : Body α} {change : Option (Change α)}
    (h : b.Moves sizes b' change) (alone : b.shared = false) : change = none := by
  cases h with
  | plain p p' => rfl
  | config c c' => rfl
  | monitored h => cases alone
  | captioned h => cases alone
  | full h => cases alone

theorem Body.Moves.kind {sizes : Nat → Prop} {b b' : Body α} {change : Option (Change α)}
    (h : b.Moves sizes b' change) : b'.kind = b.kind := by
  cases h <;> rfl

theorem Monitored.stays (m : Monitored α) : m.Moves m none := ⟨rfl, rfl, rfl⟩

theorem Monitored.commitFrom_moves [BEq α] (m : Monitored α) (v : α) (source : Source) :
    m.Moves (m.commitFrom v source).state (m.commitFrom v source).change := by
  unfold Monitored.commitFrom
  split
  · exact m.stays
  · exact ⟨rfl, rfl, rfl⟩

theorem Monitored.edit_moves [BEq α] (m : Monitored α) (mode : EditMode) (r : Response) (v : α) :
    m.Moves (m.edit mode r v).state (m.edit mode r v).change := by
  unfold Monitored.edit
  split
  · exact m.commitFrom_moves v .user
  · exact m.stays

namespace Full

variable {sizes : Nat → Prop}

theorem stage_moves (f : Full α) (v : α) :
    f.core.Moves sizes (f.stage v).state.core (f.stage v).change := by
  unfold stage
  split <;> exact .stay

variable [BEq α]

/-- A commit is told with the value that it replaced, and goes into the history. -/
theorem commitFrom_moves (f : Full α) (v : α) (source : Source) :
    f.core.Moves sizes (f.commitFrom v source).1.core (f.commitFrom v source).2 := by
  unfold commitFrom
  split
  · exact .stay
  · exact .commit v

theorem set_moves (f : Full α) (v : α) : f.core.Moves sizes (f.set v).state.core (f.set v).change := by
  unfold set
  split
  · exact .stay
  · exact commitFrom_moves { f with validation := f.validation.pass } _ .user

theorem apply_moves (f : Full α) : f.core.Moves sizes f.apply.state.core f.apply.change := by
  unfold apply
  split
  · exact .stay
  · exact .commit _

/-- A step in the history commits the entry that the cursor goes to. -/
theorem step_moves (f : Full α) (forward : Bool) :
    f.core.Moves sizes (f.step forward).state.core (f.step forward).change := by
  unfold step
  split
  · rename_i history ended
    exact .halt forward history ended
  · rename_i history v found
    exact .walk forward history v found

theorem commitPulled_moves (f : Full α) (v : α) :
    f.core.Moves sizes (f.commitPulled v).state.core (f.commitPulled v).change := by
  unfold commitPulled
  split
  · exact .stay
  · exact .commit v

/-- A reset is a commit of the default, with an entry in the history. -/
theorem reset_moves (f : Full α) : f.core.Moves sizes f.reset.state.core f.reset.change :=
  commitFrom_moves f.revert f.fallback .default

theorem load_moves (type : ValueType α) (f : Full α) (text : String) :
    f.core.Moves sizes (f.load type text).state.core (f.load type text).change := by
  unfold load
  split
  · exact .stay
  · split
    · exact .stay
    · exact commitFrom_moves (revert { f with validation := f.validation.pass }) _ .config

theorem edit_moves (f : Full α) (mode : EditMode) (immediate : Bool) (r : Response) (v : α) :
    f.core.Moves sizes (f.edit mode immediate r v).state.core (f.edit mode immediate r v).change := by
  -- Staging leaves the core alone, so the move is that of the apply that may follow.
  have staged : (f.stage v).state.core = f.core := by
    unfold stage
    split <;> rfl
  unfold edit
  split
  · dsimp only
    split
    · exact staged ▸ .stay
    · split
      · exact staged ▸ apply_moves { (f.stage v).state with edited := true }
      · exact staged ▸ .stay
  · exact .stay

end Full

/-- Every operation on a body makes a move of some sort. `allowed` are the requests that are made, and
`poked` is whether there are writes through handles. -/
structure Body.Steps [BEq α] (allowed : Command α → Prop) (poked : Prop)
    (good : Body α → Body α → Option (Change α) → Prop) : Prop where
  written (b : Body α) (v : α) (h : poked ∨ allowed (.setThroughHandle v)) :
    good b (b.setShared v).state (b.setShared v).change
  drawn (b before : Body α) (r : Response) (v : α) {label : String} (h : allowed (.draw label)) :
    good b (Body.edit before r v b).state (Body.edit before r v b).change
  called (m : Member α) (c : Call) (h : allowed (.call c)) :
    good m.body (c.step m).state (c.step m).change
  edited (type : ValueType α) (b : Body α) (e : Edit α) (s : Step (Body α) α (Reply α))
    (h : allowed (.edit e)) (known : e.step type b = some s) : good b s.state s.change

namespace Body

variable {sizes : Nat → Prop}

theorem stays (b : Body α) : b.Moves sizes b none := by
  cases b with
  | plain p => exact .plain p p
  | monitored m => exact .monitored m.stays
  | captioned m caption => exact .captioned m.stays
  | config c => exact .config c c
  | full f => exact .full .stay

variable [BEq α]

theorem setShared_moves (b : Body α) (v : α) :
    b.Moves sizes (b.setShared v).state (b.setShared v).change := by
  cases b with
  | plain p => exact .plain p p
  | monitored m => exact .monitored (m.commitFrom_moves v .user)
  | captioned m caption => exact .captioned (m.commitFrom_moves v .user)
  | config c => exact .config c c
  | full f => exact .full (f.set_moves v)

theorem commitPulled_moves (b : Body α) (v : α) :
    b.Moves sizes (b.commitPulled v).state (b.commitPulled v).change := by
  cases b with
  | plain p => exact .plain p p
  | monitored m => exact .monitored (m.commitFrom_moves v .external)
  | captioned m caption => exact .captioned (m.commitFrom_moves v .external)
  | config c => exact .config c c
  | full f => exact .full (f.commitPulled_moves v)

theorem apply_moves (b : Body α) : b.Moves sizes b.apply.state b.apply.change := by
  cases b with
  | plain p => exact .plain p p
  | monitored m => exact .monitored m.stays
  | captioned m caption => exact .captioned m.stays
  | config c =>
    simp only [apply, Config.apply]
    split <;> exact .config ..
  | full f => exact .full f.apply_moves

theorem edit_moves (b before : Body α) (r : Response) (v : α) :
    b.Moves sizes (Body.edit before r v b).state (Body.edit before r v b).change := by
  cases b with
  | plain p =>
    simp only [edit, Plain.edit]
    split <;> exact .plain ..
  | monitored m => exact .monitored (m.edit_moves before.cell.mode r v)
  | captioned m caption => exact .captioned (m.edit_moves before.cell.mode r v)
  | config c =>
    simp only [edit, Config.edit]
    split
    · split <;> exact .config ..
    · exact .config ..
  | full f => exact .full (f.edit_moves before.cell.mode before.immediate r v)

end Body

section Requests

variable [BEq α] {sizes : Nat → Prop} {s : Step (Body α) α (Reply α)}

/-- Requests to a bare cell keep the kind that wraps it, and tell nobody. -/
theorem Edit.onCell_state {wrap : Cell α → Body α} {c : Cell α} {e : Edit α}
    (h : e.onCell wrap c = some s) : (∃ c', s.state = wrap c') ∧ s.change = none := by
  cases e <;> simp only [Edit.onCell, Edit.settled, Option.some.injEq, reduceCtorEq] at h
  all_goals
    subst h
    exact ⟨⟨_, rfl⟩, rfl⟩

theorem Edit.onConfig_state {type : ValueType α} {c : Config α} {e : Edit α}
    (h : e.onConfig type c = some s) : (∃ c', s.state = .config c') ∧ s.change = none := by
  have cell : ∀ {e : Edit α}, e.onCell (fun cell => .config { c with cell }) c.cell = some s →
      (∃ c', s.state = .config c') ∧ s.change = none := by
    intro e h
    obtain ⟨⟨c', hs⟩, hc⟩ := Edit.onCell_state h
    exact ⟨⟨_, hs⟩, hc⟩
  cases e
  case trySet v =>
    simp only [Edit.onConfig, Config.trySet, Option.some.injEq] at h
    subst h
    split <;> exact ⟨⟨_, rfl⟩, rfl⟩
  case apply =>
    simp only [Edit.onConfig, Config.apply, Option.some.injEq] at h
    subst h
    split <;> exact ⟨⟨_, rfl⟩, rfl⟩
  case reset =>
    simp only [Edit.onConfig, Config.reset, Option.some.injEq] at h
    subst h
    split <;> exact ⟨⟨_, rfl⟩, rfl⟩
  case load text =>
    simp only [Edit.onConfig, Config.load, Option.some.injEq] at h
    subst h
    split
    · exact ⟨⟨_, rfl⟩, rfl⟩
    · split <;> exact ⟨⟨_, rfl⟩, rfl⟩
  case stage | revert | setValidator | setDefault =>
    simp only [Edit.onConfig, Edit.settled, Option.some.injEq] at h
    subst h
    exact ⟨⟨_, rfl⟩, rfl⟩
  all_goals
    simp only [Edit.onConfig] at h
    exact cell h

theorem Edit.onMonitored_moves {wrap : Monitored α → Body α} {m : Monitored α} {e : Edit α}
    (h : e.onMonitored wrap m = some s) :
    ∃ m', s.state = wrap m' ∧ m.Moves m' s.change := by
  cases e <;> simp only [Edit.onMonitored, Option.some.injEq, reduceCtorEq] at h
  subst h
  exact ⟨_, rfl, m.commitFrom_moves _ .user⟩

theorem Edit.onFull_moves {type : ValueType α} {f : Full α} {e : Edit α}
    (allowed : ∀ n, e = .setCapacity n → sizes n) (h : e.onFull type f = some s) :
    ∃ f', s.state = .full f' ∧ f.core.Moves sizes f'.core s.change := by
  cases e <;> simp only [Edit.onFull, Edit.settled, Option.some.injEq, reduceCtorEq] at h
  all_goals subst h
  case set v => exact ⟨_, rfl, f.set_moves v⟩
  case stage v => exact ⟨_, rfl, f.stage_moves v⟩
  case apply => exact ⟨_, rfl, f.apply_moves⟩
  case undo => exact ⟨_, rfl, f.step_moves false⟩
  case redo => exact ⟨_, rfl, f.step_moves true⟩
  case reset => exact ⟨_, rfl, f.reset_moves⟩
  case load text => exact ⟨_, rfl, f.load_moves type text⟩
  case setCapacity n => exact ⟨_, rfl, .resize n (allowed n rfl)⟩
  all_goals exact ⟨_, rfl, .stay⟩

/-- Every edit of every kind is one of the moves. -/
theorem Edit.step_moves {type : ValueType α} {b : Body α} {e : Edit α}
    (allowed : ∀ n, e = .setCapacity n → sizes n) (h : e.step type b = some s) :
    b.Moves sizes s.state s.change := by
  cases b with
  | plain p =>
    have none_told : (∃ p', s.state = .plain p') ∧ s.change = none := by
      cases e
      case set v =>
        simp only [Edit.step, Option.some.injEq] at h
        subst h
        exact ⟨⟨_, rfl⟩, rfl⟩
      all_goals
        simp only [Edit.step] at h
        obtain ⟨⟨c', hs⟩, hc⟩ := Edit.onCell_state h
        exact ⟨⟨_, hs⟩, hc⟩
    obtain ⟨⟨p', hs⟩, hc⟩ := none_told
    rw [hs, hc]
    exact .plain p p'
  | monitored m =>
    obtain ⟨m', hs, hm⟩ := Edit.onMonitored_moves h
    rw [hs]
    exact .monitored hm
  | captioned m caption =>
    obtain ⟨m', hs, hm⟩ := Edit.onMonitored_moves h
    rw [hs]
    exact .captioned hm
  | config c =>
    obtain ⟨⟨c', hs⟩, hc⟩ := Edit.onConfig_state h
    rw [hs, hc]
    exact .config c c'
  | full f =>
    obtain ⟨f', hs, hm⟩ := Edit.onFull_moves allowed h
    rw [hs]
    exact .full hm

/-- A request through the deferred, history or string capability is an edit, when the kind knows it. -/
theorem Call.edit_moves {m : Member α} {e : Edit α} {g : Reply α → Reply α}
    (allowed : ∀ n, e = .setCapacity n → sizes n) :
    m.body.Moves sizes (Call.edit m e g).state (Call.edit m e g).change := by
  unfold Call.edit
  split
  · rename_i step h
    exact Edit.step_moves (s := step) allowed h
  · exact m.body.stays

/-- Every call of every kind is one of the moves. -/
theorem Call.step_moves (m : Member α) (c : Call) :
    m.body.Moves sizes (c.step m).state (c.step m).change := by
  have edits : ∀ {e : Edit α} {g : Reply α → Reply α}, (∀ n, e ≠ .setCapacity n) →
      m.body.Moves sizes (Call.edit m e g).state (Call.edit m e g).change := by
    intro e g he
    exact Call.edit_moves fun n hn => absurd hn (he n)
  cases c
  case apply | revert | undo | redo => exact edits (by intro n; simp)
  case setValueText text => exact edits (by intro n; simp)
  case validate =>
    simp only [Call.step]
    cases hb : m.body <;> simp only [Call.check]
    case plain p => exact .plain p p
    case monitored m => exact .monitored m.stays
    case captioned m caption => exact .captioned m.stays
    case config c => exact .config ..
    case full f => exact .full .stay
  case clear =>
    simp only [Call.step]
    cases hb : m.body <;> simp only [Call.clearHistory]
    case plain p => exact .plain p p
    case monitored m => exact .monitored m.stays
    case captioned m caption => exact .captioned m.stays
    case config c => exact .config ..
    case full f => exact .full .forget
  case setVisible | setAdvanced | setGroup | setShown | setTemplate | setTooltipHook | setMenuHook |
      setImmediate =>
    simp only [Call.step]
    cases hb : m.body
    case plain p => exact .plain p p
    case monitored m => exact .monitored m.stays
    case captioned m caption => exact .captioned m.stays
    case config c => exact .config ..
    case full f => exact .full .stay
  all_goals exact m.body.stays

def Call.edit? : Call → Option (Edit α)
  | .apply => some .apply
  | .revert => some .revert
  | .undo => some .undo
  | .redo => some .redo
  | .setValueText text => some (.load text)
  | _ => none

/-- What a call does that is no edit: settings are changed, and a history is forgotten. What is committed,
what is staged and where it came from stay. -/
inductive Body.Refits : Body α → Body α → Prop
  | same (b : Body α) : b.Refits b
  | captioned (m : Monitored α) (caption caption' : Caption) :
      (Body.captioned m caption).Refits (.captioned m caption')
  | config (c : Config α) (validation : Validation α) (visibility : Visibility) (immediate : Bool) :
      (Body.config c).Refits (.config { c with validation, visibility, immediate })
  | full (f : Full α) (history : History α) (validation : Validation α) (visibility : Visibility)
      (caption : Caption) (hooks : Hooks) (immediate : Bool) : (Body.full f).Refits
        (.full { f with history, validation, visibility, caption, hooks, immediate })

/-- A call is an edit, or it only refits. -/
theorem Call.step_along {R : Body α → Prop} {m : Member α} {c : Call}
    (edits : ∀ e s, c.edit? = some e → e.step m.type m.body = some s → R s.state)
    (refits : ∀ b, m.body.Refits b → R b) : R (c.step m).state := by
  have edited {e : Edit α} {g : Reply α → Reply α} (stands : c.edit? = some e) :
      R (Call.edit m e g).state := by
    unfold Call.edit
    split
    · rename_i s known
      exact edits e s stands known
    · exact refits _ (.same _)
  cases c
  case apply | revert | undo | redo | setValueText => exact edited rfl
  case validate | clear | setVisible | setAdvanced | setGroup | setShown | setTemplate |
      setTooltipHook | setMenuHook | setImmediate =>
    refine refits _ ?_
    simp only [Call.step]
    cases m.body with
    | plain p => exact .same _
    | monitored m => exact .same _
    | captioned m caption => exact .captioned m caption _
    | config c => exact .config c ..
    | full f => exact .full f ..
  all_goals exact refits _ (.same _)

theorem Body.Steps.mono {allowed : Command α → Prop} {poked : Prop}
    {good good' : Body α → Body α → Option (Change α) → Prop} (h : Body.Steps allowed poked good)
    (hg : ∀ b b' change, good b b' change → good' b b' change) :
    Body.Steps allowed poked good' where
  written b v hv := hg _ _ _ (h.written b v hv)
  drawn b before r v _ hd := hg _ _ _ (h.drawn b before r v hd)
  called m c hc := hg _ _ _ (h.called m c hc)
  edited type b e s he known := hg _ _ _ (h.edited type b e s he known)

/-- Every operation moves in one of the ways listed; capacities are set only by the edit for it. -/
theorem Body.steps_move (allowed : Command α → Prop) (poked : Prop) :
    Body.Steps allowed poked (Body.Moves fun n => allowed (.edit (.setCapacity n))) where
  written b v _ := b.setShared_moves v
  drawn b before r v _ _ := b.edit_moves before r v
  called m c _ := c.step_moves m
  edited _ _ _ _ h known := Edit.step_moves (fun _ hn => hn ▸ h) known

theorem Body.steps_faithful (allowed : Command α → Prop) (poked : Prop) :
    Body.Steps allowed poked Body.Faithful :=
  (Body.steps_move allowed poked).mono fun _ _ _ h => h.faithful

end Requests

end BoundValues
