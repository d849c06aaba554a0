import BoundValues.Proofs.Views

namespace BoundValues

variable {α : Type}

/-- A way for a candidate into a value that validates. -/
inductive Entrance (α : Type)
  | set (v : α)
  | trySet (v : α)
  | stage (v : α)
  | load (text : String)
  | setText (text : String)
  | throughHandle (v : α)
  /-- What a widget left, when the value was shown to it as it was before. -/
  | drawn (before : Body α) (s : Stroke α)

def Body.refuse (message : String) : Body α → Body α
  | .config c => .config { c with validation := c.validation.refuse message }
  | .full f => .full { f with validation := f.validation.refuse message }
  | b => b

namespace Entrance

def Suits : Entrance α → Body α → Prop
  | trySet _, .config _ | load _, .config _ | setText _, .config _ | drawn .., .config _ => True
  | set _, .full _ | stage _, .full _ | load _, .full _ | setText _, .full _
  | throughHandle _, .full _ | drawn .., .full _ => True
  | _, _ => False

/-- Whether a widget may change the value. A shared value goes by the mode that was shown. -/
def editable (before : Body α) : Body α → Bool
  | .config c => c.cell.editable
  | _ => before.cell.editable

/-- The candidate that is put to the validator, unless the text cannot be read or the widget left
the value alone. -/
def candidate (type : ValueType α) (b : Body α) : Entrance α → Option α
  | set v | trySet v | stage v | throughHandle v => some v
  | load text | setText text => type.read text
  | drawn before s => if s.response.changed && editable before b then some s.value else none

def failure (type : ValueType α) : Entrance α → Reply α
  | load text => .refused (.unreadable text type.name)
  | _ => .flag false

def refusal (message : String) : Entrance α → Reply α
  | setText _ | drawn .. => .flag false
  | throughHandle _ => .accepted (.flag false)
  | _ => .refused (.refused message)

end Entrance

variable [BEq α]

/-- A value that was just staged is handed out when it differs. -/
theorem Staging.take?_stage (s : Staging α) (v committed : α) :
    (s.stage v).take? committed = if v != committed then some (v, ⟨none, false⟩) else none := by
  cases h : v != committed <;> simp [take?, difference?, stage, revert, h]

/-- Whatever surrounds the value stays: kind, link, listeners, hooks and all settings. -/
structure Body.Around (b b' : Body α) : Prop where
  kind : b'.kind = b.kind
  link : b'.link = b.link
  listeners : b'.listeners = b.listeners
  hooks : b'.hooks = b.hooks
  fallback : b'.fallback? = b.fallback?
  immediate : b'.immediate = b.immediate
  visibility : b'.visibility = b.visibility
  caption : b'.caption = b.caption
  name : b'.cell.name = b.cell.name
  tooltip : b'.cell.tooltip = b.cell.tooltip
  mode : b'.cell.mode = b.cell.mode

/-- An equal value is no commit, so that the history does not grow. -/
theorem Full.commitFrom_of_same {f : Full α} {v : α} (same : (f.cell.value == v) = true)
    (source : Source) : f.commitFrom v source = (f, none) := if_pos same

theorem Full.commitFrom_of_differs {f : Full α} {v : α} (differs : (f.cell.value == v) = false)
    (source : Source) : f.commitFrom v source =
      ({ f with cell := f.cell.commit v, history := f.history.push v, source },
        some ⟨f.cell.value, v⟩) := if_neg (differs ▸ Bool.false_ne_true)

/-- An accepted edit from a widget is committed when it is applied at once and differs, and waits
otherwise. -/
theorem Config.edit_of_accepted {c : Config α} {r : Response} {v y : α}
    (changed : (r.changed && c.cell.editable) = true) (accepted : c.validation.run v = .ok y) :
    c.edit r v =
      let taken := { c with validation := c.validation.pass, source := .user, edited := true }
      { state :=
          if c.immediate && y != c.cell.value then
            { taken with cell := c.cell.assign y, staging := {} }
          else { taken with staging := ⟨some y, true⟩ }
        reply := true
        checked := c.validation.checked v } := by
  simp only [edit, changed, ↓reduceIte, trySet, accepted, apply, Staging.take?_stage]
  cases c.immediate <;> cases y != c.cell.value <;> rfl

theorem Full.edit_of_accepted {f : Full α} {mode : EditMode} {immediate : Bool} {r : Response}
    {v y : α} (changed : (r.changed && mode == .editable) = true)
    (accepted : f.validation.run v = .ok y) :
    f.edit mode immediate r v =
      let taken := { f with validation := f.validation.pass, source := .user, edited := true }
      if immediate && y != f.cell.value then
        { state := { taken with
            cell := f.cell.assign y, staging := {}, history := f.history.push y }
          reply := true
          change := some ⟨f.cell.value, y⟩
          checked := f.validation.checked v }
      else
        { state := { taken with staging := ⟨some y, true⟩ }
          reply := true
          checked := f.validation.checked v } := by
  simp only [edit, changed, ↓reduceIte, stage, accepted, apply, Staging.take?_stage]
  cases immediate <;> cases y != f.cell.value <;> rfl

namespace Entrance

def immediate (before : Body α) : Body α → Bool
  | .config c => c.immediate
  | _ => before.immediate

/-- Whether an accepted value is stored in the cell. It is when it differs; a text that is loaded
where nobody is told of it is stored in any case. -/
def stores (b : Body α) (y : α) : Entrance α → Bool
  | trySet _ | stage _ => false
  | set _ | throughHandle _ => !(b.value == y)
  | load _ | setText _ => !(b.shared && b.value == y)
  | drawn before _ => immediate before b && y != b.value

def staging (b : Body α) (y : α) : Entrance α → Staging α
  | set _ | throughHandle _ => b.staging
  | load _ | setText _ => {}
  | e => if e.stores b y then {} else ⟨some y, true⟩

def told (b : Body α) (y : α) (e : Entrance α) : Option (Change α) :=
  if b.shared && e.stores b y then some ⟨b.value, y⟩ else none

def acceptance (b : Body α) (y : α) : Entrance α → Reply α
  | set _ | throughHandle _ => .accepted (.flag !(b.value == y))
  | trySet _ | stage _ | load _ => .accepted .nothing
  | setText _ | drawn .. => .flag true

/-- What has become of a body once `y` was accepted through an entrance. -/
structure Takes (b : Body α) (y : α) (e : Entrance α) (b' : Body α) : Prop where
  error : b'.validation = b.validation.pass
  value : b'.value = if e.stores b y then y else b.value
  staging : b'.staging = e.staging b y
  history : b'.history = if b.shared && e.stores b y then b.history.push y else b.history
  around : b.Around b'

structure Guarded (type : ValueType α) (b : Body α) (e : Entrance α)
    (s : Step (Body α) α (Reply α)) : Prop where
  unreadable : e.candidate type b = none → s = { state := b, reply := e.failure type }
  refused : ∀ v message, e.candidate type b = some v → b.validation.run v = .error message →
    s = { state := b.refuse message, reply := e.refusal message, checked := b.validation.checked v }
  accepted : ∀ v y, e.candidate type b = some v → b.validation.run v = .ok y →
    ∃ b', e.Takes b y b' ∧
      s = { state := b', reply := e.acceptance b y, change := e.told b y,
            checked := b.validation.checked v }

variable {type : ValueType α}

theorem Guarded.of_none {b : Body α} {e : Entrance α} {s : Step (Body α) α (Reply α)}
    (none : e.candidate type b = none) (stays : s = { state := b, reply := e.failure type }) :
    e.Guarded type b s := by
  refine ⟨fun _ => stays, ?_, ?_⟩
  all_goals
    intro v _ hv
    cases none.symm.trans hv

/-- With a candidate at hand, it remains what the validator says of it. -/
theorem Guarded.of_some {b : Body α} {e : Entrance α} {s : Step (Body α) α (Reply α)} {v : α}
    (some : e.candidate type b = some v)
    (refused : ∀ message, b.validation.run v = .error message →
      s = { state := b.refuse message, reply := e.refusal message,
            checked := b.validation.checked v })
    (accepted : ∀ y, b.validation.run v = .ok y → ∃ b', e.Takes b y b' ∧
      s = { state := b', reply := e.acceptance b y, change := e.told b y,
            checked := b.validation.checked v }) : e.Guarded type b s := by
  refine ⟨fun none => ?_, fun u message hu => ?_, fun u y hu => ?_⟩
  · cases some.symm.trans none
  · cases some.symm.trans hu
    exact refused message
  · cases some.symm.trans hu
    exact accepted y

/-- Two entrances that differ in their replies only. -/
theorem Guarded.map {b : Body α} {e e' : Entrance α} {s : Step (Body α) α (Reply α)}
    (h : e.Guarded type b s) (g : Reply α → Reply α)
    (candidate : e'.candidate type b = e.candidate type b)
    (failure : g (e.failure type) = e'.failure type)
    (refusal : ∀ message, g (e.refusal message) = e'.refusal message)
    (acceptance : ∀ y, g (e.acceptance b y) = e'.acceptance b y)
    (told : ∀ y, e.told b y = e'.told b y) (takes : ∀ y b', e.Takes b y b' → e'.Takes b y b') :
    e'.Guarded type b (s.map id g) := by
  refine ⟨?_, ?_, ?_⟩
  · intro hc
    rw [h.unreadable (candidate ▸ hc), ← failure]
    rfl
  · intro v message hc hv
    rw [h.refused v message (candidate ▸ hc) hv, ← refusal]
    rfl
  · intro v y hc hv
    obtain ⟨b', taken, rfl⟩ := h.accepted v y (candidate ▸ hc) hv
    exact ⟨b', takes y b' taken, by rw [← acceptance, ← told]; rfl⟩

/-- Loading through the string capability tells success and failure apart, and nothing more. -/
theorem Guarded.setText {b : Body α} {text : String} {s : Step (Body α) α (Reply α)}
    (h : (load text).Guarded type b s) :
    (setText text).Guarded type b (s.map id Call.succeeded) :=
  h.map Call.succeeded rfl rfl (fun _ => rfl) (fun _ => rfl) (fun _ => rfl) fun _ _ taken =>
    ⟨taken.error, taken.value, taken.staging, taken.history, taken.around⟩

section Taking

variable {b b' : Body α} {y : α} {e : Entrance α}

theorem Takes.of_stored (stored : e.stores b y = true) (error : b'.validation = b.validation.pass)
    (value : b'.value = y) (staging : b'.staging = e.staging b y)
    (history : b'.history = if b.shared then b.history.push y else b.history) (around : b.Around b') :
    e.Takes b y b' := by
  refine ⟨error, ?_, staging, ?_, around⟩
  · rw [stored, value, if_pos rfl]
  · rw [stored, Bool.and_true, history]

theorem Takes.of_kept (kept : e.stores b y = false) (error : b'.validation = b.validation.pass)
    (value : b'.value = b.value) (staging : b'.staging = e.staging b y)
    (history : b'.history = b.history) (around : b.Around b') : e.Takes b y b' := by
  refine ⟨error, ?_, staging, ?_, around⟩
  · rw [kept, value, if_neg Bool.false_ne_true]
  · rw [kept, Bool.and_false, history, if_neg Bool.false_ne_true]

theorem told_of_stored (stored : e.stores b y = true) :
    e.told b y = if b.shared then some ⟨b.value, y⟩ else none := by
  rw [told, stored, Bool.and_true]

theorem told_of_kept (kept : e.stores b y = false) : e.told b y = none := by
  rw [told, kept, Bool.and_false, if_neg Bool.false_ne_true]

end Taking

section Configs

variable (c : Config α)

theorem trySet_guarded (v : α) :
    (trySet v).Guarded type (.config c) ((c.trySet v).map .config .done) := by
  apply Guarded.of_some rfl
  · intro message (hv : c.validation.run v = .error message)
    simp only [Config.trySet, hv]
    rfl
  · intro y (hv : c.validation.run v = .ok y)
    simp only [Config.trySet, hv]
    refine ⟨_, ?_, rfl⟩
    exact .of_kept rfl rfl rfl rfl rfl (by constructor <;> rfl)

theorem config_load_guarded (text : String) :
    (load text).Guarded type (.config c) ((c.load type text).map .config .done) := by
  cases read : type.read text with
  | none =>
    have absent : (load text).candidate type (.config c) = none := read
    apply Guarded.of_none absent
    simp only [Config.load, read]
    rfl
  | some v =>
    have present : (load text).candidate type (.config c) = some v := read
    apply Guarded.of_some present
    · intro message (hv : c.validation.run v = .error message)
      simp only [Config.load, read, hv]
      rfl
    · intro y (hv : c.validation.run v = .ok y)
      simp only [Config.load, read, hv]
      refine ⟨_, ?_, rfl⟩
      exact .of_stored rfl rfl rfl rfl rfl (by constructor <;> rfl)

/-- An edit from a widget that is not stored waits. -/
theorem Takes.of_drawn_kept {before b b' : Body α} {s : Stroke α} {y : α}
    (kept : (drawn before s).stores b y = false) (error : b'.validation = b.validation.pass)
    (value : b'.value = b.value) (staging : b'.staging = ⟨some y, true⟩)
    (history : b'.history = b.history) (around : b.Around b') : (drawn before s).Takes b y b' := by
  refine .of_kept kept error value ?_ history around
  rw [staging]
  exact (if_neg (kept ▸ Bool.false_ne_true)).symm

theorem config_drawn_guarded (before : Body α) (s : Stroke α) :
    (drawn before s).Guarded type (.config c) ((c.edit s.response s.value).map .config .flag) := by
  cases hc : s.response.changed && c.cell.editable with
  | false =>
    apply Guarded.of_none (by simp [candidate, editable, hc])
    simp only [Config.edit, hc, Bool.false_eq_true, ↓reduceIte]
    rfl
  | true =>
    have present : (drawn before s).candidate type (.config c) = some s.value := by
      simp [candidate, editable, hc]
    apply Guarded.of_some present
    · intro message (hv : c.validation.run s.value = .error message)
      simp only [Config.edit, hc, ↓reduceIte, Config.trySet, hv]
      rfl
    · intro y (hv : c.validation.run s.value = .ok y)
      rw [Config.edit_of_accepted hc hv]
      cases hs : (drawn before s).stores (.config c) y with
      | false =>
        have waits : (c.immediate && y != c.cell.value) = false := hs
        rw [told_of_kept hs, waits]
        refine ⟨_, ?_, rfl⟩
        exact .of_drawn_kept hs rfl rfl rfl rfl (by constructor <;> rfl)
      | true =>
        have applied : (c.immediate && y != c.cell.value) = true := hs
        rw [told_of_stored hs, applied]
        refine ⟨_, ?_, rfl⟩
        exact .of_stored hs rfl rfl (if_pos hs).symm rfl (by constructor <;> rfl)

end Configs

section Fulls

variable (f : Full α)

theorem set_guarded (v : α) :
    (set v).Guarded type (.full f) ((f.set v).map .full (.outcome .flag)) := by
  apply Guarded.of_some rfl
  · intro message (hv : f.validation.run v = .error message)
    simp only [Full.set, hv]
    rfl
  · intro y (hv : f.validation.run v = .ok y)
    simp only [Full.set, hv]
    cases hy : f.cell.value == y with
    | true =>
      have kept : (set v).stores (.full f) y = false := congrArg not hy
      have reply : (set v).acceptance (.full f) y = .accepted (.flag false) :=
        congrArg (fun stored => Reply.accepted (.flag stored)) kept
      rw [Full.commitFrom_of_same (f := { f with validation := f.validation.pass }) hy,
        told_of_kept kept, reply]
      refine ⟨_, ?_, rfl⟩
      exact .of_kept kept rfl rfl rfl rfl (by constructor <;> rfl)
    | false =>
      have stored : (set v).stores (.full f) y = true := congrArg not hy
      have reply : (set v).acceptance (.full f) y = .accepted (.flag true) :=
        congrArg (fun stored => Reply.accepted (.flag stored)) stored
      rw [Full.commitFrom_of_differs (f := { f with validation := f.validation.pass }) hy,
        told_of_stored stored, reply]
      refine ⟨_, ?_, rfl⟩
      exact .of_stored stored rfl rfl rfl rfl (by constructor <;> rfl)

/-- A write through a handle is a set, told apart only by whether the value changed. -/
theorem throughHandle_guarded (v : α) :
    (throughHandle v).Guarded type (.full f)
      ((Body.setShared v (.full f)).map id fun r => .accepted (.flag r)) := by
  let told : Reply α → Reply α
    | .refused _ => .accepted (.flag false)
    | r => r
  have mapped : (Body.setShared v (.full f)).map id (fun r => Reply.accepted (.flag r)) =
      ((f.set v).map Body.full (Reply.outcome .flag)).map id told := by
    simp only [Body.setShared, Full.set]
    split <;> rfl
  rw [mapped]
  exact (set_guarded f v).map told rfl rfl (fun _ => rfl) (fun _ => rfl) (fun _ => rfl)
    fun _ _ taken => ⟨taken.error, taken.value, taken.staging, taken.history, taken.around⟩

theorem stage_guarded (v : α) :
    (stage v).Guarded type (.full f) ((f.stage v).map .full .done) := by
  apply Guarded.of_some rfl
  · intro message (hv : f.validation.run v = .error message)
    simp only [Full.stage, hv]
    rfl
  · intro y (hv : f.validation.run v = .ok y)
    simp only [Full.stage, hv]
    refine ⟨_, ?_, rfl⟩
    exact .of_kept rfl rfl rfl rfl rfl (by constructor <;> rfl)

theorem full_load_guarded (text : String) :
    (load text).Guarded type (.full f) ((f.load type text).map .full .done) := by
  cases read : type.read text with
  | none =>
    have absent : (load text).candidate type (.full f) = none := read
    apply Guarded.of_none absent
    simp only [Full.load, read]
    rfl
  | some v =>
    have present : (load text).candidate type (.full f) = some v := read
    apply Guarded.of_some present
    · intro message (hv : f.validation.run v = .error message)
      simp only [Full.load, read, hv]
      rfl
    · intro y (hv : f.validation.run v = .ok y)
      simp only [Full.load, read, hv]
      cases hy : f.cell.value == y with
      | true =>
        have kept : (load text).stores (.full f) y = false := congrArg not hy
        rw [Full.commitFrom_of_same (f := Full.revert { f with validation := f.validation.pass }) hy,
          told_of_kept kept]
        refine ⟨_, ?_, rfl⟩
        exact .of_kept kept rfl rfl rfl rfl (by constructor <;> rfl)
      | false =>
        have stored : (load text).stores (.full f) y = true := congrArg not hy
        rw [Full.commitFrom_of_differs (f := Full.revert { f with validation := f.validation.pass }) hy,
          told_of_stored stored]
        refine ⟨_, ?_, rfl⟩
        exact .of_stored stored rfl rfl rfl rfl (by constructor <;> rfl)

theorem full_drawn_guarded (before : Body α) (s : Stroke α) :
    (drawn before s).Guarded type (.full f)
      ((f.edit before.cell.mode before.immediate s.response s.value).map .full .flag) := by
  cases hc : s.response.changed && before.cell.mode == .editable with
  | false =>
    apply Guarded.of_none (by simp [candidate, editable, Cell.editable, hc])
    simp only [Full.edit, hc, Bool.false_eq_true, ↓reduceIte]
    rfl
  | true =>
    have present : (drawn before s).candidate type (.full f) = some s.value := by
      simp [candidate, editable, Cell.editable, hc]
    apply Guarded.of_some present
    · intro message (hv : f.validation.run s.value = .error message)
      simp only [Full.edit, hc, ↓reduceIte, Full.stage, hv]
      rfl
    · intro y (hv : f.validation.run s.value = .ok y)
      rw [Full.edit_of_accepted hc hv]
      cases hs : (drawn before s).stores (.full f) y with
      | false =>
        have waits : (before.immediate && y != f.cell.value) = false := hs
        rw [told_of_kept hs, waits]
        refine ⟨_, ?_, rfl⟩
        exact .of_drawn_kept hs rfl rfl rfl rfl (by constructor <;> rfl)
      | true =>
        have applied : (before.immediate && y != f.cell.value) = true := hs
        rw [told_of_stored hs, applied]
        refine ⟨_, ?_, rfl⟩
        exact .of_stored hs rfl rfl (if_pos hs).symm rfl (by constructor <;> rfl)

end Fulls

def enter (run : World.Runner α) (key : Nat) (w : World α) : Entrance α → World α × Reply α
  | set v => w.exec run key (.edit (.set v))
  | trySet v => w.exec run key (.edit (.trySet v))
  | stage v => w.exec run key (.edit (.stage v))
  | load text => w.exec run key (.edit (.load text))
  | setText text => w.exec run key (.call (.setValueText text))
  | throughHandle v => w.exec run key (.setThroughHandle v)
  | drawn before s =>
    let (w, changed) := w.finishDraw run key before s
    (w, .flag changed)

end Entrance

namespace World

variable {w : World α} {key : Nat} {m : Member α} {run : Runner α}

theorem settle_map {ρ π : Type} (g : ρ → π) (s : Step (Body α) α ρ) :
    w.settle run key (s.map id g) = ((w.settle run key s).1, g (w.settle run key s).2) := by
  unfold settle
  simp only [Step.map, id]
  cases s.change <;> rfl

/-- A member has another body, and some events were recorded. Nobody has acted on it yet. -/
def exchange (w : World α) (key : Nat) (m : Member α) (b : Body α) (events : List (Event α)) :
    World α :=
  { w.setMember key { m with body := b } with log := w.log ++ events }

omit [BEq α] in
theorem value?_exchange (hm : w.member? key = some m) (b : Body α) (events : List (Event α)) :
    (w.exchange key m b events).value? key = some b.value :=
  value?_of_member? (member?_setMember_self hm { m with body := b })

/-- A step that tells of no change is over once the body is in its place. -/
theorem settle_of_untold {ρ : Type} (hm : w.member? key = some m) {s : Step (Body α) α ρ}
    (untold : s.change = none) : w.settle run key s =
      (w.exchange key m s.state (s.checked.toList.map (.validated key)), s.reply) := by
  have noted : (w.noteCheck key s.checked).member? key = some m := (member?_noteCheck ..).trans hm
  simp only [settle, untold, mapBody_of_member? noted]
  cases s.checked with
  | none => simp [noteCheck, exchange, setMember]
  | some v => rfl

/-- Whoever is told of a change finds it made: the body is in its place and the commit is recorded
before the first listener runs. -/
theorem settle_of_told {ρ : Type} (hm : w.member? key = some m) {s : Step (Body α) α ρ}
    {change : Change α} (told : s.change = some change) : w.settle run key s =
      ((((w.exchange key m s.state
        (s.checked.toList.map (.validated key) ++ [.committed key change])).notify run key
          change).push run key).1, s.reply) := by
  have noted : (w.noteCheck key s.checked).member? key = some m := (member?_noteCheck ..).trans hm
  simp only [settle, told, mapBody_of_member? noted, announce]
  cases s.checked with
  | none => rfl
  | some v => simp [noteCheck, exchange, setMember, record]

/-- What bringing in a candidate comes to. When a commit is told, the listeners and the setter find the
value in its place. -/
structure Admission (w : World α) (key : Nat) (m : Member α) (run : Runner α) (e : Entrance α)
    (result : World α × Reply α) : Prop where
  unreadable : e.candidate m.type m.body = none → result = (w, e.failure m.type)
  refused : ∀ v message, e.candidate m.type m.body = some v →
    m.body.validation.run v = .error message →
    result = ((w.noteCheck key (m.body.validation.checked v)).mapBody key (Body.refuse message),
      e.refusal message)
  accepted : ∀ v y, e.candidate m.type m.body = some v → m.body.validation.run v = .ok y →
    ∃ b, e.Takes m.body y b ∧
      let checks := (m.body.validation.checked v).toList.map (Event.validated key)
      (e.told m.body y = none → result = (w.exchange key m b checks, e.acceptance m.body y)) ∧
      ∀ change, e.told m.body y = some change →
        result = ((((w.exchange key m b (checks ++ [.committed key change])).notify run key
          change).push run key).1, e.acceptance m.body y)

/-- What a step makes of a body is what the world has in its place when the step is settled. -/
theorem admission_settle (hm : w.member? key = some m) {e : Entrance α}
    {s : Step (Body α) α (Reply α)} (h : e.Guarded m.type m.body s) :
    w.Admission key m run e (w.settle run key s) := by
  refine ⟨fun hc => ?_, fun v message hc hv => ?_, fun v y hc hv => ?_⟩
  · rw [h.unreadable hc]
    simp only [settle, noteCheck, mapBody_self hm]
  · have noted : (w.noteCheck key (m.body.validation.checked v)).member? key = some m :=
      (member?_noteCheck ..).trans hm
    rw [h.refused v message hc hv]
    simp only [settle, mapBody_of_member? noted]
  · obtain ⟨b, taken, rfl⟩ := h.accepted v y hc hv
    exact ⟨b, taken, fun untold => settle_of_untold hm untold, fun _ told => settle_of_told hm told⟩

/-- Loading through the string capability is a load whose reply only tells success from failure. -/
theorem exec_setValueText (hm : w.member? key = some m)
    (answers : m.interface.answers .string = true) {text : String} {s : Step (Body α) α (Reply α)}
    (hs : (Edit.load text).step m.type m.body = some s) :
    w.exec run key (.call (.setValueText text)) = w.settle run key (s.map id Call.succeeded) := by
  rw [exec_call_of_answers (c := .setValueText text) hm answers nofun]
  simp only [Call.step, Call.edit, hs]

theorem enter_drawn (hm : w.member? key = some m) (before : Body α) (s : Stroke α) :
    (Entrance.drawn before s).enter run key w =
      w.settle run key ((Body.edit before s.response s.value m.body).map id .flag) := by
  rw [settle_map]
  simp only [Entrance.enter, finishDraw, hm]

/-- Every entrance of a configuration value comes to one step that minds the validator. -/
theorem enter_config {c : Config α} (hm : w.member? key = some m) (hc : m.body = .config c)
    {e : Entrance α} (suits : e.Suits (.config c)) :
    ∃ s, e.Guarded m.type (.config c) s ∧ e.enter run key w = w.settle run key s := by
  have request : ∀ {ed : Edit α} {s : Step (Body α) α (Reply α)},
      ed.step m.type (.config c) = some s → w.exec run key (.edit ed) = w.settle run key s := by
    intro ed s hs
    simp only [exec, hm, hc, hs]
  cases e
  case trySet v => exact ⟨_, Entrance.trySet_guarded c v, request rfl⟩
  case load text => exact ⟨_, Entrance.config_load_guarded c text, request rfl⟩
  case setText text =>
    have answers : m.interface.answers .string = true := by
      rw [Member.interface, Interface.answers_plain, hc]
      exact (by decide : Kind.config.capabilities.declares .string = true)
    exact ⟨_, (Entrance.config_load_guarded c text).setText, exec_setValueText hm answers (hc ▸ rfl)⟩
  case drawn before s =>
    refine ⟨_, Entrance.config_drawn_guarded c before s, ?_⟩
    rw [enter_drawn hm, hc]
    rfl
  all_goals exact suits.elim

/-- Every entrance of a full value comes to one step that minds the validator. -/
theorem enter_full {f : Full α} (hm : w.member? key = some m) (hf : m.body = .full f)
    {e : Entrance α} (suits : e.Suits (.full f)) :
    ∃ s, e.Guarded m.type (.full f) s ∧ e.enter run key w = w.settle run key s := by
  have request : ∀ {ed : Edit α} {s : Step (Body α) α (Reply α)},
      ed.step m.type (.full f) = some s → w.exec run key (.edit ed) = w.settle run key s := by
    intro ed s hs
    simp only [exec, hm, hf, hs]
  cases e
  case set v => exact ⟨_, Entrance.set_guarded f v, request rfl⟩
  case stage v => exact ⟨_, Entrance.stage_guarded f v, request rfl⟩
  case load text => exact ⟨_, Entrance.full_load_guarded f text, request rfl⟩
  case setText text =>
    have answers : m.interface.answers .string = true := by
      rw [Member.interface, Interface.answers_plain, hf]
      exact (by decide : Kind.full.capabilities.declares .string = true)
    exact ⟨_, (Entrance.full_load_guarded f text).setText, exec_setValueText hm answers (hf ▸ rfl)⟩
  case throughHandle v =>
    refine ⟨_, Entrance.throughHandle_guarded f v, ?_⟩
    rw [settle_map]
    simp only [Entrance.enter, exec, hm, hf, Body.shared, execShared, setShared]
    rfl
  case drawn before s =>
    refine ⟨_, Entrance.full_drawn_guarded f before s, ?_⟩
    rw [enter_drawn hm, hf]
    rfl
  all_goals exact suits.elim

/-- The world in which a widget's edit is taken: the widget was shown the value and wrote to others,
and the hooks ran. -/
def shown (run : Runner α) (key : Nat) (m : Member α) (label : String) (s : Stroke α)
    (w : World α) : World α :=
  (s.pokes.foldl (fun w p => w.poke run p) ((w.record (.drew key (m.picture label))).modify key
    fun m => { m with drawn := m.drawn + 1 })).runHooks run key m.body.hooks s.response

/-- A draw takes the widget's edit in the world that the widget and the hooks leave behind. -/
theorem draw_of_shown (hm : w.member? key = some m) {widget : Widget α}
    (hw : m.widget = some widget) {label : String} {stroke : Stroke α}
    (hs : widget m.drawn (m.picture label) = stroke) {n : Member α}
    (hn : (w.shown run key m label stroke).member? key = some n) :
    w.draw run key label = (w.shown run key m label stroke).settle run key
      (Body.edit m.body stroke.response stroke.value n.body) := by
  have finishes : w.draw run key label =
      (w.shown run key m label stroke).finishDraw run key m.body stroke := by
    simp only [draw, hm, hw, hs, shown]
  rw [finishes]
  simp only [finishDraw, hn]

/-- A widget that only edits the value, without hooks that act, leaves the value as it was shown. -/
theorem body?_shown (hm : w.member? key = some m) {label : String} {s : Stroke α}
    (pokes : s.pokes = []) (hooks : ∀ h ∈ m.body.hooks.due s.response.hovered s.response.menu,
      h.2.script = none) : (w.shown run key m label s).body? key = some m.body := by
  have hm' : (w.record (.drew key (m.picture label))).member? key = some m := hm
  simp only [shown, pokes, List.foldl_nil, modify_of_member? hm']
  rw [body?_runHooks hooks, body?_setMember hm', if_pos rfl]

/-- **Admission.** Through every entrance of a value that validates: an unreadable text changes
nothing at all; a refused candidate leaves its message behind and nothing else, and nobody hears of it
but the validator; of an accepted one exactly what the validator gave is staged or committed. A draw
brings its candidate in when the widget and the hooks are done, and these leave the value alone when
they only look at it. -/
theorem admission (hm : w.member? key = some m) (depth : Nat) :
    (∀ e : Entrance α, e.Suits m.body →
      w.Admission key m (react depth) e (e.enter (react depth) key w)) ∧
    (∀ name v, m.body.shared = true → w.handleKey? name = some key →
      w.execHandle (react depth) name (.set v) =
        (Entrance.throughHandle v).enter (react depth) key w) ∧
    ∀ label widget, m.widget = some widget →
      w.exec (react depth) key (.draw label) =
        (Entrance.drawn m.body (widget m.drawn (m.picture label))).enter (react depth) key
          (w.shown (react depth) key m label (widget m.drawn (m.picture label))) ∧
      ((widget m.drawn (m.picture label)).pokes = [] →
        (∀ h ∈ m.body.hooks.due (widget m.drawn (m.picture label)).response.hovered
          (widget m.drawn (m.picture label)).response.menu, h.2.script = none) →
        (w.shown (react depth) key m label (widget m.drawn (m.picture label))).body? key =
          some m.body) := by
  refine ⟨fun e suits => ?_, fun name v shared named => ?_, fun label widget hw => ⟨?_, ?_⟩⟩
  · have entered : ∃ s, e.Guarded m.type m.body s ∧
        e.enter (react depth) key w = w.settle (react depth) key s := by
      cases hb : m.body with
      | config c => exact enter_config hm hb (hb ▸ suits)
      | full f => exact enter_full hm hb (hb ▸ suits)
      | plain p | monitored m | captioned m caption =>
        rw [hb] at suits
        cases e <;> exact suits.elim
    obtain ⟨s, guarded, enters⟩ := entered
    rw [enters]
    exact admission_settle hm guarded
  · simp only [execHandle, named, Entrance.enter, exec, hm, shared, ↓reduceIte, execShared]
  · simp only [exec, hm, draw, hw, Entrance.enter, shown]
  · exact body?_shown hm

def bounded : World Nat :=
  (solo .full true).serve 0
    (.command 0 (.edit (.setValidator fun n => if n ≤ 5 then .ok n else .error "too large")))

def rounding : World Nat :=
  (solo .full true).serve 0
    (.command 0 (.edit (.setValidator fun n => if n < 10 then .ok (n - n % 2) else .error "too large")))

theorem refuses_twelve_takes_seven_as_six :
    rounding.exec (react 1) 0 (.edit (.set 12)) =
        ((rounding.noteCheck 0 (some 12)).mapBody 0 (Body.refuse "too large"),
          .refused (.refused "too large")) ∧
      ∃ m b, rounding.member? 0 = some m ∧ b.value = 6 ∧ b.history = m.body.history.push 6 ∧
        b.validation.error = "" ∧
        rounding.exec (react 1) 0 (.edit (.set 7)) =
          ((((rounding.exchange 0 m b [.validated 0 7, .committed 0 ⟨0, 6⟩]).notify (react 1) 0
            ⟨0, 6⟩).push (react 1) 0).1, .accepted (.flag true)) := by
  have hm : rounding.member? 0 = some _ := rfl
  have entered (v : Nat) := (admission hm 1).1 (.set v) trivial
  obtain ⟨b, taken, -, told⟩ := (entered 7).accepted 7 6 rfl rfl
  refine ⟨(entered 12).refused 12 "too large" rfl rfl, _, b, hm, taken.value, taken.history, ?_, ?_⟩
  · rw [taken.error]
    rfl
  · exact told ⟨0, 6⟩ rfl

end World

end BoundValues
