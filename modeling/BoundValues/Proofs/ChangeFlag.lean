import BoundValues.Datum.IntegerType
import BoundValues.Proofs.Admission
import BoundValues.Proofs.Keeping
import BoundValues.Proofs.Marks
import BoundValues.Text.Blank

namespace BoundValues

variable {α : Type}

/-- Requests that may let a change go unnoticed: those that clear the flag, load a text, or reach into the
cell. -/
def Command.forgets : Command α → Bool
  | .clearChanged | .edit (.load _) | .call (.setValueText _) | .edit (.assignCell _) |
    .edit (.overwriteCell _) => true
  | _ => false

def Member.accepts? (m : Member α) (text : String) : Option α :=
  (m.type.read text).bind fun v => (m.body.validation.run v).toOption

namespace Config

variable [BEq α]

/-- An operation after which a change is still known, and its own is. A value that stays need not be
equal to itself. -/
structure Remembers (c c' : Config α) : Prop where
  still (changed : c.isChanged = true) : c'.isChanged = true
  noticed : c'.cell.value = c.cell.value ∨ (c'.cell.value == c.cell.value) = true ∨
    c'.isChanged = true

variable {c c' : Config α}

theorem remembers_of_same (value : c'.cell.value = c.cell.value) (flag : c'.cell.changed = c.cell.changed)
    (edited : c'.edited = c.edited) : c.Remembers c' :=
  ⟨fun changed => by rwa [isChanged, flag, edited], .inl value⟩

theorem remembers_of_changed (changed : c'.isChanged = true) : c.Remembers c' :=
  ⟨fun _ => changed, .inr (.inr changed)⟩

theorem Remembers.refl (c : Config α) : c.Remembers c := ⟨id, .inl rfl⟩

/-- What two operations remember is remembered by both in a row: a value that differs from the first
differs from the second, or the second from the third. -/
theorem Remembers.trans [PartialEquivBEq α] {c'' : Config α} (h : c.Remembers c')
    (h' : c'.Remembers c'') : c.Remembers c'' := by
  refine ⟨h'.still ∘ h.still, ?_⟩
  rcases h'.noticed with stays | equal | changed
  · rw [stays]
    exact h.noticed.imp_right (Or.imp_right h'.still)
  · rcases h.noticed with stays | equal' | changed
    · exact .inr (.inl (stays ▸ equal))
    · exact .inr (.inl (BEq.trans equal equal'))
    · exact .inr (.inr (h'.still changed))
  · exact .inr (.inr changed)

theorem trySet_remembers (c : Config α) (v : α) : c.Remembers (c.trySet v).state := by
  unfold trySet
  split <;> exact remembers_of_same rfl rfl rfl

/-- A change before the operation is still known, and so is one that the value shows afterwards. -/
theorem Remembers.known (h : c.Remembers c') {changed : Prop} (known : changed → c.isChanged = true)
    (now : changed ∨ c'.cell.value ≠ c.cell.value ∧ (c'.cell.value == c.cell.value) = false) :
    c'.isChanged = true := by
  rcases now with earlier | ⟨other, differs⟩
  · exact h.still (known earlier)
  · exact (h.noticed.resolve_left other).resolve_left (by simp [differs])

/-- A value that differs is assigned with the flag set. -/
theorem isChanged_of_assigned {v : α} (cell : c'.cell = c.cell.assign v)
    (differs : (v != c.cell.value) = true) : c'.isChanged = true := by
  simp [isChanged, cell, Cell.assign, differs]

/-- Only a staged value that differs is committed, so the flag is set. -/
theorem apply_remembers (c : Config α) : c.Remembers c.apply.state := by
  unfold apply
  split
  · rename_i taken
    obtain ⟨v, differs, same⟩ := Option.map_eq_some_iff.mp taken
    cases same
    exact remembers_of_changed (isChanged_of_assigned rfl (Option.filter_eq_some_iff.mp differs).2)
  · exact .refl c

theorem edit_remembers (c : Config α) (r : Response) (v : α) : c.Remembers (c.edit r v).state := by
  unfold edit
  split
  · dsimp only
    split
    · exact c.trySet_remembers v
    · refine remembers_of_changed (isChanged_of_edited ?_)
      dsimp only
      split
      · exact apply_edited _
      · rfl
  · exact .refl c

/-- Only a default that differs is committed, so the flag is set. -/
theorem reset_remembers [PartialEquivBEq α] (c : Config α) : c.Remembers c.reset.state := by
  unfold reset
  dsimp only
  split
  · exact remembers_of_same rfl rfl rfl
  · rename_i differs
    have differs : (c.fallback != c.cell.value) = true := by
      rw [bne, BEq.comm]
      simpa [revert] using differs
    exact remembers_of_changed (isChanged_of_assigned (v := c.fallback) rfl differs)

end Config

/-- An operation after which a change of a configuration value is still known, and its own is. -/
def Body.Remembers [BEq α] (b b' : Body α) : Prop := ∀ c, b = .config c → ∃ c', b' = .config c' ∧ c.Remembers c'

theorem Body.Refits.remembers [BEq α] {b b' : Body α} (h : b.Refits b') : b.Remembers b' := by
  rintro c rfl
  cases h with
  | same => exact ⟨c, rfl, .refl c⟩
  | config => exact ⟨_, rfl, Config.remembers_of_same rfl rfl rfl⟩

section Requests

variable [BEq α]

section Loading

theorem Config.load_untold (type : ValueType α) (c : Config α) (text : String) :
    (c.load type text).change = none := by
  unfold Config.load
  split
  · rfl
  · dsimp only
    split <;> rfl

variable {m : Member α} {c : Config α} (config : m.body = .config c) {text : String}

include config

/-- A text that is refused leaves a message behind and nothing else. -/
theorem Config.load_refused (refused : m.accepts? text = none) :
    ∃ validation, (c.load m.type text).state = { c with validation } := by
  unfold Config.load
  cases read : m.type.read text with
  | none => exact ⟨c.validation, rfl⟩
  | some candidate =>
    simp only [Member.accepts?, read, config, Option.bind_some] at refused
    cases valid : c.validation.run candidate with
    | error message => exact ⟨c.validation.refuse message, by simp only [valid]⟩
    | ok accepted =>
      have run : (Body.config c).validation.run candidate = .ok accepted := valid
      rw [run] at refused
      cases refused

theorem Config.load_accepted {y : α} (accepted : m.accepts? text = some y) :
    (c.load m.type text).state = { c with
      staging := c.staging.revert, cell := c.cell.assign y, source := .config
      validation := c.validation.pass } := by
  unfold Config.load
  obtain ⟨candidate, read, valid⟩ := Option.bind_eq_some_iff.mp accepted
  simp only [read]
  cases run : c.validation.run candidate with
  | error message =>
    have refused : m.body.validation.run candidate = .error message := by rw [config]; exact run
    rw [refused] at valid
    cases valid
  | ok y' =>
    have same : m.body.validation.run candidate = .ok y' := by rw [config]; exact run
    rw [same] at valid
    cases valid
    rfl

/-- A text that is accepted as another value is noticed, and one that is refused changes nothing. -/
theorem Config.load_remembers (new : (m.accepts? text).all (· != c.cell.value) = true) :
    c.Remembers (c.load m.type text).state := by
  cases accepted : m.accepts? text with
  | none =>
    obtain ⟨_, same⟩ := Config.load_refused config accepted
    rw [same]
    exact remembers_of_same rfl rfl rfl
  | some y =>
    rw [accepted, Option.all_some] at new
    rw [Config.load_accepted config accepted]
    exact remembers_of_changed (isChanged_of_assigned rfl new)

/-- A text that is accepted as a value equal to the committed one clears the flag of the cell. -/
theorem Config.load_forgets {y : α} (accepted : m.accepts? text = some y)
    (again : (y == c.cell.value) = true) :
    (c.load m.type text).state.cell.value = y ∧ (c.load m.type text).state.isChanged = c.edited := by
  rw [Config.load_accepted config accepted]
  simp [Cell.assign, isChanged, bne, again]

end Loading

variable [PartialEquivBEq α]

theorem Edit.step_remembers {type : ValueType α} {b : Body α} {e : Edit α}
    {s : Step (Body α) α (Reply α)} (keeps : (Command.edit e).forgets = false)
    (known : e.step type b = some s) : b.Remembers s.state := by
  rintro c rfl
  cases e <;>
    simp only [Edit.step, Edit.onConfig, Edit.onCell, Edit.settled, Option.some.injEq, reduceCtorEq] at known
  all_goals subst known
  case trySet v => exact ⟨_, rfl, c.trySet_remembers v⟩
  case apply => exact ⟨_, rfl, c.apply_remembers⟩
  case reset => exact ⟨_, rfl, c.reset_remembers⟩
  case load | assignCell | overwriteCell => cases keeps
  all_goals exact ⟨_, rfl, Config.remembers_of_same rfl rfl rfl⟩

theorem Call.step_remembers {m : Member α} {c : Call}
    (keeps : (Command.call c : Command α).forgets = false) : m.body.Remembers (c.step m).state := by
  refine Call.step_along (fun e s stands known => ?_) fun b refits => refits.remembers
  exact Edit.step_remembers (by cases c <;> cases stands <;> exact keeps) known

end Requests

namespace World

def remembering (key : Nat) : Rules α := .commands fun k c => k = key → c.forgets = false

def Remembering [BEq α] (key k : Nat) (b b' : Body α) (_ : Option (Change α)) : Prop :=
  k = key → b.Remembers b'

section Courses

variable {key : Nat} {changed : Prop} {w w' start : World α} {p : Config α → Prop}

theorem value?_of_config {c : Config α} (body : w.body? key = some (.config c)) :
    w.value? key = some c.cell.value := by
  rw [value?, body]
  rfl

variable [BEq α]

theorem turns_remember {m m' : Member α} (h : m.Turns (remembering key) (Remembering key) key m') :
    m.body.Remembers m'.body := by
  obtain ⟨type, body, hints, widget, drawn, connections⟩ := m
  rintro c ⟨⟩
  cases h with
  | cell g kept =>
    obtain ⟨value, flag⟩ := kept c.cell
    exact ⟨_, rfl, Config.remembers_of_same value flag rfl⟩
  | clearChanged clears => exact absurd (clears rfl) nofun
  | step h => exact h rfl c rfl
  | _ => exact ⟨_, rfl, .refl c⟩

/-- A text is loaded without anybody being told. -/
theorem exec_load_of_config {run : Runner α} {m : Member α} {c : Config α}
    (hm : w.member? key = some m) (config : m.body = .config c) {text : String} {cmd : Command α}
    (load : cmd ∈ [.edit (.load text), .call (.setValueText text)]) :
    (∀ r, w.Obeys r → (w.exec run key cmd).1.Obeys r) ∧
      (w.exec run key cmd).1.body? key = some (.config (c.load m.type text).state) := by
  have known : (Edit.load text).step m.type m.body =
      some ((c.load m.type text).map .config Reply.done) := by
    rw [config]
    rfl
  have settles : (w.exec run key cmd).1 =
      (w.settle run key ((c.load m.type text).map .config (@Reply.done α))).1 := by
    simp only [List.mem_cons, List.not_mem_nil, or_false] at load
    rcases load with rfl | rfl
    · simp only [exec, hm, known]
    · have answers : m.interface.answers .string = true := by
        rw [Member.interface, Interface.answers_plain, config]
        exact (by decide : Kind.config.capabilities.declares .string = true)
      rw [exec_setValueText hm answers known, settle_map]
  rw [settles, settle_of_untold hm (Config.load_untold m.type c text)]
  exact ⟨fun r obeys => obeys.congr rfl rfl, body?_of_member? (member?_setMember_self hm _)⟩

def Replaces (key : Nat) (w w' : World α) : Prop :=
  w'.value? key ≠ w.value? key ∧ (w'.value? key == w.value? key) = false

theorem replaces_of_config {c c' : Config α} (replaces : Replaces key w w')
    (body : w.body? key = some (.config c)) (body' : w'.body? key = some (.config c')) :
    c'.cell.value ≠ c.cell.value ∧ (c'.cell.value == c.cell.value) = false := by
  simpa [Replaces, value?_of_config body, value?_of_config body'] using replaces

variable [PartialEquivBEq α]

theorem steps_remember (key k : Nat) :
    Body.Steps ((remembering key : Rules α).command k) ((remembering key : Rules α).Pokes k)
      (Remembering key k) where
  written b v _ _ := by
    rintro c rfl
    exact ⟨c, rfl, .refl c⟩
  drawn b before r v _ _ _ := by
    rintro c rfl
    exact ⟨_, rfl, c.edit_remembers r v⟩
  called _ _ h hk := Call.step_remembers (h hk)
  edited _ _ _ _ h known hk := Edit.step_remembers (h hk) known

/-- What such operations keep, every such request keeps, however deep scripts are nested. -/
theorem remembering_course (key : Nat) (kept : ∀ {c c' : Config α}, c.Remembers c' → p c → p c') :
    Course (remembering key : Rules α) (Remembering key)
      (Keeping key fun m => ∃ c, m.body = .config c ∧ p c) := by
  have keeps {b b' : Body α} (h : b.Remembers b') :
      (∃ c, b = .config c ∧ p c) → ∃ c, b' = .config c ∧ p c := by
    rintro ⟨c, config, here⟩
    obtain ⟨c', config', step⟩ := h c config
    exact ⟨c', config', kept step here⟩
  refine keeping_course (steps_remember key) (fun b v _ _ => ?_) (fun h => keeps (turns_remember h))
    fun h => keeps (h rfl)
  rintro c rfl
  exact ⟨c, rfl, .refl c⟩

/-- Whatever such a request sets off, it leaves a value that remembers. -/
theorem serve_remembers (obeys : w.Obeys (remembering key)) {c : Config α}
    (body : w.body? key = some (.config c)) {q : Request α} (admits : (remembering key).Admits q)
    (depth : Nat) :
    (w.serve depth q).Obeys (remembering key) ∧
      ∃ c', (w.serve depth q).body? key = some (.config c') ∧ c.Remembers c' := by
  have C := remembering_course key (p := c.Remembers) fun step kept => kept.trans step
  obtain ⟨obeys', keeping⟩ := C.serve admits depth w obeys
  obtain ⟨m, hm, config⟩ := member?_of_body? body
  obtain ⟨m', hm', c', config', remembers⟩ := keeping ⟨m, hm, c, config, .refl c⟩
  exact ⟨obeys', c', by rw [body?_of_member? hm', config'], remembers⟩

/-- What a world comes to by requests of all sorts but clearing the flag. `changed` is whether one of them
replaced the committed value by a different one, and no text was loaded as the committed value since. -/
inductive Revised (key : Nat) (start : World α) : Prop → World α → Prop
  | start : Revised key start False start
  | request {changed : Prop} {w : World α} (h : Revised key start changed w) {q : Request α}
      (admits : (remembering key).Admits q) (depth : Nat) :
      Revised key start (changed ∨ Replaces key w (w.serve depth q)) (w.serve depth q)
  | load {changed : Prop} {w : World α} (h : Revised key start changed w) {m : Member α}
      (hm : w.member? key = some m) {text : String} {cmd : Command α}
      (load : cmd ∈ [.edit (.load text), .call (.setValueText text)]) (depth : Nat) :
      Revised key start
        ((m.accepts? text).all (· != m.body.value) = true ∧
          (changed ∨ Replaces key w (w.exec (react depth) key cmd).1))
        (w.exec (react depth) key cmd).1

/-- Induction on the requests, with the value as it was after each of them. -/
theorem Revised.known (revised : Revised key start changed w) {c : Config α}
    (body : start.body? key = some (.config c)) (obeys : start.Obeys (remembering key)) :
    w.Obeys (remembering key) ∧
      ∃ c, w.body? key = some (.config c) ∧ (changed → c.isChanged = true) := by
  induction revised with
  | start => exact ⟨obeys, c, body, False.elim⟩
  | request h admits depth ih =>
    obtain ⟨obeys', c', body', known⟩ := ih
    obtain ⟨obeys'', c'', body'', remembers⟩ := serve_remembers obeys' body' admits depth
    exact ⟨obeys'', c'', body'', fun now =>
      remembers.known known (now.imp_right fun h => replaces_of_config h body' body'')⟩
  | @load changed w h m hm text cmd load depth ih =>
    obtain ⟨obeys', c', body', known⟩ := ih
    have config : m.body = .config c' := by
      rw [body?_of_member? hm] at body'
      exact Option.some.inj body'
    obtain ⟨keeps, body''⟩ := exec_load_of_config hm config load
    refine ⟨keeps _ obeys', _, body'', fun ⟨new, now⟩ => ?_⟩
    rw [config] at new
    exact (Config.load_remembers config new).known known
      (now.imp_right fun h => replaces_of_config h body' body'')

/-- **A change is remembered, unless an equal value is loaded over it.** Whatever is requested of a
configuration value and whatever that sets off: once the committed value was replaced by a different
one, the value is changed until the flag is cleared, as long as no text is loaded that is accepted
as an equal of the value committed then. Any such load leaves the value equal to what it was, and a
change known only by an edit at the widget. -/
theorem change_is_remembered {c : Config α} (body : start.body? key = some (.config c))
    (obeys : start.Obeys (remembering key)) (revised : Revised key start changed w) :
    ∃ m c, w.member? key = some m ∧ m.body = .config c ∧
      (changed → ∀ run, w.exec run key .isChanged = (w, .flag true)) ∧
      ∀ text y, m.accepts? text = some y → (y == c.cell.value) = true →
        ∀ cmd ∈ [.edit (.load text), .call (.setValueText text)], ∀ run,
          ∃ c', (w.exec run key cmd).1.body? key = some (.config c') ∧
            c'.cell.value = y ∧ c'.isChanged = c.edited := by
  obtain ⟨-, c', body', known⟩ := revised.known body obeys
  obtain ⟨m, hm, config⟩ := member?_of_body? body'
  refine ⟨m, c', hm, config, fun earlier run => ?_, fun text y accepted again cmd load run => ?_⟩
  · have flag : m.body.isChanged = true := by
      rw [config]
      exact known earlier
    simp only [exec, hm, flag]
  · exact ⟨_, (exec_load_of_config hm config load).2, Config.load_forgets config accepted again⟩

end Courses

def preference : World Int :=
  create (react 0) "v"
    { kind := .config, initial := 0, outside := 0
      type :=
        ⟨"i32", fun _ i => String.ofList (Text.intText i),
          fun text => IntegerType.i32.read (Text.trim text.toList)⟩ }
    {}

/-- A value that was changed by loading a text. Then an edit was staged and reverted. -/
def amended : World Int :=
  ((preference.exec (react 1) 0 (.edit (.load "5"))).1.serve 1 (.command 0 (.edit (.stage 7)))).serve 1
    (.command 0 (.edit .revert))

/-- An edit that is staged and reverted does not hide the change. -/
theorem amended_is_changed : amended.value? 0 = some 5 ∧
    amended.exec (react 1) 0 .isChanged = (amended, .flag true) := by
  have obeys : preference.Obeys (remembering 0) := ⟨nofun, fun _ _ _ => trivial⟩
  have staged : (remembering 0).Admits (.command 0 (.edit (.stage 7)) : Request Int) :=
    .command (.of_plain (fun _ => rfl) rfl)
  have reverted : (remembering 0).Admits (.command 0 (.edit .revert) : Request Int) :=
    .command (.of_plain (fun _ => rfl) rfl)
  have load : (.edit (.load "5") : Command Int) ∈ [.edit (.load "5"), .call (.setValueText "5")] := by simp
  have begun : Revised 0 preference False preference := .start
  have revised := ((begun.load rfl load 1).request staged 1).request reverted 1
  obtain ⟨-, -, -, -, known, -⟩ := change_is_remembered rfl obeys revised
  refine ⟨rfl, known (.inl (.inl ?_)) (react 1)⟩
  exact ⟨by decide, .inr ⟨by decide, by decide⟩⟩

/-- A text is loaded twice. The value is another one than at the start, and nothing tells. -/
theorem reload_unnoticed :
    let w := (preference.exec (react 1) 0 (.edit (.load "5"))).1
    let w' := (w.exec (react 1) 0 (.edit (.load "5"))).1
    preference.value? 0 = some 0 ∧ w'.value? 0 = some 5 ∧
      (w.exec (react 1) 0 .isChanged).2 = .flag true ∧
      (w'.exec (react 1) 0 .isChanged).2 = .flag false :=
  ⟨rfl, rfl, rfl, rfl⟩

end World

end BoundValues
