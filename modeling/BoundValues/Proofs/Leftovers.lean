import BoundValues.Proofs.Keeping
import BoundValues.Proofs.Tame

namespace BoundValues

variable {α : Type}

/-- Requests after which an edit may be staged that was not before, or immediate mode may be off. -/
def Command.stages : Command α → Bool
  | .draw _ | .edit (.stage _) | .call (.setImmediate false) => true
  | _ => false

/-- An operation that stages nothing: what is staged stays or is dropped, and immediate mode stays. -/
structure Full.Sheds (f f' : Full α) : Prop where
  immediate : f.immediate = true → f'.immediate = true
  pending : f'.staging.pending = none ∨ f'.staging.pending = f.staging.pending

def Body.Sheds (b b' : Body α) : Prop := ∀ f, b = .full f → ∃ f', b' = .full f' ∧ f.Sheds f'

/-- A full value in immediate mode where nothing is staged, or only what was left over. -/
def Body.Retains (left : Option α) (b : Body α) : Prop :=
  ∃ f, b = .full f ∧ f.immediate = true ∧ (f.staging.pending = none ∨ f.staging.pending = left)

/-- Nothing is added to what is left over by an operation that stages nothing. -/
theorem Body.Retains.sheds {left : Option α} {b b' : Body α} (h : b.Retains left)
    (sheds : b.Sheds b') : b'.Retains left := by
  obtain ⟨f, rfl, immediate, pending⟩ := h
  obtain ⟨f', rfl, kept, staged⟩ := sheds f rfl
  refine ⟨f', rfl, kept immediate, ?_⟩
  rcases staged with none | same
  · exact .inl none
  · exact same ▸ pending

namespace Full

theorem Sheds.refl (f : Full α) : f.Sheds f := ⟨id, .inr rfl⟩

variable [BEq α] (f : Full α)

theorem commitFrom_sheds (v : α) (source : Source) : f.Sheds (f.commitFrom v source).1 := by
  unfold commitFrom
  split <;> exact ⟨id, .inr rfl⟩

theorem set_sheds (v : α) : f.Sheds (f.set v).state := by
  unfold set
  split
  · exact ⟨id, .inr rfl⟩
  · rename_i accepted _
    obtain ⟨immediate, pending⟩ :=
      commitFrom_sheds { f with validation := f.validation.pass } accepted .user
    exact ⟨immediate, pending⟩

/-- An apply drops what it commits, and otherwise nothing. -/
theorem apply_sheds : f.Sheds f.apply.state := by
  unfold apply
  split
  · exact .refl f
  · rename_i taken
    obtain ⟨_, -, same⟩ := Option.map_eq_some_iff.mp taken
    cases same
    exact ⟨id, .inl rfl⟩

theorem step_sheds (forward : Bool) : f.Sheds (f.step forward).state := by
  unfold step
  split <;> exact ⟨id, .inr rfl⟩

/-- An edit that is staged but does not wait stays when a pull commits. -/
theorem commitPulled_sheds (v : α) : f.Sheds (f.commitPulled v).state := by
  unfold commitPulled
  split <;> exact ⟨id, .inr rfl⟩

theorem reset_sheds : f.Sheds f.reset.state := by
  obtain ⟨immediate, pending⟩ := f.revert.commitFrom_sheds f.fallback .default
  exact ⟨immediate, pending.elim .inl .inl⟩

theorem load_sheds (type : ValueType α) (text : String) : f.Sheds (f.load type text).state := by
  unfold load
  split
  · exact .refl f
  · split
    · exact ⟨id, .inr rfl⟩
    · rename_i accepted _
      obtain ⟨immediate, pending⟩ :=
        (revert { f with validation := f.validation.pass }).commitFrom_sheds accepted .config
      exact ⟨immediate, pending.elim .inl .inl⟩

end Full

section Requests

variable [BEq α]

theorem Edit.step_sheds {type : ValueType α} {b : Body α} {e : Edit α}
    {s : Step (Body α) α (Reply α)} (settles : ∀ v, e ≠ .stage v) (known : e.step type b = some s) :
    b.Sheds s.state := by
  rintro f rfl
  cases e <;> simp only [Edit.step, Edit.onFull, Edit.settled, Option.some.injEq, reduceCtorEq] at known
  all_goals subst known
  case set v => exact ⟨_, rfl, f.set_sheds v⟩
  case stage v => exact absurd rfl (settles v)
  case apply => exact ⟨_, rfl, f.apply_sheds⟩
  case revert => exact ⟨_, rfl, id, .inl rfl⟩
  case undo => exact ⟨_, rfl, f.step_sheds false⟩
  case redo => exact ⟨_, rfl, f.step_sheds true⟩
  case reset => exact ⟨_, rfl, f.reset_sheds⟩
  case load text => exact ⟨_, rfl, f.load_sheds type text⟩
  all_goals exact ⟨_, rfl, id, .inr rfl⟩

theorem Call.edit_sheds {m : Member α} {e : Edit α} {g : Reply α → Reply α}
    (settles : ∀ v, e ≠ .stage v) : m.body.Sheds (Call.edit m e g).state := by
  unfold Call.edit
  split
  · rename_i s known
    exact Edit.step_sheds (s := s) settles known
  · exact fun f hf => ⟨f, hf, .refl f⟩

theorem Call.step_sheds {m : Member α} {c : Call}
    (settles : (Command.call c : Command α).stages = false) : m.body.Sheds (c.step m).state := by
  cases c
  case apply | revert | undo | redo | setValueText => exact Call.edit_sheds nofun
  case setImmediate on =>
    cases on with
    | false => cases settles
    | true =>
      rintro f hf
      simp only [Call.step, hf]
      exact ⟨_, rfl, fun _ => rfl, .inr rfl⟩
  case validate | clear | setVisible | setAdvanced | setGroup | setShown | setTemplate |
      setTooltipHook | setMenuHook =>
    rintro f hf
    simp only [Call.step, hf]
    exact ⟨_, rfl, id, .inr rfl⟩
  all_goals exact fun f hf => ⟨f, hf, .refl f⟩

theorem Body.setShared_sheds (b : Body α) (v : α) : b.Sheds (b.setShared v).state := by
  rintro f rfl
  exact ⟨_, rfl, f.set_sheds v⟩

theorem Body.commitPulled_sheds (b : Body α) (v : α) : b.Sheds (b.commitPulled v).state := by
  rintro f rfl
  exact ⟨_, rfl, f.commitPulled_sheds v⟩

end Requests

namespace World

def stagesNothing (key : Nat) : Rules α := .commands fun k c => k = key → c.stages = false

def Shedding (key k : Nat) (b b' : Body α) (_ : Option (Change α)) : Prop := k = key → b.Sheds b'

section Requests

variable {key : Nat} {left : Option α}

/-- Of what becomes of a member in one go, only operations touch what is staged. -/
theorem turns_retain {m m' : Member α} (h : m.Turns (stagesNothing key) (Shedding key) key m')
    (retains : m.body.Retains left) : m'.body.Retains left := by
  obtain ⟨type, body, hints, widget, drawn, connections⟩ := m
  cases h with
  | step h => exact retains.sheds (h rfl)
  | _ =>
    obtain ⟨f, rfl, kept⟩ := retains
    exact ⟨_, rfl, kept⟩

variable [BEq α]

theorem steps_shed (key k : Nat) :
    Body.Steps ((stagesNothing key : Rules α).command k) ((stagesNothing key : Rules α).Pokes k)
      (Shedding key k) where
  written b v _ _ := b.setShared_sheds v
  drawn _ _ _ _ _ h hk := nomatch h hk
  called _ _ h hk := Call.step_sheds (h hk)
  edited _ _ _ _ h known hk := by
    refine Edit.step_sheds ?_ known
    rintro v rfl
    cases h hk

/-- Whatever stages nothing leaves nothing more behind, however deep scripts are nested. -/
theorem retaining_course (key : Nat) (left : Option α) :
    Course (stagesNothing key : Rules α) (Shedding key)
      (Keeping key fun m => m.body.Retains left) :=
  keeping_course (steps_shed key) (fun b v _ _ => b.commitPulled_sheds v) turns_retain
    fun h retains => retains.sheds (h rfl)

end Requests

end World

/-- What an edit of a widget leaves staged in immediate mode: a value that is accepted although it is
the committed one. The widget was shown the value `before`. -/
def Body.leaves [BEq α] (before : Body α) (s : Stroke α) (b : Body α) : Option α :=
  if s.response.changed && before.cell.mode == .editable then
    match b.validation.run s.value with
    | .ok y => if y == b.value then some y else none
    | .error _ => none
  else none

section Edits

variable [BEq α] {before : Body α} (immediate : before.immediate = true) (s : Stroke α) (f : Full α)

include immediate

/-- Applying at once finds nothing to commit, and drops nothing. -/
theorem Body.edit_leaves {y : α} (leaves : before.leaves s (.full f) = some y) :
    ∃ f', (Body.edit before s.response s.value (.full f)).state = .full f' ∧
      (Body.edit before s.response s.value (.full f)).change = none ∧
      f'.immediate = f.immediate ∧ f'.staging.pending = some y ∧ (y == f'.cell.value) = true := by
  unfold Body.leaves at leaves
  by_cases taken : (s.response.changed && before.cell.mode == .editable) = true
  · rw [if_pos taken] at leaves
    change (match f.validation.run s.value with
      | .ok y => if y == f.cell.value then some y else none
      | .error _ => none) = some y at leaves
    cases valid : f.validation.run s.value with
    | error message => simp [valid] at leaves
    | ok v =>
      simp only [valid, Option.ite_none_right_eq_some, Option.some.injEq] at leaves
      obtain ⟨same, rfl⟩ := leaves
      refine ⟨_, rfl, ?_⟩
      simp only [Body.edit, Full.edit, taken, Full.stage, valid, immediate, Full.apply,
        Staging.take?_stage, bne, same]
      exact ⟨rfl, rfl, rfl, same⟩
  · rw [if_neg taken] at leaves
    cases leaves

/-- An edit that is committed at once leaves nothing staged. -/
theorem Body.edit_sheds (leaves : before.leaves s (.full f) = none) :
    Body.Sheds (.full f) (Body.edit before s.response s.value (.full f)).state := by
  rintro _ ⟨⟩
  refine ⟨_, rfl, ?_⟩
  unfold Body.leaves at leaves
  unfold Full.edit
  by_cases taken : (s.response.changed && before.cell.mode == .editable) = true
  · rw [if_pos taken] at leaves ⊢
    change (match f.validation.run s.value with
      | .ok y => if y == f.cell.value then some y else none
      | .error _ => none) = none at leaves
    cases valid : f.validation.run s.value with
    | error message =>
      simp only [Full.stage, valid, Full.refuse]
      exact ⟨id, .inr rfl⟩
    | ok v =>
      have differs : (v == f.cell.value) = false := by simpa [valid] using leaves
      simp only [Full.stage, valid, immediate, Full.apply, Staging.take?_stage, bne, differs]
      exact ⟨id, .inl rfl⟩
  · rw [if_neg taken]
    exact .refl f

end Edits

namespace World

section Draws

variable [BEq α] {key : Nat} {left : Option α} {w start : World α} {m : Member α} {depth : Nat}

/-- Showing a member to its widget is a course: the widget writes to others, and the hooks run. -/
theorem Course.shown_under {r : Rules α} {good : Nat → Body α → Body α → Option (Change α) → Prop}
    {R : World α → World α → Prop} (C : Course r good R) (runs : Runs r R depth)
    (pokes : ∀ name, r.poke name) (hm : w.member? key = some m) (label : String) (s : Stroke α) :
    Under r R w (w.shown (react depth) key m label s) := by
  have drew : Under r R w (w.record (.drew key (m.picture label))) := C.noted w (.drew ..)
  unfold World.shown
  rw [modify_of_member? (w := w.record _) hm]
  refine C.andThen drew (C.andThen (C.turned (w := w.record _) hm .drawn) ?_)
  exact C.andThen (C.pokes_under runs s.pokes pokes _) (C.runHooks_under runs key _ _ _)

def leftover (run : Runner α) (key : Nat) (label : String) (w : World α) : Option α :=
  match w.member? key with
  | none => none
  | some m => match m.widget with
    | none => none
    | some widget =>
      let stroke := widget m.drawn (m.picture label)
      ((w.shown run key m label stroke).body? key).bind (m.body.leaves stroke)

theorem leftover_of_widget (hm : w.member? key = some m) {widget : Widget α}
    (hw : m.widget = some widget) {label : String} {stroke : Stroke α}
    (hs : widget m.drawn (m.picture label) = stroke) {run : Runner α} {n : Member α}
    (hn : (w.shown run key m label stroke).member? key = some n) :
    w.leftover run key label = m.body.leaves stroke n.body := by
  simp only [leftover, hm, hw, hs, body?_of_member? hn, Option.bind_some]

/-- A draw leaves what it leaves, in the place of what was left before. -/
theorem draw_retains (retains : w.Meets key fun m => m.body.Retains left)
    (obeys : w.Obeys (stagesNothing key)) (label : String) (depth : Nat) :
    (w.serve depth (.command key (.draw label))).Obeys (stagesNothing key) ∧
      (w.serve depth (.command key (.draw label))).Meets key (fun m =>
        m.body.Retains ((w.leftover (react depth) key label).or left)) ∧
      ∀ y, w.leftover (react depth) key label = some y → ∃ f,
        (w.serve depth (.command key (.draw label))).body? key = some (.full f) ∧
          f.staging.pending = some y ∧ (y == f.cell.value) = true := by
  have C := retaining_course (α := α) key left
  obtain ⟨m, hm, here⟩ := retains
  have draws : w.serve depth (.command key (.draw label)) = (w.draw (react depth) key label).1 := by
    simp only [serve, exec, hm]
  rw [draws]
  cases hw : m.widget with
  | none =>
    simp only [draw, leftover, hm, hw]
    refine ⟨obeys, ⟨m, hm, here⟩, ?_⟩
    rintro _ ⟨⟩
  | some widget =>
    generalize hs : widget m.drawn (m.picture label) = stroke
    obtain ⟨obeys', kept⟩ := C.shown_under (C.runs depth) (fun _ => trivial) hm label stroke obeys
    obtain ⟨n, hn, f, hf, immediate, pending⟩ := kept ⟨m, hm, here⟩
    have mode : m.body.immediate = true := by
      obtain ⟨g, hg, on, -⟩ := here
      rw [hg]
      exact on
    rw [draw_of_shown hm hw hs hn, leftover_of_widget hm hw hs hn]
    cases leaves : m.body.leaves stroke n.body with
    | none =>
      have sheds : n.body.Sheds (Body.edit m.body stroke.response stroke.value n.body).state := by
        rw [hf] at leaves ⊢
        exact Body.edit_sheds mode stroke f leaves
      obtain ⟨obeys'', kept'⟩ := C.settle_under (C.runs depth) hn (fun _ => sheds) obeys'
      refine ⟨obeys'', kept' ⟨n, hn, f, hf, immediate, pending⟩, ?_⟩
      rintro _ ⟨⟩
    | some y =>
      rw [hf] at leaves
      obtain ⟨f', state, untold, on, staged, same⟩ := Body.edit_leaves mode stroke f leaves
      rw [hf]
      have settled := rests_settle (t := .full) (react depth) hn (s := Body.edit m.body
        stroke.response stroke.value (.full f)) untold
      have there := (settled.member? key).trans (member?_setMember_self hn _)
      refine ⟨settled.obeys (obeys'.congr rfl rfl), ⟨_, there, f', state, on.trans immediate,
        .inr staged⟩, ?_⟩
      rintro _ ⟨⟩
      exact ⟨f', by rw [body?_of_member? there, state], staged, same⟩

/-- What a world comes to by draws of a member and by requests that stage nothing in it, with what the
draws left staged last. -/
inductive Edited (key : Nat) (start : World α) : Option α → World α → Prop
  | start : Edited key start none start
  | request {left : Option α} {w : World α} (h : Edited key start left w) {q : Request α}
      (admits : (stagesNothing key).Admits q) (depth : Nat) : Edited key start left (w.serve depth q)
  | draw {left : Option α} {w : World α} (h : Edited key start left w) (label : String)
      (depth : Nat) : Edited key start ((w.leftover (react depth) key label).or left)
        (w.serve depth (.command key (.draw label)))

theorem Edited.retains (edited : Edited key start left w)
    (retains : start.Meets key fun m => m.body.Retains none)
    (obeys : start.Obeys (stagesNothing key)) :
    w.Obeys (stagesNothing key) ∧ w.Meets key fun m => m.body.Retains left := by
  induction edited with
  | start => exact ⟨obeys, retains⟩
  | request h admits depth ih =>
    obtain ⟨obeys', keeping⟩ := (retaining_course key _).serve admits depth _ ih.1
    exact ⟨obeys', keeping ih.2⟩
  | draw h label depth ih =>
    obtain ⟨obeys', retains', -⟩ := draw_retains ih.2 ih.1 label depth
    exact ⟨obeys', retains'⟩

/-- **Immediate mode leaves nothing pending but what it did not commit.** As long as edits come through
draws only, nothing is ever staged after a request, and nothing waits to be applied, unless a draw had
its edit accepted as the committed value. Just such an edit stays staged. -/
theorem immediate_leaves_equal {f : Full α} (body : start.body? key = some (.full f))
    (immediate : f.immediate = true) (unstaged : f.staging.pending = none)
    (obeys : start.Obeys (stagesNothing key)) (edited : Edited key start left w) :
    ∃ f, w.body? key = some (.full f) ∧ f.immediate = true ∧
      (f.staging.pending = none ∨ f.staging.pending = left) ∧ (left = none → f.hasPending = false) ∧
      ∀ label depth y, w.leftover (react depth) key label = some y → ∃ f',
        (w.serve depth (.command key (.draw label))).body? key = some (.full f') ∧
          f'.staging.pending = some y ∧ (y == f'.cell.value) = true := by
  have retains : start.Meets key fun m => m.body.Retains none := by
    obtain ⟨m, hm, hb⟩ := member?_of_body? body
    exact ⟨m, hm, f, hb, immediate, .inl unstaged⟩
  obtain ⟨obeys', retains'⟩ := edited.retains retains obeys
  obtain ⟨m, hm, f', hb, on, pending⟩ := id retains'
  refine ⟨f', by rw [body?_of_member? hm, hb], on, pending, ?_, ?_⟩
  · rintro rfl
    have none : f'.staging.pending = none := pending.elim id id
    simp [Full.hasPending, Staging.hasChanges, Staging.difference?, none]
  · exact fun label depth => (draw_retains retains' obeys' label depth).2.2

end Draws

def dial (turn : Nat → Nat) : World Nat :=
  (solo .full true).serveAll 0
    [.command 0 (.call (.setImmediate true)),
      .command 0 (.setWidget fun _ picture => ⟨turn picture.value, [], { changed := true }⟩)]

/-- A widget that counts up has its edit committed, and undo takes it back. -/
theorem counted_edit_leaves_nothing_pending :
    ∃ f, (((dial (· + 1)).serve 1 (.command 0 (.draw "v"))).serve 1
        (.command 0 (.edit .undo))).body? 0 = some (.full f) ∧ f.hasPending = false := by
  have obeys : (dial (· + 1)).Obeys (stagesNothing 0) := ⟨nofun, fun _ _ _ => trivial⟩
  have commits : ((dial (· + 1)).leftover (react 1) 0 "v").or none = none := by decide
  have started : Edited 0 (dial (· + 1)) none (dial (· + 1)) := .start
  have drawn := started.draw "v" 1
  rw [commits] at drawn
  have admits : (stagesNothing 0).Admits (.command 0 (.edit (.undo : Edit Nat))) :=
    .command (.of_plain (fun _ => rfl) rfl)
  have undone := drawn.request admits 1
  obtain ⟨f, body, -, -, settled, -⟩ := immediate_leaves_equal rfl rfl rfl obeys undone
  exact ⟨f, body, settled rfl⟩

/-- A widget that leaves the value as it is has its edit accepted and left staged. A set from elsewhere
then makes it wait, and nothing is pulled any more. -/
theorem equal_edit_pending_after_set :
    let w := (dial id).serveAll 2
      [.command 0 (.draw "v"), .command 0 (.edit (.set 5)), .command 0 (.setOutside 7)]
    ∃ f, w.body? 0 = some (.full f) ∧ f.immediate = true ∧ f.staging.pending = some 0 ∧
      f.cell.value = 5 ∧ f.hasPending = true ∧ (w.exec (react 2) 0 (.call .pull)).2 = .flag false ∧
      (w.exec (react 2) 0 (.call .pull)).1.value? 0 = some 5 :=
  ⟨_, rfl, by decide, by decide, by decide, by decide, rfl, by decide⟩

end World

end BoundValues
