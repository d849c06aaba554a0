import BoundValues.Proofs.Admission
import BoundValues.Proofs.Quiet

namespace BoundValues

variable {α : Type}

/-- Whoever has a value can tell that pushes are seen. -/
theorem Tally.full_sees_pushes (v : α) : ¬ (Tally.full : Tally α (Event α)).Pushes :=
  fun pushes => nomatch pushes 0 v

def Hooks.called (key : Nat) (r : Response) (hooks : Hooks) : List (Event α) :=
  (hooks.due r.hovered r.menu).map fun h => .hooked key h.1 h.2.name

/-- What the log tells of a draw that commits nothing: the picture, the hooks, and the check of the
widget's edit. -/
def Member.viewing [BEq α] (key : Nat) (label : String) (m : Member α) : List (Event α) :=
  match m.widget with
  | none => []
  | some widget =>
    let stroke := widget m.drawn (m.picture label)
    .drew key (m.picture label) :: (m.body.hooks.called key stroke.response ++
      ((Body.edit m.body stroke.response stroke.value m.body).checked.map (.validated key)).toList)

namespace World

/-- The widget of a member writes to no member, and its hooks only look. -/
structure Tame (w : World α) (m : Member α) : Prop where
  widget : ∀ widget ∈ m.widget, ∀ n picture, ∀ p ∈ (widget n picture).pokes, w.Mute p.handle
  hooks : ∀ h ∈ m.body.hooks.due true true, ∀ s ∈ h.2.script, w.Mild .full s

section Frames

variable {told : List (Event α)} {w w' : World α} {key : Nat} {m m' n : Member α}

theorem Rests.tame (h : Rests .full told w w') (tame : w.Tame m) : w'.Tame m where
  widget widget hw k picture p hp := h.mute ▸ tame.widget widget hw k picture p hp
  hooks hook hh s hs := h.mild (tame.hooks hook hh s hs)

theorem Tame.setMember (tame : w.Tame m) (hn : w.member? key = some n) (n' : Member α) :
    (w.setMember key n').Tame m where
  widget widget hw k picture p hp :=
    (mute_setMember hn n').symm ▸ tame.widget widget hw k picture p hp
  hooks hook hh s hs := mild_setMember hn n' (tame.hooks hook hh s hs)

theorem Tame.congr (tame : w.Tame m) (widget : m'.widget = m.widget)
    (hooks : m'.body.hooks = m.body.hooks) : w.Tame m' :=
  ⟨widget ▸ tame.widget, hooks ▸ tame.hooks⟩

end Frames

variable [BEq α] {w : World α} {key : Nat} {m : Member α}

/-- A step that nobody is told of only replaces the body. -/
theorem rests_settle {β ρ : Type} {t : Tally α β} (run : Runner α) (hm : w.member? key = some m)
    {s : Step (Body α) α ρ} (untold : s.change = none) :
    Rests t (t.seen (s.checked.map (.validated key)).toList)
      (w.setMember key { m with body := s.state }) (w.settle run key s).1 := by
  have noted := Rests.noteCheck (t := t) w key s.checked
  unfold World.settle
  simp only [untold, mapBody_of_member? ((noted.member? key).trans hm)]
  exact noted.setMember key { m with body := s.state }

section Scripts

variable {script : Nat}

/-- Who looks without pushing leaves the world as it is, whoever listens there. -/
theorem rests_exec_of_looks (run : Runner α) (w : World α) (key : Nat) {c : Command α}
    (looks : c.looks = true) (pushes : c = .call .push → (Tally.full : Tally α _).Pushes) :
    Rests .full [] w (w.exec run key c).1 := by
  rcases exec_of_looks run w key looks with stays | ⟨v, -, stored⟩ | ⟨push, pushed⟩
  · rw [stays]
    exact .refl w
  · rw [stored]
    exact .setVariable w key v
  · rw [pushed]
    cases hm : w.member? key with
    | none =>
      simp only [World.push, hm]
      exact .refl w
    | some m => exact absurd (pushes push) (Tally.full_sees_pushes m.body.value)

theorem Mild.react (mild : w.Mild .full script) (depth : Nat) :
    Rests .full [] w (react depth script w) := by
  cases depth with
  | zero => exact .refl w
  | succ depth =>
    refine rests_foldl_still (I := fun w => w.Mild .full script)
      (fun rests mild => rests.mild mild) ?_ mild
    intro w i _ mild
    exact mild.perform_of_exec (fun _ key _ => rests_exec_of_looks _ _ key) i

/-- Hooks that only look are called, and that is all. -/
theorem Tame.runHooks (tame : w.Tame m) (depth : Nat) (key : Nat) (r : Response) :
    Rests .full (m.body.hooks.called key r) w (w.runHooks (react depth) key m.body.hooks r) := by
  unfold World.runHooks Hooks.called
  rw [List.map_eq_flatMap]
  refine rests_foldl (I := fun w => w.Tame m) (fun rests tame => rests.tame tame) ?_ tame
  rintro w ⟨occurrence, hook⟩ hh tame
  have recorded : Rests .full [.hooked key occurrence hook.name] w
      (w.record (.hooked key occurrence hook.name)) := .record w rfl
  refine recorded.still ?_
  dsimp only
  cases hs : hook.script with
  | none => exact .refl _
  | some s => exact (recorded.mild (tame.hooks _ (Hooks.due_subset hh) s hs)).react depth

end Scripts

/-- While its widget is shown the picture, a tame member only counts the draw. -/
theorem Tame.shown (tame : w.Tame m) (hm : w.member? key = some m) {widget : Widget α}
    (hw : m.widget = some widget) {label : String} {stroke : Stroke α}
    (hs : widget m.drawn (m.picture label) = stroke) (depth : Nat) :
    Rests .full (.drew key (m.picture label) :: m.body.hooks.called key stroke.response)
      (w.setMember key { m with drawn := m.drawn + 1 })
      (w.shown (react depth) key m label stroke) := by
  subst hs
  have recorded : Rests .full [.drew key (m.picture label)] w
      (w.record (.drew key (m.picture label))) := .record w rfl
  have counted := recorded.setMember key { m with drawn := m.drawn + 1 }
  have tame' := tame.setMember hm { m with drawn := m.drawn + 1 }
  have mute := (counted.tame tame').widget widget hw m.drawn (m.picture label)
  have poked := counted.still (rests_pokes (react depth) mute)
  have hooked := (poked.tame tame').runHooks depth key (widget m.drawn (m.picture label)).response
  unfold World.shown
  rw [modify_of_member? ((recorded.member? key).trans hm)]
  exact poked.trans hooked

/-- A draw whose edit nobody is told of changes the drawn member as the edit does, and nothing else. -/
theorem Tame.draw (tame : w.Tame m) (hm : w.member? key = some m) {label : String}
    (untold : ∀ widget ∈ m.widget, (Body.edit m.body (widget m.drawn (m.picture label)).response
      (widget m.drawn (m.picture label)).value m.body).change = none) (depth : Nat) :
    Rests .full (m.viewing key label) (w.setMember key (m.redrawn label).1)
        (w.draw (react depth) key label).1 ∧
      (w.draw (react depth) key label).2 = (m.redrawn label).2 := by
  cases hw : m.widget with
  | none =>
    simp only [World.draw, hm, hw, Member.redrawn, Member.viewing, setMember_self hm]
    exact ⟨.refl w, trivial⟩
  | some widget =>
    generalize hs : widget m.drawn (m.picture label) = stroke
    generalize he : Body.edit m.body stroke.response stroke.value m.body = s
    have quiet : s.change = none := by
      have := untold widget hw
      rwa [hs, he] at this
    have shown := tame.shown hm hw hs depth
    have here := (shown.member? key).trans (member?_setMember_self hm _)
    have settled := rests_settle (t := .full) (react depth) here quiet
    have moved := shown.setMember key { m with drawn := m.drawn + 1, body := s.state }
    rw [setMember_setMember] at moved
    have told : m.viewing key label =
        .drew key (m.picture label) :: m.body.hooks.called key stroke.response ++
          Tally.full.seen (s.checked.map (.validated key)).toList := by
      have seen : Tally.full.seen (s.checked.map (Event.validated key)).toList =
          (s.checked.map (.validated key)).toList := by
        cases s.checked <;> rfl
      rw [seen]
      simp only [Member.viewing, hw, hs, he]
      rfl
    rw [Member.redrawn_of_widget hw hs he, draw_of_shown hm hw hs here, he, told, settle_reply]
    exact ⟨moved.trans settled, rfl⟩

end World

end BoundValues
