import BoundValues.Proofs.Calm

namespace BoundValues

variable {α : Type}

def Rules.looking (mute : String → Prop) : Rules α where
  command _ c := c.looks = true
  poke := mute
  act _
    | .command _ c => c.looks = true
    | .poke p => mute p.handle
  act_command := id
  act_poke := id
  taken h := nomatch h
  drawn h := nomatch h

/-- A sign of a drawing pass: a widget is shown its picture, or a listener of the container is told. -/
inductive Sign
  | drew (key : Nat)
  | valueChanged (listener id : String)
  | memberChanged (listener : String)
deriving DecidableEq, Repr

def Event.sign? : Event α → Option Sign
  | .drew key _ => some (.drew key)
  | .valueChanged listener id => some (.valueChanged listener id)
  | .memberChanged listener => some (.memberChanged listener)
  | _ => none

def Tally.signs : Tally α Sign where
  sees := Event.sign?
  acted _ _ _ := rfl
  poked _ _ := rfl

theorem Tally.signs_pushes : (Tally.signs : Tally α Sign).Pushes := fun _ _ => rfl

/-- A commit gives no signs. -/
theorem Step.tidings_unsigned [BEq α] {ρ : Type} (key : Nat) (s : Step (Body α) α ρ) :
    ∀ e ∈ s.tidings key, e.sign? = none := by
  simp only [Step.tidings, List.mem_append, Option.mem_toList, Option.map_eq_some_iff]
  rintro e (⟨v, -, rfl⟩ | he)
  · rfl
  · cases hc : s.change with
    | none => simp [hc] at he
    | some change =>
      simp only [hc, Option.elim_some, Body.tidings, Body.heard, Body.outgoing, List.mem_cons,
        List.mem_append, List.mem_map] at he
      rcases he with rfl | ⟨l, -, rfl⟩ | pushed
      · rfl
      · rfl
      · split at pushed
        · rw [List.mem_singleton.mp pushed]
          rfl
        · cases pushed

namespace World

def signs (w : World α) : List Sign := w.log.filterMap Event.sign?

/-- Scripts only look, and neither they nor the widgets reach a member through a handle. -/
structure Quiet (w : World α) : Prop where
  scripts : w.Obeys (.looking w.Mute)
  widgets {key : Nat} {m : Member α} {widget : Widget α} (hm : w.member? key = some m)
    (hw : m.widget = some widget) (n : Nat) (picture : Picture α) :
    ∀ p ∈ (widget n picture).pokes, w.Mute p.handle

abbrev Idles (told : List Sign) (w w' : World α) : Prop := Rests .signs told w w'

abbrev Harmless (run : Runner α) : Prop := Gentle Tally.signs run

/-- Scripts of a quiet world come to nothing however deep they are nested. -/
theorem harmless_react [BEq α] (depth : Nat) : Harmless (react depth : Runner α) :=
  gentle_react .signs depth

section Idling

variable {β : Type} {t : Tally α β} {w w' : World α} {key : Nat} {m m' : Member α}

theorem Rests.signs {told : List Sign} (h : Idles told w w') : w'.signs = w.signs ++ told := h.tally

/-- A world that rests stays quiet. -/
theorem Rests.quiet {told : List β} (h : Rests t told w w') (quiet : w.Quiet) : w'.Quiet := by
  refine ⟨?_, ?_⟩
  · rw [h.mute]
    exact h.obeys quiet.scripts
  · intro key m widget hm hw
    rw [h.mute]
    exact quiet.widgets ((h.member? key).symm.trans hm) hw

/-- In a quiet world everyone only looks. -/
theorem Quiet.mild (quiet : w.Quiet) (pushes : t.Pushes) (s : Nat) : w.Mild t s := by
  intro text here a ha
  rw [List.getElem?_map, Option.map_eq_some_iff] at here
  obtain ⟨script, hs, rfl⟩ := here
  obtain ⟨⟨b, left⟩, hb, rfl⟩ := List.mem_map.mp ha
  obtain ⟨looks, -⟩ := quiet.scripts.scripts script (List.mem_of_getElem? hs) _ hb
  cases b with
  | command times c => exact ⟨looks, fun _ => pushes⟩
  | poke p => exact looks

/-- Whoever hears of a commit is one of those who only look. -/
theorem Quiet.calm (quiet : w.Quiet) (pushes : t.Pushes) : w.Calm t :=
  fun _ _ _ s _ => quiet.mild pushes s

/-- A member may change as it likes, as long as it keeps its widget. -/
theorem Quiet.setMember (quiet : w.Quiet) (hm : w.member? key = some m)
    (kept : m'.widget = m.widget) : (w.setMember key m').Quiet := by
  have mute := mute_setMember hm m'
  refine ⟨?_, ?_⟩
  · rw [mute]
    exact quiet.scripts.congr rfl rfl
  · intro k n widget hn hw
    rw [mute]
    by_cases hk : k = key
    · subst hk
      rw [member?_setMember_self hm] at hn
      cases hn
      exact quiet.widgets hm (kept ▸ hw)
    · rw [member?_setMember_of_ne hk] at hn
      exact quiet.widgets hn hw

theorem Quiet.modify (quiet : w.Quiet) {g : Member α → Member α}
    (kept : ∀ m, (g m).widget = m.widget) (key : Nat) : (w.modify key g).Quiet := by
  cases hm : w.member? key with
  | none =>
    rw [modify_of_absent hm]
    exact quiet
  | some m =>
    rw [modify_of_member? hm]
    exact quiet.setMember hm (kept m)

theorem idles_foldl {γ : Type} {f : World α → γ → World α} {told : γ → List Sign} {xs : List γ}
    (hf : ∀ w, ∀ x ∈ xs, w.Quiet → Idles (told x) w (f w x)) (quiet : w.Quiet) :
    Idles (xs.flatMap told) w (xs.foldl f w) :=
  rests_foldl Rests.quiet hf quiet

end Idling

section Running

variable {run : Runner α} {w : World α} {key : Nat} {m : Member α} {told : List Sign}

theorem Quiet.record_runScript (quiet : w.Quiet) (runs : Harmless run) {e : Event α}
    (sign : e.sign?.toList = told) (script : Option Nat) :
    Idles told w ((w.record e).runScript run script) :=
  (quiet.calm Tally.signs_pushes).record_runScript runs sign fun s _ =>
    quiet.mild Tally.signs_pushes s

theorem Quiet.runHooks (quiet : w.Quiet) (runs : Harmless run) (key : Nat) (hooks : Hooks)
    (response : Response) : Idles [] w (w.runHooks run key hooks response) := by
  refine rests_foldl_still Rests.quiet ?_ quiet
  rintro w ⟨occurrence, hook⟩ - quiet
  exact quiet.record_runScript runs (by rfl) hook.script

variable [BEq α]

/-- A step goes into the world as it is: nothing that hears of it changes a member. -/
theorem Quiet.settle {ρ : Type} (quiet : w.Quiet) (runs : Harmless run)
    (hm : w.member? key = some m) (s : Step (Body α) α ρ) :
    Idles [] (w.setMember key { m with body := s.state }) (w.settle run key s).1 := by
  have put : (w.setMember key { m with body := s.state }).Quiet := quiet.setMember hm rfl
  exact (Calm.settle runs hm (put.calm Tally.signs_pushes)).unseen (s.tidings_unsigned key)

/-- An apply changes the one member, and nobody who hears of it acts on that. -/
theorem Quiet.apply (quiet : w.Quiet) (runs : Harmless run) (hm : w.member? key = some m) :
    Idles [] (w.setMember key { m with body := m.body.apply.state }) (w.apply run key).1 := by
  simp only [World.apply, hm]
  exact quiet.settle runs hm m.body.apply

end Running

end World

section Drawing

variable [BEq α]

/-- What drawing alone makes of a member, and whether it tells of a change. -/
def Member.redrawn (label : String) (m : Member α) : Member α × Bool :=
  match m.widget with
  | none => (m, false)
  | some widget =>
    let stroke := widget m.drawn (m.picture label)
    let s := Body.edit m.body stroke.response stroke.value m.body
    ({ m with drawn := m.drawn + 1, body := s.state }, s.reply)

theorem Member.redrawn_of_widget {label : String} {m : Member α} {widget : Widget α}
    (hw : m.widget = some widget) {stroke : Stroke α}
    (hs : widget m.drawn (m.picture label) = stroke) {s : Step (Body α) α Bool}
    (edit : Body.edit m.body stroke.response stroke.value m.body = s) :
    m.redrawn label = ({ m with drawn := m.drawn + 1, body := s.state }, s.reply) := by
  subst hs edit
  unfold redrawn
  split
  · rename_i none
    cases none.symm.trans hw
  · rename_i other some
    cases some.symm.trans hw
    rfl

theorem Member.redrawn_widget (label : String) (m : Member α) :
    (m.redrawn label).1.widget = m.widget := by
  unfold redrawn
  split <;> rfl

namespace World

def drawSigns (key : Nat) (m : Member α) : List Sign :=
  if m.widget.isSome then [.drew key] else []

variable {run : Runner α} {w : World α} {key : Nat} {m : Member α}

/-- While its widget is shown the picture, a member only counts the draw. -/
theorem Quiet.shown (quiet : w.Quiet) (runs : Harmless run) (hm : w.member? key = some m)
    {widget : Widget α} (hw : m.widget = some widget) (picture : Picture α) {stroke : Stroke α}
    (hs : widget m.drawn picture = stroke) :
    Idles [.drew key] (w.setMember key { m with drawn := m.drawn + 1 })
      ((stroke.pokes.foldl (fun w p => w.poke run p)
        ((w.record (.drew key picture)).setMember key { m with drawn := m.drawn + 1 })).runHooks
          run key m.body.hooks stroke.response) := by
  subst hs
  have recorded : Idles [.drew key] w (w.record (.drew key picture)) := .record w rfl
  have hm' := (recorded.member? key).trans hm
  have counted := recorded.setMember key { m with drawn := m.drawn + 1 }
  have quiet' := counted.quiet (quiet.setMember hm rfl)
  have mute := quiet'.widgets (member?_setMember_self hm' _) hw m.drawn picture
  have poked : Idles [] _ _ := rests_pokes run mute
  exact counted.still (poked.still ((poked.quiet quiet').runHooks runs key m.body.hooks _))

/-- A draw changes the drawn member as its widget's edit does, and nothing else. -/
theorem Quiet.draw (quiet : w.Quiet) (runs : Harmless run) (hm : w.member? key = some m)
    (label : String) :
    Idles (drawSigns key m) (w.setMember key (m.redrawn label).1) (w.draw run key label).1 ∧
      (w.draw run key label).2 = (m.redrawn label).2 := by
  unfold World.draw
  rw [hm]
  dsimp only
  split
  · rename_i hw
    simp only [Member.redrawn, hw, drawSigns, setMember_self hm]
    exact ⟨.refl w, trivial⟩
  · rename_i widget hw
    rw [modify_of_member? (w := w.record _) hm]
    generalize hs : widget m.drawn (m.picture label) = stroke
    have shown := quiet.shown runs hm hw (m.picture label) hs
    have quiet' := shown.quiet (quiet.setMember hm rfl)
    have here := (shown.member? key).trans (member?_setMember_self hm _)
    simp only [finishDraw, here]
    generalize edit : Body.edit m.body stroke.response stroke.value m.body = s
    have settled := quiet'.settle runs here s
    have moved := shown.setMember key { m with drawn := m.drawn + 1, body := s.state }
    rw [setMember_setMember] at moved
    have signed : drawSigns key m = [.drew key] := by simp [drawSigns, hw]
    rw [Member.redrawn_of_widget hw hs edit, signed, settle_reply]
    exact ⟨moved.trans settled, rfl⟩

end World

end Drawing

end BoundValues
