import BoundValues.Proofs.Course

namespace BoundValues

variable {α β : Type}

def Call.looks : Call → Bool
  | .pending | .dirty | .present | .push | .synced | .valid | .error | .canUndo | .canRedo | .size
  | .visible | .advanced | .group | .valueText | .shown | .template | .captionText
  | .hasTooltipHook | .hasMenuHook | .immediate => true
  | _ => false

/-- Commands that leave every member as it is. -/
def Command.looks : Command α → Bool
  | .name | .tooltip | .mode | .isChanged | .typeName | .capabilities | .present | .has _ | .hints
  | .snapshot | .outside | .setOutside _ | .get | .source | .edit .cellChanged => true
  | .call c => c.looks
  | _ => false

/-- What is looked at in a log. That an act was carried out is never looked at. -/
structure Tally (α β : Type) where
  sees : Event α → Option β
  acted (who : String) (c : Command α) (reply : Reply α) : sees (.acted who c reply) = none
  poked (handle : String) (reply : Reply α) : sees (.poked handle reply) = none

namespace Tally

def full : Tally α (Event α) where
  sees
    | .acted .. | .poked .. => none
    | e => some e
  acted _ _ _ := rfl
  poked _ _ := rfl

/-- Leaves out pushes too, so that scripts may push. -/
def unpushed : Tally α (Event α) where
  sees
    | .acted .. | .poked .. | .pushed .. => none
    | e => some e
  acted _ _ _ := rfl
  poked _ _ := rfl

def seen (t : Tally α β) (es : List (Event α)) : List β := es.filterMap t.sees

/-- Whether scripts that only look may push: nobody sees it. -/
def Pushes (t : Tally α β) : Prop := ∀ key v, t.sees (.pushed key v) = none

variable {t : Tally α β} {es es' : List (Event α)}

theorem seen_append : t.seen (es ++ es') = t.seen es ++ t.seen es' := List.filterMap_append

theorem seen_singleton {e : Event α} : t.seen [e] = (t.sees e).toList := by
  cases h : t.sees e <;> simp [seen, h]

theorem seen_flatMap {γ : Type} {f : γ → List (Event α)} {xs : List γ} :
    t.seen (xs.flatMap f) = xs.flatMap fun x => t.seen (f x) :=
  List.filterMap_flatMap

theorem seen_eq_nil (unseen : ∀ e ∈ es, t.sees e = none) : t.seen es = [] :=
  List.filterMap_eq_nil_iff.mpr unseen

end Tally

/-- An act that only looks at members. It may push where nobody sees it. -/
def Act.Looks (t : Tally α β) (mute : String → Prop) : Act α → Prop
  | .command _ c => c.looks = true ∧ (c = .call .push → t.Pushes)
  | .poke p => mute p.handle

def Script.text (s : Script α) : Nat × List (Act α) := (s.owner, s.acts.map Prod.fst)

namespace Body

/-- The scripts of those who hear of a commit: the listeners and the setter. -/
def hearers (b : Body α) : List Nat :=
  b.listeners.slots.filterMap Listener.script ++ (b.link.setter.bind Endpoint.script).toList

def heard [BEq α] (key : Nat) (change : Change α) (b : Body α) : List (Event α) :=
  ((change.audience b.listeners).getD []).map fun l => .notified key l.name l.form change

def outgoing (key : Nat) (b : Body α) : List (Event α) :=
  if b.link.setter.isSome then [.pushed key b.value] else []

def tidings [BEq α] (key : Nat) (change : Change α) (b : Body α) : List (Event α) :=
  .committed key change :: (b.heard key change ++ b.outgoing key)

end Body

def Step.tidings [BEq α] {ρ : Type} (key : Nat) (s : Step (Body α) α ρ) : List (Event α) :=
  (s.checked.map (Event.validated key)).toList ++
    s.change.elim [] fun change => s.state.tidings key change

theorem Signal.mem_slots_of_snapshot {σ : Type} {s : Signal σ} {slot : σ} (h : slot ∈ s.snapshot) :
    slot ∈ s.slots := by
  unfold snapshot at h
  split at h
  · cases h
  · exact h

/-- Only listeners that are connected are told of a change. -/
theorem Change.mem_slots_of_audience [BEq α] {change : Change α} {s : Signal Listener}
    {listeners : List Listener} (audience : change.audience s = some listeners) {l : Listener}
    (hl : l ∈ listeners) : l ∈ s.slots := by
  unfold Change.audience at audience
  split at audience
  · cases audience
  · cases audience
    exact Signal.mem_slots_of_snapshot hl

namespace World

def tally (t : Tally α β) (w : World α) : List β := t.seen w.log

/-- No member is reached through the handle of a name. -/
def Mute (w : World α) (name : String) : Prop :=
  ∀ key, w.handleKey? name = some key → w.member? key = none

/-- A script whose acts only look, as far as it is there at all. -/
def Mild (t : Tally α β) (w : World α) (s : Nat) : Prop :=
  ∀ text, (w.scripts.map Script.text)[s]? = some text → ∀ a ∈ text.2, a.Looks t w.Mute

/-- Whoever hears of the commits of some member only looks. -/
def Calm (t : Tally α β) (w : World α) : Prop :=
  ∀ ⦃key m⦄, w.member? key = some m → ∀ s ∈ m.body.hearers, w.Mild t s

/-- The members and handles stay as they are, scripts at most use up their acts, and of what is
recorded only some is seen. -/
structure Rests (t : Tally α β) (told : List β) (w w' : World α) : Prop where
  slots : w'.slots = w.slots
  handles : w'.handles = w.handles
  scripts : w'.scripts.map Script.text = w.scripts.map Script.text
  tally : w'.tally t = w.tally t ++ told

/-- In calm worlds, running a script that only looks comes to nothing. -/
def Gentle (t : Tally α β) (run : Runner α) : Prop :=
  ∀ s w, w.Calm t → w.Mild t s → Rests t [] w (run s w)

section Resting

variable {t : Tally α β} {w w' w'' : World α} {told told' : List β} {es es' : List (Event α)}
  {key : Nat} {m m' : Member α}

theorem Rests.refl (w : World α) : Rests t [] w w := ⟨rfl, rfl, rfl, (List.append_nil _).symm⟩

theorem Rests.trans (h : Rests t told w w') (h' : Rests t told' w' w'') :
    Rests t (told ++ told') w w'' where
  slots := h'.slots.trans h.slots
  handles := h'.handles.trans h.handles
  scripts := h'.scripts.trans h.scripts
  tally := by rw [h'.tally, h.tally, List.append_assoc]

/-- What is unseen afterwards makes no difference. -/
theorem Rests.still (h : Rests t told w w') (h' : Rests t [] w' w'') : Rests t told w w'' := by
  simpa only [List.append_nil] using h.trans h'

theorem Rests.append (h : Rests t (t.seen es) w w') (h' : Rests t (t.seen es') w' w'') :
    Rests t (t.seen (es ++ es')) w w'' := by
  rw [Tally.seen_append]
  exact h.trans h'

theorem Rests.record (w : World α) {e : Event α} (seen : (t.sees e).toList = told) :
    Rests t told w (w.record e) := by
  refine ⟨rfl, rfl, rfl, ?_⟩
  rw [World.tally, World.record, Tally.seen_append, Tally.seen_singleton, seen]
  rfl

theorem Rests.recorded (w : World α) (e : Event α) : Rests t (t.seen [e]) w (w.record e) :=
  .record w Tally.seen_singleton.symm

theorem Rests.setVariable (w : World α) (external : Nat) (v : α) :
    Rests t [] w (w.setVariable external v) :=
  ⟨rfl, rfl, rfl, (List.append_nil _).symm⟩

theorem Rests.noteCheck (w : World α) (key : Nat) (checked : Option α) :
    Rests t (t.seen (checked.map (Event.validated key)).toList) w (w.noteCheck key checked) := by
  cases checked with
  | none => exact .refl w
  | some v => exact .recorded w _

theorem Rests.unseen (h : Rests t (t.seen es) w w') (unseen : ∀ e ∈ es, t.sees e = none) :
    Rests t [] w w' := by
  rwa [Tally.seen_eq_nil unseen] at h

theorem Rests.member? (h : Rests t told w w') (key : Nat) : w'.member? key = w.member? key := by
  simp only [World.member?, h.slots]

theorem Rests.setMember (h : Rests t told w w') (key : Nat) (m : Member α) :
    Rests t told (w.setMember key m) (w'.setMember key m) where
  slots := by simp only [World.setMember, h.slots]
  handles := h.handles
  scripts := h.scripts
  tally := h.tally

theorem Rests.modify (h : Rests t told w w') (key : Nat) (g : Member α → Member α) :
    Rests t told (w.modify key g) (w'.modify key g) := by
  unfold World.modify
  rw [h.member? key]
  split
  · exact h.setMember key _
  · exact h

theorem Rests.mute (h : Rests t told w w') : w'.Mute = w.Mute := by
  funext name
  simp only [Mute, handleKey?, h.handles, h.member?]

/-- Rules do not ask for budgets. -/
theorem Rests.obeys (h : Rests t told w w') {r : Rules α} (obeys : w.Obeys r) : w'.Obeys r := by
  refine ⟨?_, ?_⟩
  · intro s' hs' a' ha'
    have text : s'.text ∈ w.scripts.map Script.text := h.scripts ▸ List.mem_map_of_mem hs'
    obtain ⟨s, hs, same⟩ := List.mem_map.mp text
    obtain ⟨owner, acts⟩ := Prod.mk.inj same
    have ha : a'.1 ∈ s.acts.map Prod.fst := acts ▸ List.mem_map_of_mem ha'
    obtain ⟨a, mem, act⟩ := List.mem_map.mp ha
    exact owner ▸ act ▸ obeys.scripts s hs a mem
  · intro name key hk
    rw [handleKey?, h.handles] at hk
    exact obeys.handles name key hk

theorem Rests.mild (h : Rests t told w w') {s : Nat} (mild : w.Mild t s) : w'.Mild t s := by
  unfold Mild
  rw [h.scripts, h.mute]
  exact mild

theorem Rests.calm (h : Rests t told w w') (calm : w.Calm t) : w'.Calm t :=
  fun key _ hm s hs => h.mild (calm ((h.member? key).symm.trans hm) s hs)

theorem mute_setMember (hm : w.member? key = some m) (m' : Member α) :
    (w.setMember key m').Mute = w.Mute := by
  funext name
  have gone : ∀ k, (w.setMember key m').member? k = none ↔ w.member? k = none := by
    intro k
    by_cases hk : k = key
    · subst hk
      simp [member?_setMember_self hm, hm]
    · rw [member?_setMember_of_ne hk]
  simp only [Mute, gone]
  rfl

theorem mild_setMember (hm : w.member? key = some m) (m' : Member α) {s : Nat}
    (mild : w.Mild t s) : (w.setMember key m').Mild t s := by
  unfold Mild
  rw [mute_setMember hm m']
  exact mild

/-- A member may change as it likes, as long as no others come to hear of its commits. -/
theorem Calm.setMember (calm : w.Calm t) (hm : w.member? key = some m)
    (kept : m'.body.hearers = m.body.hearers) : (w.setMember key m').Calm t := by
  intro k n hn s hs
  refine mild_setMember hm m' ?_
  by_cases hk : k = key
  · subst hk
    rw [member?_setMember_self hm] at hn
    cases hn
    exact calm hm s (kept ▸ hs)
  · rw [member?_setMember_of_ne hk] at hn
    exact calm hn s hs

theorem Calm.mapBody (calm : w.Calm t) {g : Body α → Body α}
    (kept : ∀ b, (g b).hearers = b.hearers) : (w.mapBody key g).Calm t := by
  cases hm : w.member? key with
  | none =>
    rw [World.mapBody, modify_of_absent hm]
    exact calm
  | some m =>
    rw [mapBody_of_member? hm]
    exact calm.setMember hm (kept m.body)

/-- One thing after another, each of which rests as long as a condition holds that resting keeps. -/
theorem rests_foldl {γ : Type} {I : World α → Prop}
    (kept : ∀ {told w w'}, Rests t told w w' → I w → I w') {f : World α → γ → World α}
    {told : γ → List β} {xs : List γ}
    (hf : ∀ w, ∀ x ∈ xs, I w → Rests t (told x) w (f w x)) (start : I w) :
    Rests t (xs.flatMap told) w (xs.foldl f w) := by
  induction xs generalizing w with
  | nil => exact .refl w
  | cons x xs ih =>
    have first := hf w x List.mem_cons_self start
    refine first.trans (ih (fun w y hy => hf w y (List.mem_cons_of_mem x hy)) ?_)
    exact kept first start

theorem rests_foldl_still {γ : Type} {I : World α → Prop}
    (kept : ∀ {told w w'}, Rests t told w w' → I w → I w') {f : World α → γ → World α}
    {xs : List γ} (hf : ∀ w, ∀ x ∈ xs, I w → Rests t [] w (f w x)) (start : I w) :
    Rests t [] w (xs.foldl f w) := by
  have all := rests_foldl kept hf start
  rwa [List.flatMap_eq_nil_iff.mpr fun _ _ => rfl] at all

end Resting

section Running

variable {t : Tally α β} {told : List β} {run : Runner α} {w : World α} {key : Nat} {m : Member α}

theorem Calm.runScript (calm : w.Calm t) (runs : Gentle t run) {script : Option Nat}
    (mild : ∀ s ∈ script, w.Mild t s) : Rests t [] w (w.runScript run script) := by
  cases script with
  | none => exact .refl w
  | some s => exact runs s w calm (mild s rfl)

theorem Calm.record_runScript (calm : w.Calm t) (runs : Gentle t run) {e : Event α}
    (seen : (t.sees e).toList = told) {script : Option Nat} (mild : ∀ s ∈ script, w.Mild t s) :
    Rests t told w ((w.record e).runScript run script) := by
  have recorded := Rests.record w seen
  exact recorded.still ((recorded.calm calm).runScript runs fun s hs => recorded.mild (mild s hs))

theorem mem_hearers_of_listener {b : Body α} {l : Listener} (hl : l ∈ b.listeners.slots) {s : Nat}
    (hs : s ∈ l.script) : s ∈ b.hearers :=
  List.mem_append_left _ (List.mem_filterMap.mpr ⟨l, hl, hs⟩)

theorem mem_hearers_of_setter {b : Body α} {setter : Endpoint} (hb : b.link.setter = some setter)
    {s : Nat} (hs : s ∈ setter.script) : s ∈ b.hearers := by
  refine List.mem_append_right _ (Option.mem_toList.mpr ?_)
  rw [hb]
  exact hs

/-- A push stores the committed value outside, once. -/
theorem Calm.push (calm : w.Calm t) (runs : Gentle t run) (hm : w.member? key = some m) :
    Rests t (t.seen (m.body.outgoing key)) w (w.push run key).1 := by
  unfold World.push Body.outgoing
  rw [hm]
  dsimp only
  cases hs : m.body.link.setter with
  | none => exact .refl w
  | some setter =>
    have recorded := Rests.recorded (t := t) w (.pushed key m.body.value)
    have stored := recorded.still (.setVariable _ setter.external m.body.value)
    exact stored.still ((stored.calm calm).runScript runs fun s script =>
      stored.mild (calm hm s (mem_hearers_of_setter hs script)))

/-- Taking an act leaves every script with its owner and acts. -/
theorem takeAct_text {script i : Nat} {s : Script α} {a : Act α} {w' : World α}
    (h : w.takeAct script i = some (s, a, w')) :
    (w.scripts.map Script.text)[script]? = some s.text ∧ a ∈ s.text.2 ∧ Rests t [] w w' := by
  obtain ⟨hs, ⟨left, ha⟩, s', owner, acts, rfl⟩ := takeAct_spends h
  have here : (w.scripts.map Script.text)[script]? = some s.text := by simp [hs]
  have text : s'.text = s.text := Prod.ext owner acts
  refine ⟨here, List.mem_map_of_mem ha, rfl, rfl, ?_, (List.append_nil _).symm⟩
  obtain ⟨hlt, same⟩ := List.getElem?_eq_some_iff.mp here
  rw [List.map_set, text, ← same, List.set_getElem_self hlt]

variable [BEq α]

/-- Each listener is told once. -/
theorem Calm.notify (calm : w.Calm t) (runs : Gentle t run) (hm : w.member? key = some m)
    (change : Change α) :
    Rests t (t.seen (m.body.heard key change)) w (w.notify run key change) := by
  simp only [World.notify, hm, Option.bind_some, Body.heard]
  cases audience : change.audience m.body.listeners with
  | none => exact .refl w
  | some listeners =>
    rw [Option.getD_some, List.map_eq_flatMap, Tally.seen_flatMap]
    refine rests_foldl (I := fun w => w.Calm t ∧ ∀ s ∈ m.body.hearers, w.Mild t s) ?_ ?_
      ⟨calm, calm hm⟩
    · exact fun rests h => ⟨rests.calm h.1, fun s hs => rests.mild (h.2 s hs)⟩
    · intro w l hl ⟨calm, mild⟩
      refine calm.record_runScript runs Tally.seen_singleton.symm fun s hs => mild s ?_
      exact mem_hearers_of_listener (Change.mem_slots_of_audience audience hl) hs

theorem Calm.announce_push (calm : w.Calm t) (runs : Gentle t run) (hm : w.member? key = some m)
    (change : Change α) :
    Rests t (t.seen (m.body.tidings key change)) w
      ((w.announce run key change).push run key).1 := by
  have recorded := Rests.recorded (t := t) w (.committed key change)
  have told := (recorded.calm calm).notify runs ((recorded.member? key).trans hm) change
  have announced := recorded.append told
  exact announced.append ((announced.calm calm).push runs ((announced.member? key).trans hm))

@[simp] theorem settle_reply {ρ : Type} (s : Step (Body α) α ρ) :
    (w.settle run key s).2 = s.reply := by
  unfold settle
  split <;> rfl

/-- A step goes into the world as it is, and only its own events are seen. -/
theorem Calm.settle {ρ : Type} (runs : Gentle t run) (hm : w.member? key = some m)
    {s : Step (Body α) α ρ} (calm : (w.setMember key { m with body := s.state }).Calm t) :
    Rests t (t.seen (s.tidings key)) (w.setMember key { m with body := s.state })
      (w.settle run key s).1 := by
  have noted := Rests.noteCheck (t := t) w key s.checked
  have hm' : (w.noteCheck key s.checked).member? key = some m := (noted.member? key).trans hm
  have put := noted.setMember key { m with body := s.state }
  unfold World.settle Step.tidings
  simp only [mapBody_of_member? hm']
  cases s.change with
  | none => simpa using put
  | some change =>
    have here := (put.member? key).trans (member?_setMember_self hm _)
    exact put.append ((put.calm calm).announce_push runs here change)

/-- A step that leaves the body as it is and checks nothing leaves the world as it is. -/
theorem settle_of_stays {ρ : Type} (hm : w.member? key = some m) {s : Step (Body α) α ρ}
    (stays : s.state = m.body) (untold : s.change = none) (unchecked : s.checked = none) :
    (w.settle run key s).1 = w := by
  unfold World.settle
  simp only [untold, unchecked, noteCheck, stays, mapBody_self hm]

/-- A write through a handle that reaches no member is only recorded. -/
theorem rests_poke {p : Poke α} (mute : w.Mute p.handle) : Rests t [] w (w.poke run p) := by
  have noted {w : World α} {reply : Reply α} : Rests t [] w (w.record (.poked p.handle reply)) :=
    .record w (by rw [t.poked, Option.toList_none])
  unfold World.poke
  cases hk : w.handleKey? p.handle with
  | none => exact noted
  | some key =>
    simp only [setShared, mute key hk]
    exact noted

theorem rests_pokes (run : Runner α) {ps : List (Poke α)} (mute : ∀ p ∈ ps, w.Mute p.handle) :
    Rests t [] w (ps.foldl (fun w p => w.poke run p) w) :=
  rests_foldl_still (I := fun v => v.Mute = w.Mute) (fun rests same => rests.mute.trans same)
    (fun _ p hp same => rests_poke (same ▸ mute p hp)) rfl

/-- A command that only looks leaves the world as it is, or stores a value outside, or pushes. -/
theorem exec_of_looks (run : Runner α) (w : World α) (key : Nat) {c : Command α}
    (looks : c.looks = true) :
    (w.exec run key c).1 = w ∨
      (∃ v, c = .setOutside v ∧ (w.exec run key c).1 = w.setVariable key v) ∨
      c = .call .push ∧ (w.exec run key c).1 = (w.push run key).1 := by
  cases hm : w.member? key with
  | none =>
    simp only [World.exec, hm]
    exact .inl trivial
  | some m =>
    cases c <;> simp only [World.exec, hm]
    case setOutside v => exact .inr (.inl ⟨v, rfl, rfl⟩)
    case call c =>
      unfold World.callThrough
      split
      · cases c
        case push => exact .inr (.inr ⟨rfl, rfl⟩)
        case pull | apply | revert | validate | undo | redo | clear | setVisible | setAdvanced |
            setGroup | setValueText | setShown | setTemplate | setTooltipHook | setMenuHook |
            setImmediate => cases looks
        all_goals exact .inl (settle_of_stays hm rfl rfl rfl)
      · exact .inl rfl
    case edit e =>
      cases e
      case cellChanged =>
        refine .inl ?_
        cases hb : m.body with
        | plain p => exact settle_of_stays hm (hb ▸ rfl) rfl rfl
        | config c => exact settle_of_stays hm (hb ▸ rfl) rfl rfl
        | _ => rfl
      all_goals cases looks
    case get | source => split <;> exact .inl rfl
    case setName | setTooltip | setMode | clearChanged | draw | setWidget | refresh | listen |
        unlisten | unlistenAll | bindGetter | bindSetter | takeHandle | setThroughHandle |
        pullThroughHandle => cases looks
    all_goals exact .inl trivial

theorem Calm.exec (calm : w.Calm t) (runs : Gentle t run) (key : Nat) {c : Command α}
    (looks : c.looks = true) (pushes : c = .call .push → t.Pushes) :
    Rests t [] w (w.exec run key c).1 := by
  rcases exec_of_looks run w key looks with stays | ⟨v, -, stored⟩ | ⟨push, pushed⟩
  · rw [stays]
    exact .refl w
  · rw [stored]
    exact .setVariable w key v
  · rw [pushed]
    cases hm : w.member? key with
    | none =>
      simp only [World.push, hm]
      exact .refl w
    | some m =>
      refine (calm.push runs hm).unseen fun e he => ?_
      unfold Body.outgoing at he
      split at he
      · rw [List.mem_singleton.mp he]
        exact pushes push key m.body.value
      · cases he

/-- An act of a script that only looks comes to nothing when its command does. -/
theorem Mild.perform_of_exec {script : Nat} (mild : w.Mild t script)
    (carries : ∀ {v : World α} (_ : Rests t [] w v) (key : Nat) {c : Command α}, c.looks = true →
      (c = .call .push → t.Pushes) → Rests t [] v (v.exec run key c).1) (i : Nat) :
    Rests t [] w (w.perform run script i) := by
  unfold World.perform
  split
  · exact .refl w
  · rename_i s times c w' taken
    obtain ⟨text, mem, spent⟩ := takeAct_text (t := t) taken
    obtain ⟨looks, pushes⟩ : Act.Looks t w.Mute (.command times c) := mild _ text _ mem
    have carried := carries spent s.owner looks pushes
    exact spent.still (carried.still (.record _ (by rw [t.acted, Option.toList_none])))
  · rename_i s p w' taken
    obtain ⟨text, mem, spent⟩ := takeAct_text (t := t) taken
    have mute : w'.Mute p.handle := spent.mute ▸ mild _ text _ mem
    exact spent.still (rests_poke mute)

theorem Calm.perform (calm : w.Calm t) (runs : Gentle t run) {script : Nat}
    (mild : w.Mild t script) (i : Nat) : Rests t [] w (w.perform run script i) :=
  mild.perform_of_exec (fun spent key _ looks => (spent.calm calm).exec runs key looks) i

/-- Induction on the depth of nesting: what runs one level further in is gentle already. -/
theorem gentle_react (t : Tally α β) (depth : Nat) : Gentle t (react depth) := by
  induction depth with
  | zero => exact fun _ w _ _ => .refl w
  | succ depth ih =>
    intro script w calm mild
    exact rests_foldl_still (I := fun w => w.Calm t ∧ w.Mild t script)
      (fun rests h => ⟨rests.calm h.1, rests.mild h.2⟩)
      (fun _ i _ h => h.1.perform ih h.2 i) ⟨calm, mild⟩

end Running

end World

end BoundValues
