import BoundValues.Proofs.Course
import BoundValues.World.Create

namespace BoundValues

variable {α : Type}

def Event.commit? (key : Nat) : Event α → Option (Change α)
  | .committed k change => if k = key then some change else none
  | _ => none

def Event.call? (key : Nat) (who : String) : Event α → Option (Change α)
  | .notified k name _ change => if k = key ∧ name = who then some change else none
  | _ => none

theorem Event.call?_of_ne {k key : Nat} (h : k ≠ key) (who name : String) (form : ListenerForm)
    (change : Change α) : (Event.notified k name form change).call? key who = none :=
  if_neg fun he => h he.1

theorem Event.Aside.commit? {e : Event α} (h : e.Aside) (key : Nat) : e.commit? key = none := by
  cases h <;> rfl

theorem Event.Aside.call? {e : Event α} (h : e.Aside) (key : Nat) (who : String) :
    e.call? key who = none := by
  cases h <;> rfl

namespace World

def commits (w : World α) (key : Nat) : List (Change α) := w.log.filterMap (Event.commit? key)

def calls (w : World α) (key : Nat) (who : String) : List (Change α) :=
  w.log.filterMap (Event.call? key who)

def body? (w : World α) (key : Nat) : Option (Body α) := (w.member? key).map Member.body

def value? (w : World α) (key : Nat) : Option α := (w.body? key).map Body.value

section Lookup

variable {w : World α} {key : Nat} {m : Member α}

@[simp] theorem commits_record (w : World α) (e : Event α) (key : Nat) :
    (w.record e).commits key = w.commits key ++ (e.commit? key).toList := by
  simp only [commits, record, List.filterMap_append]
  cases h : e.commit? key <;> simp [h]

@[simp] theorem calls_record (w : World α) (e : Event α) (key : Nat) (who : String) :
    (w.record e).calls key who = w.calls key who ++ (e.call? key who).toList := by
  simp only [calls, record, List.filterMap_append]
  cases h : e.call? key who <;> simp [h]

@[simp] theorem body?_record (w : World α) (e : Event α) (key : Nat) :
    (w.record e).body? key = w.body? key := rfl

theorem body?_of_member? (h : w.member? key = some m) : w.body? key = some m.body := by
  simp [body?, h]

theorem member?_of_body? {b : Body α} (h : w.body? key = some b) :
    ∃ m, w.member? key = some m ∧ m.body = b := by
  simpa [body?] using h

theorem body?_setMember (h : w.member? key = some m) (m' : Member α) (k : Nat) :
    (w.setMember key m').body? k = if k = key then some m'.body else w.body? k := by
  split
  · rename_i he
    subst he
    exact body?_of_member? (member?_setMember_self h m')
  · rename_i hn
    simp only [body?, member?_setMember_of_ne hn]

theorem value?_of_member? (h : w.member? key = some m) : w.value? key = some m.body.value := by
  simp [value?, body?_of_member? h]

theorem body?_commit (h : w.member? key = some m) (b : Body α) (change : Change α) (k : Nat) :
    (w.commit key m b change).body? k = if k = key then some b else w.body? k :=
  body?_setMember h { m with body := b } k

@[simp] theorem commits_commit (w : World α) (key : Nat) (m : Member α) (b : Body α)
    (change : Change α) (k : Nat) :
    (w.commit key m b change).commits k = w.commits k ++ if key = k then [change] else [] := by
  simp only [commit, commits_record, Event.commit?]
  split <;> rfl

@[simp] theorem calls_commit (w : World α) (key : Nat) (m : Member α) (b : Body α)
    (change : Change α) (k : Nat) (who : String) :
    (w.commit key m b change).calls k who = w.calls k who := by
  simp only [commit, calls_record, Event.call?, Option.toList_none, List.append_nil]
  rfl

/-- Hooks that only report leave the members alone. -/
theorem body?_runHooks {hooks : Hooks} {response : Response}
    (idle : ∀ h ∈ hooks.due response.hovered response.menu, h.2.script = none) (run : Runner α)
    (w : World α) (k : Nat) : (w.runHooks run key hooks response).body? k = w.body? k := by
  unfold runHooks
  generalize hooks.due response.hovered response.menu = due at idle ⊢
  induction due generalizing w with
  | nil => rfl
  | cons h due ih =>
    rw [List.foldl_cons, ih _ fun h hh => idle h (List.mem_cons_of_mem _ hh)]
    simp only [idle h List.mem_cons_self, runScript, body?_record]

/-- What is asked of a member through a capability that it has, and that leads nowhere outside. -/
theorem exec_call_of_answers [BEq α] (hm : w.member? key = some m) {run : Runner α} {c : Call}
    (answers : m.interface.answers c.capability = true) (inward : c.capability ≠ .external) :
    w.exec run key (.call c) = w.settle run key (c.step m) := by
  simp only [exec, hm, callThrough, answers, if_true]
  cases c
  case pull | push => exact absurd rfl inward
  all_goals rfl

theorem Obeys.commit {r : Rules α} (h : w.Obeys r) (key : Nat) (m : Member α) (b : Body α)
    (change : Change α) : (w.commit key m b change).Obeys r :=
  h.congr rfl rfl

end Lookup

def solo (kind : Kind) (linked : Bool) : World Nat :=
  create (react 0) "v"
    { kind, linked, type := ⟨"u64", fun _ n => toString n, String.toNat?⟩, initial := 0, outside := 0 }
    {}

section Announcing

variable [BEq α] {r : Rules α} {T : World α → World α → Prop} {depth : Nat}

/-- Listeners are told one by one, so what each call keeps is kept by all of them. -/
theorem notify_under (refl : ∀ w, T w w) (trans : ∀ a b c : World α, T a b → T b c → T a c)
    (runs : Runs r T depth) {key : Nat} {change : Change α}
    (told : ∀ w name form, T w (w.record (.notified key name form change))) (w : World α) :
    Under r T w (w.notify (react depth) key change) := by
  unfold notify
  split
  · refine under_foldl refl trans ?_ _ w
    intro w l
    have recorded : Under r T w (w.record (.notified key l.name l.form change)) :=
      .of_same rfl rfl (told w l.name l.form)
    exact recorded.trans trans (runScript_under refl runs l.script _)
  · exact .of_same rfl rfl (refl w)

/-- When nobody's call matters, only the commit itself has to keep the relation. -/
theorem commit_notify_under (refl : ∀ w, T w w) (trans : ∀ a b c : World α, T a b → T b c → T a c)
    (runs : Runs r T depth) {w : World α} {key : Nat} {m : Member α} {b : Body α} {change : Change α}
    (committed : T w (w.commit key m b change))
    (told : ∀ w name form, T w (w.record (.notified key name form change))) :
    Under r T w ((w.commit key m b change).notify (react depth) key change) := by
  have first : Under r T w (w.commit key m b change) := .of_same rfl rfl committed
  exact first.trans trans (notify_under refl trans runs told _)

/-- What storing the committed value outside keeps, a push keeps. -/
theorem push_under (refl : ∀ w, T w w) (trans : ∀ a b c : World α, T a b → T b c → T a c)
    (runs : Runs r T depth) {key : Nat}
    (stored : ∀ {w : World α} {m : Member α} external, w.member? key = some m →
      T w ((w.record (.pushed key m.body.value)).setVariable external m.body.value))
    (w : World α) : Under r T w (w.push (react depth) key).1 := by
  unfold push
  split
  · exact .of_same rfl rfl (refl w)
  · rename_i m hm
    split
    · exact .of_same rfl rfl (refl w)
    · rename_i setter _
      have pushed : Under r T w
          ((w.record (.pushed key m.body.value)).setVariable setter.external m.body.value) :=
        .of_same rfl rfl (stored setter.external hm)
      exact pushed.trans trans (runScript_under refl runs setter.script _)

/-- A pull comes to nothing, or it reads the outside variable and takes over what was read. -/
theorem pull_cases (run : Runner α) (key : Nat) (w : World α) :
    w.pull run key = (w, false) ∨ ∃ m getter v, w.member? key = some m ∧
      m.body.link.getter = some getter ∧ m.body.hasPending = false ∧
      w.externals[getter.external]? = some v ∧
      w.pull run key =
        ((w.record (.read key v)).runScript run getter.script).commitPulled run key v := by
  unfold pull
  split
  · exact .inl rfl
  · rename_i m hm
    split
    · exact .inl rfl
    · rename_i getter hg
      split
      · exact .inl rfl
      · rename_i hp
        split
        · exact .inl rfl
        · rename_i v hv
          exact .inr ⟨m, getter, v, hm, hg, by simpa using hp, hv, rfl⟩

/-- What reading, taking over just the value that was read and telling of it keep, a pull keeps. -/
theorem pull_taking_under (refl : ∀ w, T w w) (trans : ∀ a b c : World α, T a b → T b c → T a c)
    (runs : Runs r T depth) {key : Nat} (read : ∀ w v, T w (w.record (.read key v)))
    (quiet : ∀ {w : World α} {m : Member α} (v : α), w.member? key = some m →
      (m.body.commitPulled v).change = none →
      T w (w.setMember key { m with body := (m.body.commitPulled v).state }))
    (told : ∀ {w : World α} {m : Member α} (v : α) {change : Change α}, w.member? key = some m →
      (m.body.commitPulled v).change = some change →
      Under r T w ((w.commit key m (m.body.commitPulled v).state change).notify
        (react depth) key change))
    (w : World α) : Under r T w (w.pull (react depth) key).1 := by
  have same : ∀ w : World α, Under r T w w := fun w => .of_same rfl rfl (refl w)
  rcases pull_cases (react depth) key w with nothing | ⟨_, getter, v, _, _, _, _, reads⟩
  · rw [nothing]
    exact same w
  · rw [reads]
    have reading : Under r T w (w.record (.read key v)) := .of_same rfl rfl (read w v)
    refine reading.trans trans ((runScript_under refl runs getter.script _).trans trans ?_)
    unfold commitPulled
    split
    · exact same _
    · rename_i m hm
      simp only [mapBody_of_member? hm]
      cases hc : (m.body.commitPulled v).change with
      | none => exact .of_same rfl rfl (quiet v hm hc)
      | some change => exact told v hm hc

/-- What reading, taking over a value and telling of it keep, a pull keeps. -/
theorem pull_under (refl : ∀ w, T w w) (trans : ∀ a b c : World α, T a b → T b c → T a c)
    (runs : Runs r T depth) {key : Nat} (read : ∀ w v, T w (w.record (.read key v)))
    (quiet : ∀ {w : World α} {m : Member α} {b : Body α}, w.member? key = some m →
      m.body.Moves (fun _ => False) b none → T w (w.setMember key { m with body := b }))
    (told : ∀ {w : World α} {m : Member α} {b : Body α} {change : Change α},
      w.member? key = some m → m.body.Moves (fun _ => False) b (some change) →
      Under r T w ((w.commit key m b change).notify (react depth) key change))
    (w : World α) : Under r T w (w.pull (react depth) key).1 :=
  pull_taking_under refl trans runs read
    (fun v hm hc => quiet hm (hc ▸ Body.commitPulled_moves _ v))
    (fun v _ hm hc => told hm (hc ▸ Body.commitPulled_moves _ v)) w

/-- Reading and storing outside keep a steady relation, and a value that is pulled is committed like any
other: then telling of commits is all that needs care. -/
theorem course_of_steady {good : Nat → Body α → Body α → Option (Change α) → Prop}
    (steady : Steady r good T) (read : ∀ (w : World α) key v, T w (w.record (.read key v)))
    (stored : ∀ (w : World α) key v external,
      T w ((w.record (.pushed key v)).setVariable external v))
    (pulled : ∀ {key} (b : Body α) (v : α), r.Pulls key →
      good key b (b.commitPulled v).state (b.commitPulled v).change)
    (told : ∀ {depth : Nat}, Runs r T depth → ∀ {w : World α} {key : Nat} {m : Member α}
      {b : Body α} {change : Change α}, w.member? key = some m → good key m.body b (some change) →
      Under r T w ((w.commit key m b change).notify (react depth) key change)) :
    Course r good T where
  toSteady := steady
  commit runs := fun hm hg =>
    (told runs hm hg).trans steady.trans
      (push_under steady.refl steady.trans runs (fun external _ => stored _ _ _ external) _)
  pull runs w key hp := by
    refine pull_taking_under steady.refl steady.trans runs (fun w => read w key) ?_ ?_ w
    · intro w m v hm quiet
      exact steady.turn hm (.step (quiet ▸ pulled m.body v hp)) (continues_refl _)
    · intro w m v change hm hc
      exact told runs hm (hc ▸ pulled m.body v hp)
  push runs w key :=
    push_under steady.refl steady.trans runs (fun external _ => stored _ key _ external) w

/-- A course that needs no care beyond telling of commits: reading and storing outside keep the
relation, and a value that is pulled is committed like any other. -/
structure Routine (r : Rules α) (good : Nat → Body α → Body α → Option (Change α) → Prop)
    (R : World α → World α → Prop) : Prop extends Steady r good R where
  read (w : World α) (key : Nat) (v : α) : R w (w.record (.read key v))
  stored (w : World α) (key : Nat) (v : α) (external : Nat) :
    R w ((w.record (.pushed key v)).setVariable external v)
  pulled {key : Nat} {b b' : Body α} {change : Option (Change α)} (h : r.Pulls key)
    (moves : b.Moves (fun _ => False) b' change) : good key b b' change
  told {depth : Nat} (runs : Runs r R depth) {w : World α} {key : Nat} {m : Member α}
    {b : Body α} {change : Change α} (hm : w.member? key = some m)
    (h : good key m.body b (some change)) :
    Under r R w ((w.commit key m b change).notify (react depth) key change)

theorem Routine.course {good : Nat → Body α → Body α → Option (Change α) → Prop}
    {R : World α → World α → Prop} (h : Routine r good R) : Course r good R :=
  course_of_steady h.toSteady h.read h.stored
    (fun b v hp => h.pulled hp (b.commitPulled_moves v)) h.told

end Announcing

end World

end BoundValues
