import BoundValues.Proofs.Views

namespace BoundValues

variable {α : Type}

/-- A pull that tells of a change has taken over the value that it read. -/
theorem Body.commitPulled_value [BEq α] {b : Body α} {v : α} {change : Change α}
    (h : (b.commitPulled v).change = some change) : (b.commitPulled v).state.value = v := by
  have monitored : ∀ m : Monitored α, (m.commitPulled v).change = some change →
      (m.commitPulled v).state.cell.value = v := by
    intro m hm
    simp only [Monitored.commitPulled, Monitored.commitFrom] at hm ⊢
    split at hm
    · cases hm
    · rename_i hn
      simp only [hn, Bool.false_eq_true, ↓reduceIte]
      rfl
  cases b with
  | plain p => cases h
  | monitored m => exact monitored m h
  | captioned m caption => exact monitored m h
  | config c => cases h
  | full f =>
    simp only [Body.commitPulled, Step.change_map, Step.state_map, Full.commitPulled] at h ⊢
    split at h
    · cases h
    · rename_i hn
      rw [if_neg hn]
      rfl

/-- Taking over the committed value changes nothing. -/
theorem Body.commitPulled_same [BEq α] [LawfulBEq α] (b : Body α) :
    b.commitPulled b.value = { state := b, reply := false } := by
  have monitored : ∀ m : Monitored α,
      m.commitPulled m.cell.value = { state := m, reply := false } := by
    intro m
    simp [Monitored.commitPulled, Monitored.commitFrom]
  cases b with
  | plain p => rfl
  | monitored m => simp [commitPulled, value, cell, monitored m, Step.map]
  | captioned m caption => simp [commitPulled, value, cell, monitored m, Step.map]
  | config c => rfl
  | full f => simp [commitPulled, value, cell, Full.commitPulled, Step.map]

namespace World

def Idle (w : World α) (script : Option Nat) : Prop :=
  ∀ i ∈ script, ∃ s, w.scripts[i]? = some s ∧ s.acts = []

/-- A member that reads its outside variable and writes to it. Reading does nothing else, and nobody
else writes there. -/
structure Bound (w : World α) (key : Nat) : Prop where
  stored : key < w.externals.length
  linked : ∃ b g s, w.body? key = some b ∧ b.link.getter = some g ∧ b.link.setter = some s ∧
    g.external = key ∧ s.external = key ∧ w.Idle g.script
  apart : ∀ k b s, k ≠ key → w.body? k = some b → b.link.setter = some s → s.external ≠ key

def Agrees (w : World α) (key : Nat) : Prop := w.externals[key]? = w.value? key

structure Still (key : Nat) (w w' : World α) : Prop where
  commits : w'.commits key = w.commits key
  value : w'.value? key = w.value? key
  outside : w'.externals[key]? = w.externals[key]?

/-- Either nothing happened, or there is agreement at the end. A pull has no push of its own and
needs the first case; every commit by other means ends in the second. -/
def Agreeing (key : Nat) (w w' : World α) : Prop :=
  w.Bound key → w'.Bound key ∧ (w'.Agrees key ∨ Still key w w')

/-- Requests that leave the link as it is: the outside variable changes through the setter only, and
the getter stays. -/
def keepsLink (key : Nat) : Rules α :=
  .commands fun k c => k = key → (∀ v, c ≠ .setOutside v) ∧ ∀ acts, c ≠ .bindGetter acts

section Steps

variable {key : Nat} {w w' w'' : World α}

theorem Still.refl (w : World α) : Still key w w := ⟨rfl, rfl, rfl⟩

theorem Still.trans (h : Still key w w') (h' : Still key w' w'') : Still key w w'' :=
  ⟨h'.commits.trans h.commits, h'.value.trans h.value, h'.outside.trans h.outside⟩

theorem Agrees.still (h : w.Agrees key) (hs : Still key w w') : w'.Agrees key := by
  unfold Agrees
  rw [hs.outside, hs.value]
  exact h

theorem Agreeing.refl (w : World α) : Agreeing key w w := fun h => ⟨h, .inr (.refl w)⟩

theorem Agreeing.trans (a b c : World α) (h : Agreeing key a b) (h' : Agreeing key b c) :
    Agreeing key a c := by
  intro ha
  obtain ⟨hb, hab⟩ := h ha
  obtain ⟨hc, hbc⟩ := h' hb
  refine ⟨hc, ?_⟩
  rcases hbc with agrees | still
  · exact .inl agrees
  · exact hab.imp (fun agrees => agrees.still still) fun first => first.trans still

theorem Idle.continues {script : Option Nat} (h : w.Idle script)
    (hs : Continues w.scripts w'.scripts) : w'.Idle script := by
  intro i hi
  obtain ⟨s, hw, ha⟩ := h i hi
  obtain ⟨s', hw', _, ha'⟩ := hs i s hw
  refine ⟨s', hw', ?_⟩
  rw [ha] at ha'
  exact List.map_eq_nil_iff.mp ha'

theorem Idle.runScript [BEq α] {script : Option Nat} (h : w.Idle script) (depth : Nat) :
    w.runScript (react depth) script = w := by
  cases script with
  | none => rfl
  | some i =>
    obtain ⟨s, hw, ha⟩ := h i rfl
    cases depth with
    | zero => rfl
    | succ depth => simp [World.runScript, react, actCount, hw, ha]

/-- Whatever leaves the members, the scripts and the number of outside variables alone. -/
theorem Bound.congr (h : w.Bound key) (slots : w'.slots = w.slots)
    (scripts : Continues w.scripts w'.scripts)
    (externals : w'.externals.length = w.externals.length) : w'.Bound key := by
  have bodies : ∀ k, w'.body? k = w.body? k := by
    intro k
    simp only [body?, member?, slots]
  obtain ⟨b, g, s, hb, hg, hs, hge, hse, idle⟩ := h.linked
  refine ⟨externals ▸ h.stored, ?_, ?_⟩
  · exact ⟨b, g, s, (bodies key).trans hb, hg, hs, hge, hse, idle.continues scripts⟩
  · intro k b s hk hb hs
    exact h.apart k b s hk (bodies k ▸ hb) hs

/-- A member may change all but its getter. A new setter writes to its own variable. -/
theorem Bound.setMember (h : w.Bound key) {k : Nat} {m : Member α}
    (hm : w.member? k = some m) (m' : Member α)
    (getter : k = key → m'.body.link.getter = m.body.link.getter)
    (setter : m'.body.link.setter = m.body.link.setter ∨
      ∃ script, m'.body.link.setter = some ⟨k, script⟩) : (w.setMember k m').Bound key := by
  obtain ⟨b, g, s, hb, hg, hs, hge, hse, idle⟩ := h.linked
  refine ⟨h.stored, ?_, ?_⟩
  · rw [body?_setMember hm]
    by_cases hk : key = k
    · subst hk
      have hmb : m.body = b := by
        rw [body?_of_member? hm] at hb
        exact Option.some.inj hb
      have setter' : ∃ s', m'.body.link.setter = some s' ∧ s'.external = key := by
        rcases setter with same | ⟨script, new⟩
        · exact ⟨s, by rw [same, hmb, hs], hse⟩
        · exact ⟨_, new, rfl⟩
      obtain ⟨s', hs', hse'⟩ := setter'
      exact ⟨m'.body, g, s', if_pos rfl, by rw [getter rfl, hmb, hg], hs', hge, hse', idle⟩
    · exact ⟨b, g, s, by rw [if_neg hk, hb], hg, hs, hge, hse, idle⟩
  · intro j c t hj hc ht
    rw [body?_setMember hm] at hc
    split at hc
    · rename_i hjk
      subst hjk
      cases hc
      rcases setter with same | ⟨script, new⟩
      · exact h.apart j m.body t hj (body?_of_member? hm) (same ▸ ht)
      · rw [new] at ht
        cases ht
        exact hj
    · exact h.apart j c t hj hc ht

theorem turns_link {k : Nat} {m m' : Member α}
    (h : m.Turns (keepsLink key) (fun _ => Body.Faithful) k m') :
    (k = key → m'.body.link.getter = m.body.link.getter) ∧
      (m'.body.link.setter = m.body.link.setter ∨
        ∃ script, m'.body.link.setter = some ⟨k, script⟩) := by
  cases h with
  | bindGetter allowed script =>
    refine ⟨fun hk => absurd rfl ((allowed hk).2 _), .inl ?_⟩
    cases m.body <;> rfl
  | bindSetter allowed script =>
    refine ⟨fun _ => by cases m.body <;> rfl, ?_⟩
    cases hb : m.body.shared with
    | true => exact .inr ⟨some script, by rw [Body.link_mapLink _ hb]⟩
    | false => exact .inl (by cases hm : m.body <;> simp_all [Body.shared, Body.mapLink])
  | step h => exact ⟨fun _ => by rw [h.link], .inl (by rw [h.link])⟩
  | _ => simp [Member.connect]

theorem Bound.shared (h : w.Bound key) {m : Member α} (hm : w.member? key = some m) :
    m.body.shared = true := by
  obtain ⟨b, g, s, hb, hg, _⟩ := h.linked
  rw [body?_of_member? hm] at hb
  cases hb
  exact Body.shared_of_linked (by simp [Link.linked, hg])

/-- Nobody hears of what becomes of a member in one go, so it is no commit. -/
theorem agreeing_turn {k : Nat} {m m' : Member α} {ss : List (Script α)}
    (hm : w.member? k = some m) (h : m.Turns (keepsLink key) (fun _ => Body.Faithful) k m')
    (hs : Continues w.scripts ss) :
    Agreeing key w { w.setMember k m' with scripts := ss } := by
  intro bound
  obtain ⟨getter, setter⟩ := turns_link h
  refine ⟨(bound.setMember hm m' getter setter).congr rfl hs rfl, .inr ⟨rfl, ?_, rfl⟩⟩
  change ((w.setMember k m').body? key).map Body.value = _
  rw [body?_setMember hm]
  split
  · rename_i hk
    subst hk
    rw [value?_of_member? hm, ← h.value (bound.shared hm)]
    rfl
  · rfl

/-- Events leave the link alone; those that tell of no commit leave everything alone. -/
theorem agreeing_record (w : World α) {e : Event α} (h : e.commit? key = none) :
    Agreeing key w (w.record e) :=
  fun bound => ⟨bound.congr rfl (continues_refl _) rfl, .inr ⟨by simp [h], rfl, rfl⟩⟩

theorem agreeing_setVariable (w : World α) {external : Nat} (v : α) (h : external ≠ key) :
    Agreeing key w (w.setVariable external v) := by
  intro bound
  refine ⟨bound.congr rfl (continues_refl _) (by simp [setVariable]), .inr ⟨rfl, rfl, ?_⟩⟩
  simp [setVariable, List.getElem?_set_ne h]

/-- A commit leaves the link in place, so that the push at its end can mend the agreement. -/
theorem Bound.commit (bound : w.Bound key) {k : Nat} {m : Member α} {b : Body α}
    {change : Change α} (hm : w.member? k = some m) (h : m.body.Faithful b (some change)) :
    (w.commit k m b change).Bound key :=
  (bound.setMember hm { m with body := b } (fun _ => by rw [h.link])
    (.inl (by rw [h.link]))).congr rfl (continues_refl _) rfl

end Steps

section Happenings

variable [BEq α] {key depth : Nat}

/-- A push ends in agreement: it gives away the value of that very moment, and what the setter sets
off keeps the agreement. -/
theorem push_agrees (runs : Runs (keepsLink key : Rules α) (Agreeing key) depth) (w : World α) :
    Under (keepsLink key) (fun a b => a.Bound key → b.Bound key ∧ b.Agrees key) w
      (w.push (react depth) key).1 := by
  intro ho
  unfold push
  split
  · rename_i hm
    refine ⟨ho, fun bound => ?_⟩
    obtain ⟨b, _, _, hb, _⟩ := bound.linked
    obtain ⟨m, hm', _⟩ := member?_of_body? hb
    rw [hm] at hm'
    cases hm'
  · rename_i m hm
    split
    · rename_i hs
      refine ⟨ho, fun bound => ?_⟩
      obtain ⟨b, _, s, hb, _, hs', _⟩ := bound.linked
      rw [body?_of_member? hm] at hb
      cases hb
      rw [hs] at hs'
      cases hs'
    · rename_i setter hs
      obtain ⟨ho', agreeing⟩ := runScript_under Agreeing.refl runs setter.script
        ((w.record (.pushed key m.body.value)).setVariable setter.external m.body.value)
        (ho.congr rfl rfl)
      refine ⟨ho', fun bound => ?_⟩
      have external : setter.external = key := by
        obtain ⟨b, _, s, hb, _, hs', _, he, _⟩ := bound.linked
        rw [body?_of_member? hm] at hb
        cases hb
        rw [hs] at hs'
        cases hs'
        exact he
      have pushed : ((w.record (.pushed key m.body.value)).setVariable setter.external
          m.body.value).Agrees key := by
        change (w.externals.set setter.external m.body.value)[key]? = w.value? key
        rw [external, value?_of_member? hm, List.getElem?_set_self bound.stored]
      obtain ⟨bound', agrees | still⟩ :=
        agreeing (bound.congr rfl (continues_refl _) (by simp [setVariable, record]))
      · exact ⟨bound', agrees⟩
      · exact ⟨bound', pushed.still still⟩

theorem agreeing_push (runs : Runs (keepsLink key : Rules α) (Agreeing key) depth) (w : World α)
    (k : Nat) :
    Under (keepsLink key) (Agreeing key) w (w.push (react depth) k).1 := by
  by_cases hk : k = key
  · subst hk
    exact (push_agrees runs w).mono fun a b h bound => ⟨(h bound).1, .inl (h bound).2⟩
  · intro ho
    unfold push
    split
    · exact ⟨ho, .refl w⟩
    · rename_i m hm
      split
      · exact ⟨ho, .refl w⟩
      · rename_i setter hs
        obtain ⟨ho', agreeing⟩ := runScript_under Agreeing.refl runs setter.script
          ((w.record (.pushed k m.body.value)).setVariable setter.external m.body.value)
          (ho.congr rfl rfl)
        refine ⟨ho', fun bound => ?_⟩
        have elsewhere := bound.apart k m.body setter hk (body?_of_member? hm) hs
        have recorded : Agreeing key w (w.record (.pushed k m.body.value)) :=
          agreeing_record w rfl
        have stored := agreeing_setVariable (w.record (.pushed k m.body.value)) m.body.value elsewhere
        exact (recorded.trans _ _ _ (stored.trans _ _ _ agreeing)) bound

theorem agreeing_notify (runs : Runs (keepsLink key : Rules α) (Agreeing key) depth) (w : World α)
    (k : Nat) (change : Change α) :
    Under (keepsLink key) (Agreeing key) w (w.notify (react depth) k change) :=
  notify_under Agreeing.refl Agreeing.trans runs (fun w _ _ => agreeing_record w rfl) w

/-- A commit to another member cannot break the agreement, as nobody else writes to the variable. -/
theorem agreeing_elsewhere (runs : Runs (keepsLink key : Rules α) (Agreeing key) depth)
    {w : World α} {k : Nat} {m : Member α} {b : Body α} {change : Change α}
    (hm : w.member? k = some m) (h : m.body.Faithful b (some change)) (hk : k ≠ key) :
    Under (keepsLink key) (Agreeing key) w
      ((w.commit k m b change).notify (react depth) k change) := by
  have committed : Under (keepsLink key) (Agreeing key) w (w.commit k m b change) := by
    refine .of_same rfl rfl fun bound => ⟨bound.commit hm h, .inr ⟨?_, ?_, rfl⟩⟩
    · simp [hk]
    · simp only [value?, body?_commit hm, if_neg (Ne.symm hk)]
  exact committed.trans Agreeing.trans (agreeing_notify runs _ k change)

/-- A commit breaks the agreement, and the push at its end mends it. -/
theorem agreeing_commit (runs : Runs (keepsLink key : Rules α) (Agreeing key) depth) {w : World α}
    {k : Nat} {m : Member α} {b : Body α} {change : Change α} (hm : w.member? k = some m)
    (h : m.body.Faithful b (some change)) :
    Under (keepsLink key) (Agreeing key) w
      (((w.commit k m b change).notify (react depth) k change).push (react depth) k).1 := by
  by_cases hk : k = key
  · subst hk
    intro ho
    obtain ⟨hot, told⟩ := agreeing_notify runs _ k change (ho.commit k m b change)
    obtain ⟨hop, pushed⟩ := push_agrees runs _ hot
    refine ⟨hop, fun bound => ?_⟩
    obtain ⟨bound', agrees⟩ := pushed (told (bound.commit hm h)).1
    exact ⟨bound', .inl agrees⟩
  · exact (agreeing_elsewhere runs hm h hk).trans Agreeing.trans (agreeing_push runs _ k)

/-- What a pull takes over is what the outside variable holds: there is agreement before anyone is
told. -/
theorem agreeing_commitPulled (runs : Runs (keepsLink key : Rules α) (Agreeing key) depth)
    {w : World α} {v : α} (hv : w.externals[key]? = some v) :
    Under (keepsLink key) (Agreeing key) w (w.commitPulled (react depth) key v).1 := by
  unfold commitPulled
  split
  · exact .of_same rfl rfl (.refl w)
  · rename_i m hm
    have moves : m.body.Moves (fun _ => False) (m.body.commitPulled v).state
        (m.body.commitPulled v).change := m.body.commitPulled_moves v
    have h := moves.faithful
    simp only [mapBody_of_member? hm]
    cases hc : (m.body.commitPulled v).change with
    | none =>
      rw [hc] at h
      exact .of_same rfl rfl (agreeing_turn hm (.step h) (continues_refl _))
    | some change =>
      rw [hc] at h
      intro ho
      obtain ⟨hot, told⟩ := agreeing_notify runs _ key change (ho.commit key m _ change)
      refine ⟨hot, fun bound => ?_⟩
      have agrees : (w.commit key m (m.body.commitPulled v).state change).Agrees key := by
        change w.externals[key]? = World.value? _ key
        rw [hv, value?, body?_commit hm, if_pos rfl]
        exact congrArg some (Body.commitPulled_value hc).symm
      obtain ⟨bound', kept | still⟩ := told (bound.commit hm h)
      · exact ⟨bound', .inl kept⟩
      · exact ⟨bound', .inl (agrees.still still)⟩

theorem agreeing_pull (runs : Runs (keepsLink key : Rules α) (Agreeing key) depth) (w : World α)
    (k : Nat) : Under (keepsLink key) (Agreeing key) w (w.pull (react depth) k).1 := by
  by_cases hk : k = key
  · subst hk
    by_cases bound : w.Bound k
    · -- The getter's script is idle, so the value taken over is the one just read.
      obtain ⟨b, g, s, hb, hg, _, hge, _, idle⟩ := bound.linked
      obtain ⟨m, hm, rfl⟩ := member?_of_body? hb
      unfold pull
      simp only [hm, hg, hge]
      split
      · exact .of_same rfl rfl (.refl w)
      · split
        · exact .of_same rfl rfl (.refl w)
        · rename_i v hv
          have read : Under (keepsLink k) (Agreeing k) w (w.record (.read k v)) :=
            .of_same rfl rfl (agreeing_record w rfl)
          have idle' : (w.record (.read k v)).Idle g.script := idle.continues (continues_refl _)
          rw [idle'.runScript]
          exact read.trans Agreeing.trans (agreeing_commitPulled runs hv)
    · have kept : Under (keepsLink k) (fun _ _ => True) w (w.pull (react depth) k).1 :=
        pull_under (fun _ => trivial) (fun _ _ _ _ _ => trivial)
          (fun s w => (runs s w).mono fun _ _ _ => trivial) (fun _ _ => trivial)
          (fun _ _ => trivial)
          (fun _ _ ho => ⟨(agreeing_notify runs _ k _ (ho.commit k _ _ _)).1, trivial⟩) w
      exact fun ho => ⟨(kept ho).1, fun h => absurd h bound⟩
  · refine pull_under Agreeing.refl Agreeing.trans runs (fun w v => agreeing_record w rfl) ?_ ?_ w
    · intro w m b hm h
      exact agreeing_turn hm (.step h.faithful) (continues_refl _)
    · intro w m b change hm h
      exact agreeing_elsewhere runs hm h.faithful hk

theorem agreeing_course (key : Nat) :
    Course (keepsLink key : Rules α) (fun _ => Body.Faithful) (Agreeing key) where
  refl := Agreeing.refl
  trans := Agreeing.trans
  steps _ := Body.steps_faithful ..
  note w _ h := agreeing_record w (h.commit? key)
  scripts _ _ h bound := ⟨bound.congr rfl h rfl, .inr ⟨rfl, rfl, rfl⟩⟩
  handle _ _ _ _ bound := ⟨bound.congr rfl (continues_refl _) rfl, .inr ⟨rfl, rfl, rfl⟩⟩
  outside w _ v h := agreeing_setVariable w v fun hk => (h hk).1 v rfl
  turn hm h hs := agreeing_turn hm h hs
  commit runs := agreeing_commit runs
  pull runs w k _ := agreeing_pull runs w k
  push runs w k := agreeing_push runs w k

/-- A pull finds the committed value outside and has nothing to take over. -/
theorem Agrees.pull [LawfulBEq α] {w : World α} (agrees : w.Agrees key) (bound : w.Bound key)
    (depth : Nat) : (w.pull (react depth) key).2 = false ∧
      (w.pull (react depth) key).1.commits key = w.commits key ∧
      (w.pull (react depth) key).1.body? key = w.body? key := by
  obtain ⟨b, g, s, hb, hg, _, hge, _, idle⟩ := bound.linked
  obtain ⟨m, hm, rfl⟩ := member?_of_body? hb
  have hv : w.externals[key]? = some m.body.value := agrees.trans (value?_of_member? hm)
  unfold World.pull
  simp only [hm, hg, hge, hv]
  split
  · exact ⟨rfl, rfl, rfl⟩
  · have idle' : (w.record (.read key m.body.value)).Idle g.script :=
      idle.continues (continues_refl _)
    have hm' : (w.record (.read key m.body.value)).member? key = some m := hm
    rw [idle'.runScript]
    simp only [commitPulled, hm', Body.commitPulled_same, mapBody_of_member? hm']
    refine ⟨trivial, ?_, ?_⟩
    · change (w.record (.read key m.body.value)).commits key = _
      simp [Event.commit?]
    · rw [body?_setMember hm', if_pos rfl, hb]

/-- **Agreement.** When a value is linked to an outside variable, and a request from outside led to a
commit of the value, directly or through whatever its listeners did, then the variable holds the
committed value once the request has come to its end, and pulling the value changes nothing. -/
theorem agrees_after_commit [LawfulBEq α] {w : World α} (bound : w.Bound key)
    (obeys : w.Obeys (keepsLink key)) {q : Request α} (admits : (keepsLink key).Admits q)
    (committed : (w.serve depth q).commits key ≠ w.commits key) (again : Nat) :
    (w.serve depth q).Agrees key ∧
      ((w.serve depth q).pull (react again) key).2 = false ∧
      ((w.serve depth q).pull (react again) key).1.commits key = (w.serve depth q).commits key ∧
      ((w.serve depth q).pull (react again) key).1.body? key = (w.serve depth q).body? key := by
  obtain ⟨_, agreeing⟩ := (agreeing_course key).serve admits depth w obeys
  obtain ⟨bound', agrees | still⟩ := agreeing bound
  · exact ⟨agrees, agrees.pull bound' again⟩
  · exact absurd still.commits committed

end Happenings

/-- A linked value with a listener that writes to it, undoes that and pulls. -/
def echo : World Nat :=
  (solo .full true).serve 0 (.command 0 (.listen "echo" .pair
    [.command 1 (.edit (.set 9)), .command 1 (.call .undo), .command 1 (.call .pull)]))

theorem echo_bound : echo.Bound 0 where
  stored := by decide
  linked := ⟨_, _, _, rfl, rfl, rfl, rfl, rfl, by simp [Idle]⟩
  apart k b s hk hb := by
    obtain ⟨m, hm, _⟩ := member?_of_body? hb
    have hlt : k < 1 := lt_of_member? hm
    omega

theorem echo_obeys : echo.Obeys (keepsLink 0) where
  scripts s hs a ha := by
    have listener : s = ⟨0, "echo", [(.command 1 (.edit (.set 9)), some 1),
        (.command 1 (.call .undo), some 1), (.command 1 (.call .pull), some 1)]⟩ :=
      List.eq_of_mem_singleton hs
    subst listener
    simp only [List.mem_cons, List.not_mem_nil, or_false] at ha
    rcases ha with rfl | rfl | rfl
    all_goals exact .of_plain (fun _ => ⟨by simp, by simp⟩) rfl
  handles _ _ _ := trivial

/-- The listener writes, undoes that and pulls before the outermost set is over. -/
theorem pull_after_nested_writes_commits_nothing :
    (echo.serve 9 (.command 0 (.edit (.set 5)))).Agrees 0 ∧
      ((echo.serve 9 (.command 0 (.edit (.set 5)))).pull (react 9) 0).2 = false ∧
      ((echo.serve 9 (.command 0 (.edit (.set 5)))).pull (react 9) 0).1.commits 0 =
        (echo.serve 9 (.command 0 (.edit (.set 5)))).commits 0 ∧
      ((echo.serve 9 (.command 0 (.edit (.set 5)))).pull (react 9) 0).1.body? 0 =
        (echo.serve 9 (.command 0 (.edit (.set 5)))).body? 0 :=
  agrees_after_commit echo_bound echo_obeys
    (.command (.of_plain (fun _ => ⟨by simp, by simp⟩) rfl)) (by decide) 9

end World

end BoundValues
