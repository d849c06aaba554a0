import BoundValues.Proofs.Pulling

namespace BoundValues

variable {α : Type}

def Command.pulls : Command α → Bool
  | .refresh | .call .pull | .pullThroughHandle => true
  | _ => false

/-- Requests that drop a staged edit and tag the value otherwise. -/
def Command.replaces : Command α → Bool
  | .edit .reset | .edit (.load _) | .call (.setValueText _) => true
  | _ => false

namespace Full

/-- What becomes of the tag: it stays, and nothing is staged that was not, or it becomes the user's. Where
a value is `replaced`, nothing stays staged. -/
inductive Tags (replaced : Prop) (f f' : Full α) : Prop
  | kept (source : f'.source = f.source)
      (staged : f'.staging.pending = none ∨ f'.staging.pending = f.staging.pending)
  | user (source : f'.source = .user)
  | dropped (replaced : replaced) (unstaged : f'.staging.pending = none)

/-- The value is tagged as the user's, or as one from outside that came `late`. -/
def Owned (late : Bool) (f : Full α) : Prop := f.source = .user ∨ late = true ∧ f.source = .external

/-- Whatever is staged is tagged as the user's, unless a value from outside came late. -/
def Claimed (late : Bool) (f : Full α) : Prop := f.staging.pending = none ∨ f.Owned late

section Tags

variable {replaced : Prop} {f f' : Full α} {late : Bool}

theorem Tags.refl (f : Full α) : f.Tags replaced f := .kept rfl (.inr rfl)

/-- Nothing is staged that is not the user's. -/
theorem Claimed.tags (h : f.Claimed late) (tags : f.Tags replaced f') : f'.Claimed late := by
  cases tags with
  | kept source staged =>
    rcases staged with none | same
    · exact .inl none
    · exact h.imp same.trans fun owned => by rwa [Owned, source]
  | user source => exact .inr (.inl source)
  | dropped _ unstaged => exact .inl unstaged

/-- A tag that is kept or made the user's is owned still. -/
theorem Owned.tags (h : f.Owned late) (tags : f.Tags False f') : f'.Owned late := by
  cases tags with
  | kept source => rwa [Owned, source]
  | user source => exact .inl source
  | dropped replaced => exact replaced.elim

theorem Owned.later (h : f.Owned late) (more : Bool) : f.Owned (late || more) :=
  h.imp_right fun outside => ⟨by simp [outside.1], outside.2⟩

theorem Claimed.later (h : f.Claimed late) (more : Bool) : f.Claimed (late || more) :=
  h.imp_right fun owned => owned.later more

theorem stage_tags (f : Full α) (v : α) : f.Tags replaced (f.stage v).state := by
  unfold stage
  split
  · exact .kept rfl (.inr rfl)
  · exact .user rfl

variable [BEq α] (f)

/-- A set leaves what is staged, and what it commits is tagged as the user's. -/
theorem set_tags (v : α) : f.Tags replaced (f.set v).state := by
  unfold set
  split
  · exact .kept rfl (.inr rfl)
  · dsimp only [commitFrom]
    split
    · exact .kept rfl (.inr rfl)
    · exact .user rfl

/-- Applying commits without a word about where the value came from. -/
theorem apply_source : f.apply.state.source = f.source := by
  unfold apply
  split <;> rfl

/-- Only what was staged is applied. -/
theorem apply_staged (applied : f.apply.reply = true) :
    ∃ v, f.staging.pending = some v ∧ f.apply.state.cell.value = v := by
  unfold apply at applied ⊢
  split at applied
  · cases applied
  · rename_i taken
    obtain ⟨_, differs, same⟩ := Option.map_eq_some_iff.mp taken
    cases same
    exact ⟨_, (Option.filter_eq_some_iff.mp differs).1, rfl⟩

theorem apply_tags : f.Tags replaced f.apply.state := by
  unfold apply
  split
  · exact .refl f
  · rename_i taken
    obtain ⟨_, -, same⟩ := Option.map_eq_some_iff.mp taken
    cases same
    exact .kept rfl (.inl rfl)

theorem step_tags (forward : Bool) : f.Tags replaced (f.step forward).state := by
  unfold step
  split
  · exact .kept rfl (.inr rfl)
  · exact .user rfl

theorem reset_unstages : f.reset.state.staging.pending = none := by
  dsimp only [reset, commitFrom]
  split <;> rfl

theorem load_tags (hr : replaced) (type : ValueType α) (text : String) :
    f.Tags replaced (f.load type text).state := by
  unfold load
  split
  · exact .refl f
  · split
    · exact .kept rfl (.inr rfl)
    · refine .dropped hr ?_
      dsimp only [commitFrom]
      split <;> rfl

/-- An edit of a widget is staged, and tagged by that. -/
theorem edit_tags (mode : EditMode) (immediate : Bool) (r : Response) (v : α) :
    f.Tags replaced (f.edit mode immediate r v).state := by
  unfold edit
  split
  · cases valid : f.validation.run v with
    | error message =>
      simp only [stage, valid, refuse]
      exact .kept rfl (.inr rfl)
    | ok accepted =>
      simp only [stage, valid]
      split
      · exact .user (apply_source _)
      · exact .user rfl
  · exact .refl f

end Tags

end Full

def Body.Tags (replaced : Prop) (b b' : Body α) : Prop :=
  ∀ f, b = .full f → ∃ f', b' = .full f' ∧ f.Tags replaced f'

theorem Body.Refits.tags {replaced : Prop} {b b' : Body α} (h : b.Refits b') : b.Tags replaced b' := by
  rintro f rfl
  cases h with
  | same => exact ⟨f, rfl, .refl f⟩
  | full => exact ⟨_, rfl, .kept rfl (.inr rfl)⟩

section Requests

variable [BEq α] {replaced : Prop}

/-- Edits that replace the value are told apart, as they drop what is staged. -/
theorem Edit.step_tags {type : ValueType α} {b : Body α} {e : Edit α} {s : Step (Body α) α (Reply α)}
    (allowed : (Command.edit e).replaces = true → replaced) (known : e.step type b = some s) :
    b.Tags replaced s.state := by
  rintro f rfl
  cases e <;> simp only [Edit.step, Edit.onFull, Edit.settled, Option.some.injEq, reduceCtorEq] at known
  all_goals subst known
  case set v => exact ⟨_, rfl, f.set_tags v⟩
  case stage v => exact ⟨_, rfl, f.stage_tags v⟩
  case apply => exact ⟨_, rfl, f.apply_tags⟩
  case revert => exact ⟨_, rfl, .kept rfl (.inl rfl)⟩
  case undo => exact ⟨_, rfl, f.step_tags false⟩
  case redo => exact ⟨_, rfl, f.step_tags true⟩
  case reset => exact ⟨_, rfl, .dropped (allowed rfl) f.reset_unstages⟩
  case load text => exact ⟨_, rfl, f.load_tags (allowed rfl) type text⟩
  all_goals exact ⟨_, rfl, .kept rfl (.inr rfl)⟩

theorem Call.step_tags {m : Member α} {c : Call}
    (allowed : (Command.call c : Command α).replaces = true → replaced) :
    m.body.Tags replaced (c.step m).state := by
  refine Call.step_along (fun e s stands known => ?_) fun b refits => refits.tags
  exact Edit.step_tags (fun replaces => allowed (by cases c <;> cases stands <;> exact replaces)) known

end Requests

namespace World

/-- Requests that pull nothing into a member. Its scripts do not replace the value either; whether the
requests may is left open. -/
def tagging (key : Nat) (replaced : Prop) : Rules α where
  command k c := k = key → c.pulls = false ∧ (c.replaces = true → replaced)
  act k
    | .command _ c => k = key → c.pulls = false ∧ c.replaces = false
    | .poke _ => True
  act_command h hk := ⟨(h hk).1, fun replaces => absurd ((h hk).2.symm.trans replaces) nofun⟩
  act_poke _ := trivial
  taken _ := trivial
  drawn _ _ := trivial

def Tagging (key : Nat) (replaced : Prop) (k : Nat) (b b' : Body α) (_ : Option (Change α)) : Prop :=
  k = key → b.Tags replaced b'

def MeetsFull (w : World α) (key : Nat) (p : Full α → Prop) : Prop :=
  w.Meets key fun m => ∃ f, m.body = .full f ∧ p f

section Courses

variable {key : Nat} {replaced : Prop} {w w' : World α} {p : Full α → Prop}

theorem MeetsFull.body (h : w.MeetsFull key p) : ∃ f, w.body? key = some (.full f) ∧ p f := by
  obtain ⟨m, hm, f, full, here⟩ := h
  exact ⟨f, by rw [body?_of_member? hm, full], here⟩

theorem MeetsFull.mono {q : Full α → Prop} (h : w.MeetsFull key p) (mono : ∀ f, p f → q f) :
    w.MeetsFull key q := by
  obtain ⟨m, hm, f, full, here⟩ := h
  exact ⟨m, hm, f, full, mono f here⟩

theorem Obeys.scriptsTag (h : w.Obeys (tagging key True)) : w.Obeys (tagging key False) :=
  ⟨h.scripts, h.handles⟩

theorem Obeys.anyTag (h : w.Obeys (tagging key False)) : w.Obeys (tagging key True) :=
  ⟨h.scripts, h.handles⟩

/-- Of what becomes of a member in one go, only operations touch the tag. -/
theorem turns_tags {m m' : Member α} (h : m.Turns (tagging key replaced) (Tagging key replaced) key m') :
    m.body.Tags replaced m'.body := by
  obtain ⟨type, body, hints, widget, drawn, connections⟩ := m
  rintro f ⟨⟩
  cases h with
  | step h => exact h rfl f rfl
  | _ => exact ⟨_, rfl, .kept rfl (.inr rfl)⟩

variable [BEq α]

theorem steps_tag (key : Nat) (replaced : Prop) (k : Nat) :
    Body.Steps ((tagging key replaced : Rules α).command k) ((tagging key replaced : Rules α).Pokes k)
      (Tagging key replaced k) where
  written b v _ _ := by
    rintro f rfl
    exact ⟨_, rfl, f.set_tags v⟩
  drawn b before r v _ _ _ := by
    rintro f rfl
    exact ⟨_, rfl, f.edit_tags _ _ r v⟩
  called _ _ h hk := Call.step_tags (h hk).2
  edited _ _ _ _ h known hk := Edit.step_tags (h hk).2 known

/-- What operations that keep the tag keep, everything but a pull keeps, however deep scripts are
nested. -/
theorem tagging_course (key : Nat) (replaced : Prop)
    (kept : ∀ {f f' : Full α}, f.Tags replaced f' → p f → p f') :
    Course (tagging key replaced : Rules α) (Tagging key replaced)
      (Keeping key fun m => ∃ f, m.body = .full f ∧ p f) := by
  have tags {b b' : Body α} (h : b.Tags replaced b') :
      (∃ f, b = .full f ∧ p f) → ∃ f, b' = .full f ∧ p f := by
    rintro ⟨f, full, here⟩
    obtain ⟨f', full', step⟩ := h f full
    exact ⟨f', full', kept step here⟩
  refine keeping_course (steps_tag key replaced) (fun b v pulls hk => ?_)
    (fun h => tags (turns_tags h)) fun h => tags (h rfl)
  rcases pulls with h | h | h
  all_goals exact absurd (h hk).1 nofun

/-- Whatever is requested but a pull, what is staged stays the user's. -/
theorem claiming_course (key : Nat) (late : Bool) :
    Course (tagging key True : Rules α) (Tagging key True)
      (Keeping key fun m => ∃ f, m.body = .full f ∧ f.Claimed late) :=
  tagging_course key True fun tags claimed => claimed.tags tags

/-- Scripts that replace nothing leave the tag to the user. -/
theorem owning_course (key : Nat) (late : Bool) :
    Course (tagging key False : Rules α) (Tagging key False)
      (Keeping key fun m => ∃ f, m.body = .full f ∧ f.Owned late) :=
  tagging_course key False fun tags owned => owned.tags tags

end Courses

section Pulls

variable [BEq α] {key depth : Nat} {late : Bool} {w start : World α}

/-- Whether a pull takes a value over and an edit is staged then. -/
def overtakes (run : Runner α) (key : Nat) (w : World α) : Bool :=
  (w.pull run key).2 && ((w.pull run key).1.body? key).any fun b => b.staging.pending.isSome

section Taking

variable {m : Member α} {f : Full α} {v : α} (hm : w.member? key = some m) (full : m.body = .full f)

include hm full

theorem commitPulled_stays {run : Runner α} (untaken : (w.commitPulled run key v).2 = false) :
    w.commitPulled run key v = (w, false) := by
  cases refused : f.hasPending || f.cell.value == v with
  | true => exact commitPulled_refused hm full refused
  | false =>
    obtain ⟨settled, differs⟩ := Bool.or_eq_false_iff.mp refused
    rw [commitPulled_taken hm full settled differs] at untaken
    cases untaken

/-- A value that is taken over is tagged as one from outside, and whoever is told of it leaves that tag or
makes it the user's. -/
theorem commitPulled_owned (obeys : w.Obeys (tagging key True))
    (taken : (w.commitPulled (react depth) key v).2 = true) :
    (w.commitPulled (react depth) key v).1.Obeys (tagging key True) ∧
      (w.commitPulled (react depth) key v).1.MeetsFull key fun f => f.Owned true := by
  cases refused : f.hasPending || f.cell.value == v with
  | true =>
    rw [commitPulled_refused hm full refused] at taken
    cases taken
  | false =>
    obtain ⟨settled, differs⟩ := Bool.or_eq_false_iff.mp refused
    rw [commitPulled_taken hm full settled differs, taken_eq_notify hm differs]
    have owned : (w.commit key m (.full (f.taking v)) ⟨f.cell.value, v⟩).MeetsFull key fun f =>
        f.Owned true :=
      ⟨_, member?_setMember_self hm _, _, rfl, .inr ⟨rfl, rfl⟩⟩
    have C := owning_course (α := α) key true
    obtain ⟨obeys', keeping⟩ := notify_under keeping_refl keeping_trans (C.runs depth)
      (fun _ _ _ => id) _ (obeys.scriptsTag.commit key m _ _)
    exact ⟨obeys'.anyTag, keeping owned⟩

end Taking

/-- Whatever is staged after a pull is tagged as the user's, unless the pull overtook it. -/
theorem pull_claimed (obeys : w.Obeys (tagging key True)) (claimed : w.MeetsFull key fun f => f.Claimed late)
    (depth : Nat) : (w.pull (react depth) key).1.Obeys (tagging key True) ∧
      (w.pull (react depth) key).1.MeetsFull key fun f =>
        f.Claimed (late || w.overtakes (react depth) key) := by
  rcases pull_cases (react depth) key w with nothing | ⟨-, getter, v, -, -, -, -, reads⟩
  · rw [nothing]
    exact ⟨obeys, claimed.mono fun f here => here.later _⟩
  · have C := claiming_course (α := α) key late
    have noted : (w.record (.read key v)).Obeys (tagging key True) := obeys.congr rfl rfl
    obtain ⟨obeys', keeping⟩ := runScript_under C.refl (C.runs depth) getter.script _ noted
    have claimed' : MeetsFull _ key _ := keeping claimed
    obtain ⟨m, hm, f, full, -⟩ := id claimed'
    cases taken : (w.pull (react depth) key).2 with
    | false =>
      rw [reads] at taken ⊢
      rw [commitPulled_stays hm full taken]
      exact ⟨obeys', claimed'.mono fun f here => here.later _⟩
    | true =>
      have after := taken
      rw [reads] at after
      obtain ⟨obeys'', m', hm', f', full', owned⟩ := commitPulled_owned hm full obeys' after
      rw [← reads] at obeys'' hm'
      refine ⟨obeys'', m', hm', f', full', ?_⟩
      have overtaken : w.overtakes (react depth) key = f'.staging.pending.isSome := by
        simp only [overtakes, taken, body?_of_member? hm', full', Option.any_some, Bool.true_and]
        rfl
      cases staged : f'.staging.pending with
      | none => exact .inl staged
      | some u =>
        rw [overtaken, staged, Option.isSome_some, Bool.or_true]
        exact .inr owned

/-- What a world comes to by requests of all sorts. Pulls of the member are told apart, in whatever way
they are asked for; `late` is whether one of them overtook a staged edit. -/
inductive Tended (key : Nat) (start : World α) : Bool → World α → Prop
  | start : Tended key start false start
  | request {late : Bool} {w : World α} (h : Tended key start late w) {q : Request α}
      (admits : (tagging key True).Admits q) (depth : Nat) : Tended key start late (w.serve depth q)
  | pull {late : Bool} {w : World α} (h : Tended key start late w) (depth : Nat) :
      Tended key start (late || w.overtakes (react depth) key) (w.pull (react depth) key).1
  | pullOther {late : Bool} {w : World α} (h : Tended key start late w) {k : Nat} (other : k ≠ key)
      (depth : Nat) : Tended key start late (w.pull (react depth) k).1

/-- Induction on the requests, pulls told apart. -/
theorem Tended.claimed (tended : Tended key start late w) (obeys : start.Obeys (tagging key True))
    (claimed : start.MeetsFull key fun f => f.Claimed false) :
    w.Obeys (tagging key True) ∧ w.MeetsFull key fun f => f.Claimed late := by
  induction tended with
  | start => exact ⟨obeys, claimed⟩
  | @request late w h q admits depth ih =>
    obtain ⟨obeys', keeping⟩ := (claiming_course key late).serve admits depth w ih.1
    exact ⟨obeys', keeping ih.2⟩
  | pull h depth ih => exact pull_claimed ih.1 ih.2 depth
  | @pullOther late w h k other depth ih =>
    have C := claiming_course (α := α) key late
    have pulls : (tagging key True : Rules α).Pulls k := .inl fun hk => absurd hk other
    obtain ⟨obeys', keeping⟩ := C.pull (C.runs depth) w k pulls ih.1
    exact ⟨obeys', keeping ih.2⟩

theorem exec_apply_of_full {run : Runner α} {m : Member α} {f : Full α} (hm : w.member? key = some m)
    (full : m.body = .full f) {c : Command α} (apply : c ∈ [.edit .apply, .call .apply]) :
    w.exec run key c = w.settle run key (f.apply.map .full .flag) := by
  have known : (Edit.apply).step m.type m.body = some (f.apply.map .full .flag) := by rw [full]; rfl
  simp only [List.mem_cons, List.not_mem_nil, or_false] at apply
  rcases apply with rfl | rfl
  · simp only [exec, hm, known]
  · have answers : m.interface.answers .deferred = true := by
      rw [Member.interface, Interface.answers_plain, full]
      exact (by decide : Kind.full.capabilities.declares .deferred = true)
    rw [exec_call_of_answers (c := .apply) hm answers (by decide)]
    simp only [Call.step, Call.edit, known]
    rfl

/-- An edit that is applied was staged, so its tag is known, and whoever is told of it leaves it or makes it
the user's. -/
theorem apply_owned (obeys : w.Obeys (tagging key True)) {m : Member α} {f : Full α}
    (hm : w.member? key = some m) (full : m.body = .full f) (claimed : f.Claimed late) {c : Command α}
    (apply : c ∈ [.edit .apply, .call .apply]) (depth : Nat)
    (applied : (w.exec (react depth) key c).2 = .flag true) :
    (∃ v, f.staging.pending = some v ∧ f.apply.state.cell.value = v) ∧
      ∃ f', (w.exec (react depth) key c).1.body? key = some (.full f') ∧ f'.Owned late := by
  rw [exec_apply_of_full hm full apply] at applied ⊢
  have replied : f.apply.reply = true := by
    rw [settle_reply] at applied
    exact Reply.flag.inj applied
  obtain ⟨v, staged, value⟩ := f.apply_staged replied
  have owned : f.Owned late := claimed.resolve_left (by simp [staged])
  have C := owning_course (α := α) key late
  have good : Tagging key False key m.body (.full f.apply.state) f.apply.change := by
    intro _ g hg
    cases full.symm.trans hg
    exact ⟨_, rfl, f.apply_tags⟩
  obtain ⟨-, keeping⟩ := C.settle_under (s := f.apply.map .full Reply.flag) (C.runs depth) hm good
    obeys.scriptsTag
  exact ⟨⟨v, staged, value⟩, MeetsFull.body (keeping ⟨m, hm, f, full, owned⟩)⟩

/-- A pull that takes a value over while an edit is staged leaves the edit to be applied, and the outside
is said to be where it came from. -/
theorem apply_overtaken [PartialEquivBEq α] {f : Full α} {u v : α} (staged : f.staging.pending = some v)
    (taken : (f.commitPulled u).reply = true) :
    (f.commitPulled u).state.apply.reply = true ∧
      (f.commitPulled u).state.apply.state.cell.value = v ∧
      (f.commitPulled u).state.apply.state.source = .external := by
  unfold Full.commitPulled at taken ⊢
  cases refused : f.hasPending || f.cell.value == u with
  | true => simp [refused] at taken
  | false =>
    obtain ⟨settled, differs⟩ := Bool.or_eq_false_iff.mp refused
    have same : (f.cell.value == v) = true := by
      rw [BEq.comm]
      simpa [Full.hasPending, Staging.hasChanges, Staging.difference?, staged, bne] using settled
    have waits : (v != u) = true := by
      rw [bne, BEq.congr_left (BEq.symm same), differs]
      rfl
    have taken : f.staging.take? u = some (v, f.staging.revert) := by
      rw [Staging.take?, Staging.difference?, staged, Option.filter_some, if_pos waits]
      rfl
    simp [Full.apply, Cell.assign, taken]

/-- **An applied edit is the user's, unless a pull overtook it.** From a value on where nothing is staged or
the user's tag is set, whatever is requested and whoever is told of it: an apply that returns true leaves
the tag of the user, as long as no pull took a value over while an edit was staged. Any such pull leaves
the edit to be applied as a change from outside. -/
theorem applied_edit_is_users {f : Full α} (body : start.body? key = some (.full f))
    (tagged : f.staging.pending = none ∨ f.source = .user) (obeys : start.Obeys (tagging key True))
    (tended : Tended key start late w) :
    ∃ f, w.body? key = some (.full f) ∧
      (∀ c ∈ [.edit .apply, .call .apply], ∀ depth, (w.exec (react depth) key c).2 = .flag true →
        (∃ v, f.staging.pending = some v ∧ f.apply.state.cell.value = v) ∧
          ∃ f', (w.exec (react depth) key c).1.body? key = some (.full f') ∧
            (f'.source = .user ∨ late = true ∧ f'.source = .external)) ∧
      ∀ [PartialEquivBEq α] u v, f.staging.pending = some v → (f.commitPulled u).reply = true →
        (f.commitPulled u).state.apply.reply = true ∧
          (f.commitPulled u).state.apply.state.source = .external := by
  have claimed : start.MeetsFull key fun f => f.Claimed false := by
    obtain ⟨m, hm, full⟩ := member?_of_body? body
    exact ⟨m, hm, f, full, tagged.imp_right .inl⟩
  obtain ⟨obeys', m, hm, f', full, here⟩ := tended.claimed obeys claimed
  refine ⟨f', by rw [body?_of_member? hm, full], ?_, fun {_} u v staged taken => ?_⟩
  · exact fun c apply depth applied => apply_owned obeys' hm full here apply depth applied
  · obtain ⟨applied, -, source⟩ := apply_overtaken staged taken
    exact ⟨applied, source⟩

end Pulls

def inlet : World Nat := (solo .full true).serve 0 (.command 0 (.setOutside 5))

def sluice : World Nat :=
  (((inlet.pull (react 1) 0).1.serve 1 (.command 0 (.edit (.stage 7)))).pull (react 1) 0).1

theorem applied_edit_tagged_user : (sluice.exec (react 1) 0 (.edit .apply)).2 = .flag true ∧
    ∃ f, (sluice.exec (react 1) 0 (.edit .apply)).1.body? 0 = some (.full f) ∧ f.cell.value = 7 ∧
      f.source = .user := by
  have obeys : inlet.Obeys (tagging 0 True) := ⟨nofun, fun _ _ _ => trivial⟩
  have staged : (tagging 0 True).Admits (.command 0 (.edit (.stage 7)) : Request Nat) :=
    .command (.of_plain (fun _ => ⟨rfl, nofun⟩) rfl)
  have begun : Tended 0 inlet false inlet := .start
  have early : ((false || inlet.overtakes (react 1) 0) || World.overtakes (react 1) 0
      ((inlet.pull (react 1) 0).1.serve 1 (.command 0 (.edit (.stage 7))))) = false := by decide
  have tended : Tended 0 inlet false sluice := early ▸ ((begun.pull 1).request staged 1).pull 1
  obtain ⟨f, -, applies, -⟩ := applied_edit_is_users rfl (.inl rfl) obeys tended
  obtain ⟨-, f', body, tag⟩ := applies (.edit .apply) (by simp) 1 rfl
  have value : (sluice.exec (react 1) 0 (.edit .apply)).1.value? 0 = some 7 := rfl
  rw [value?, body] at value
  exact ⟨rfl, f', body, Option.some.inj value, tag.resolve_right fun late => nomatch late.1⟩

/-- An edit is staged that is no change yet, and then a value from outside is taken over. The edit commits
the user's value, which is said to have come from outside. -/
theorem overtaken_edit_tagged_external :
    let w := ((inlet.serve 1 (.command 0 (.edit (.stage 0)))).pull (react 1) 0).1
    (w.exec (react 1) 0 (.edit .apply)).2 = .flag true ∧
      ∃ f, (w.exec (react 1) 0 (.edit .apply)).1.body? 0 = some (.full f) ∧ f.cell.value = 0 ∧
        f.source = .external :=
  ⟨rfl, _, rfl, rfl, rfl⟩

end World

end BoundValues
