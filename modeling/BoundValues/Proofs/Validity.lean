import BoundValues.Proofs.Admission

namespace BoundValues

variable {α : Type}

namespace Validation

/-- What is said of a check afterwards: that it passed, when there is no message. -/
def said : Except String α → Bool
  | .ok _ => true
  | .error message => message.isEmpty

/-- Only a refusal without a message is not told from an acceptance. -/
theorem said_eq_isOk_iff (outcome : Except String α) :
    said outcome = outcome.isOk ↔ outcome ≠ .error "" := by
  cases outcome <;> simp [said, Except.isOk, Except.toBool]

theorem check_reply (v : Validation α) (committed : α) :
    (v.check committed).2 = (v.run committed).isOk := by
  unfold check
  cases v.run committed <;> rfl

/-- A check keeps the message, or none. -/
theorem check_valid (v : Validation α) (committed : α) :
    (v.check committed).1.valid = said (v.run committed) := by
  unfold check
  cases v.run committed <;> rfl

end Validation

open Validation (said)

theorem Body.kind_refuse (message : String) (b : Body α) : (b.refuse message).kind = b.kind := by
  cases b <;> rfl

/-- Only the kinds with a validation have an entrance. -/
theorem Entrance.Suits.cases {b : Body α} {e : Entrance α} (suits : e.Suits b) :
    (∃ c, b = .config c) ∨ ∃ f, b = .full f := by
  cases b with
  | config c => exact .inl ⟨c, rfl⟩
  | full f => exact .inr ⟨f, rfl⟩
  | plain p | monitored m | captioned m caption => cases e <;> exact suits.elim

theorem Entrance.Suits.declares {b : Body α} {e : Entrance α} (suits : e.Suits b) :
    b.kind.capabilities.declares .validation = true := by
  rcases suits.cases with ⟨c, rfl⟩ | ⟨f, rfl⟩
  · exact (by decide : Kind.config.capabilities.declares .validation = true)
  · exact (by decide : Kind.full.capabilities.declares .validation = true)

/-- A refusal leaves its message to answer by. -/
theorem Entrance.Suits.valid_refuse {b : Body α} {e : Entrance α} (suits : e.Suits b)
    (message : String) : (b.refuse message).validation.valid = message.isEmpty := by
  rcases suits.cases with ⟨c, rfl⟩ | ⟨f, rfl⟩ <;> rfl

structure Step.Checks (s : Step (Body α) α (Reply α)) (b : Body α) : Prop where
  untold : s.change = none
  reply : s.reply = .flag (b.validation.run b.value).isOk
  kind : s.state.kind = b.kind
  valid : s.state.validation.valid = said (b.validation.run b.value)

/-- A check is the same for both kinds that validate. -/
theorem Call.check_checks {b : Body α} (declares : b.kind.capabilities.declares .validation = true) :
    (Call.check b).Checks b := by
  cases b with
  | config c =>
    exact ⟨rfl, congrArg Reply.flag (c.validation.check_reply _), rfl, c.validation.check_valid _⟩
  | full f =>
    exact ⟨rfl, congrArg Reply.flag (f.validation.check_reply _), rfl, f.validation.check_valid _⟩
  | plain p => exact absurd declares (by decide : ¬ Kind.plain.capabilities.declares .validation = true)
  | monitored m =>
    exact absurd declares (by decide : ¬ Kind.monitored.capabilities.declares .validation = true)
  | captioned m caption =>
    exact absurd declares (by decide : ¬ Kind.captioned.capabilities.declares .validation = true)

namespace World

variable [BEq α] {w : World α} {key : Nat} {m : Member α}

theorem exec_valid (hm : w.member? key = some m)
    (answers : m.interface.answers .validation = true) (run : Runner α) :
    w.exec run key (.call .valid) = (w, .flag m.body.validation.valid) := by
  rw [exec_call_of_answers (c := .valid) hm answers (by decide)]
  simp only [Call.step, settle, noteCheck, mapBody_self hm]

/-- Asked for its validity, a member whose body was just exchanged answers for the new one. -/
theorem exec_valid_after (hm : w.member? key = some m)
    (declares : m.body.kind.capabilities.declares .validation = true) {g : Body α → Body α}
    (kind : (g m.body).kind = m.body.kind) (run : Runner α) :
    (w.mapBody key g).exec run key (.call .valid) =
      (w.mapBody key g, .flag (g m.body).validation.valid) := by
  rw [mapBody_of_member? hm]
  refine exec_valid (member?_setMember_self hm _) ?_ run
  rw [Member.interface, Interface.answers_plain, kind]
  exact declares

/-- A check goes into the world as it is. -/
theorem exec_validate (hm : w.member? key = some m)
    (declares : m.body.kind.capabilities.declares .validation = true) (run : Runner α) :
    w.exec run key (.call .validate) =
      ((w.noteCheck key (Call.check m.body).checked).mapBody key fun _ => (Call.check m.body).state,
        .flag (m.body.validation.run m.body.value).isOk) := by
  have answers : m.interface.answers .validation = true := by
    rw [Member.interface, Interface.answers_plain]
    exact declares
  have checks := Call.check_checks declares
  rw [exec_call_of_answers (c := .validate) hm answers (by decide)]
  simp only [Call.step, settle, checks.untold, checks.reply]

/-- **Validity follows the message.** Directly after a value of a kind that validates was checked, its
reply is what the validator said, and it says the same when asked for its validity, unless the validator
refused without a message. Directly after a candidate was refused, through whatever entrance it came, the
value is valid just when the message is empty. -/
theorem validity_follows_message (hm : w.member? key = some m) (run : Runner α) :
    (m.body.kind.capabilities.declares .validation = true →
      ∃ w', w.exec run key (.call .validate) =
          (w', .flag (m.body.validation.run m.body.value).isOk) ∧
        ∃ valid, (∀ run, w'.exec run key (.call .valid) = (w', .flag valid)) ∧
          (valid = (m.body.validation.run m.body.value).isOk ↔
            m.body.validation.run m.body.value ≠ .error "")) ∧
    ∀ e : Entrance α, e.Suits m.body → ∀ v message, e.candidate m.type m.body = some v →
      m.body.validation.run v = .error message →
      ∃ w', e.enter run key w = (w', e.refusal message) ∧
        ∀ run, w'.exec run key (.call .valid) = (w', .flag message.isEmpty) := by
  refine ⟨fun declares => ?_, fun e suits v message candidate refused => ?_⟩
  · have checks := Call.check_checks declares
    have noted : (w.noteCheck key (Call.check m.body).checked).member? key = some m :=
      (member?_noteCheck ..).trans hm
    refine ⟨_, exec_validate hm declares run, _, fun run => ?_, Validation.said_eq_isOk_iff _⟩
    rw [exec_valid_after noted declares checks.kind, checks.valid]
  · have entered : ∃ s, e.Guarded m.type m.body s ∧ e.enter run key w = w.settle run key s := by
      rcases suits.cases with ⟨c, hc⟩ | ⟨f, hf⟩
      · rw [hc] at suits ⊢
        exact enter_config hm hc suits
      · rw [hf] at suits ⊢
        exact enter_full hm hf suits
    obtain ⟨s, guarded, enters⟩ := entered
    have noted : (w.noteCheck key (m.body.validation.checked v)).member? key = some m :=
      (member?_noteCheck ..).trans hm
    refine ⟨_, enters.trans ((admission_settle hm guarded).refused v message candidate refused), ?_⟩
    intro run
    rw [exec_valid_after noted suits.declares (Body.kind_refuse message m.body),
      suits.valid_refuse message]

/-- A refusal with a message is told as one. -/
theorem too_large_is_invalid :
    ∃ w', bounded.exec (react 1) 0 (.edit (.set 9)) = (w', .refused (.refused "too large")) ∧
      ∀ run, w'.exec run 0 (.call .valid) = (w', .flag false) := by
  have hm : bounded.member? 0 = some _ := rfl
  exact (validity_follows_message hm (react 1)).2 (.set 9) trivial 9 "too large" rfl rfl

def aloof (kind : Kind) : World Nat :=
  (solo kind false).serve 0 (.command 0 (.edit (.setValidator fun _ => .error "")))

/-- A check fails, a candidate is refused, and the value says that it is valid. -/
theorem empty_message_seems_valid :
    let checked := (aloof .config).exec (react 1) 0 (.call .validate)
    let refused := (aloof .full).exec (react 1) 0 (.edit (.set 5))
    checked.2 = .flag false ∧ (checked.1.exec (react 1) 0 (.call .valid)).2 = .flag true ∧
      refused.2 = .refused (.refused "") ∧
      (refused.1.exec (react 1) 0 (.call .valid)).2 = .flag true :=
  ⟨rfl, rfl, rfl, rfl⟩

end World

end BoundValues
