import BoundValues.Proofs.Views

namespace BoundValues

variable {α : Type}

theorem Act.sizeOf_lt {a b : Act α} (h : b ∈ a.acts) : sizeOf b < sizeOf a := by
  cases a with
  | poke p => cases h
  | command times c =>
    cases c
    case listen name form acts =>
      have inner : sizeOf b < sizeOf acts := List.sizeOf_lt_of_mem h
      simp only [command.sizeOf_spec, Command.listen.sizeOf_spec]
      omega
    case bindGetter acts =>
      have inner : sizeOf b < sizeOf acts := List.sizeOf_lt_of_mem h
      simp only [command.sizeOf_spec, Command.bindGetter.sizeOf_spec]
      omega
    case bindSetter acts =>
      have inner : sizeOf b < sizeOf acts := List.sizeOf_lt_of_mem h
      simp only [command.sizeOf_spec, Command.bindSetter.sizeOf_spec]
      omega
    all_goals cases h

/-- Acts are nested to finite depth only. -/
theorem Act.always_of_all {p : Act α → Prop} (h : ∀ a, p a) (a : Act α) : a.Always p :=
  .intro (h a) fun b hb =>
    have := Act.sizeOf_lt hb
    always_of_all h b
termination_by sizeOf a

namespace Rules

def free : Rules α := .commands fun _ _ => True

theorem free_allows (key : Nat) (c : Command α) : (free : Rules α).Allows key c :=
  ⟨trivial, fun a _ => a.always_of_all fun a => by cases a <;> trivial⟩

theorem free_admits (q : Request α) : (free : Rules α).Admits q := by
  cases q with
  | command key c => exact .command (free_allows key c)
  | handle name r =>
    exact .handle (fun _ _ => trivial) (fun _ _ _ => .inl trivial) fun _ _ _ _ => trivial

end Rules

namespace World

theorem obeys_free (w : World α) : w.Obeys .free :=
  ⟨fun _ _ a _ => a.1.always_of_all fun a => by cases a <;> trivial, fun _ _ _ => trivial⟩

def Meets (w : World α) (key : Nat) (p : Member α → Prop) : Prop :=
  ∃ m, w.member? key = some m ∧ p m

def Keeping (key : Nat) (p : Member α → Prop) (w w' : World α) : Prop :=
  w.Meets key p → w'.Meets key p

/-- A condition on one member that every happening keeps, when the operations on members are known
to be good. -/
structure Kept [BEq α] (r : Rules α) (good : Nat → Body α → Body α → Option (Change α) → Prop)
    (key : Nat) (p : Member α → Prop) : Prop where
  steps (k : Nat) : Body.Steps (r.command k) (r.Pokes k) (good k)
  pulled {k : Nat} {b b' : Body α} {change : Option (Change α)} (h : r.Pulls k)
    (moves : b.Moves (fun _ => False) b' change) : good k b b' change
  turn {m m' : Member α} (h : m.Turns r good key m') (meets : p m) : p m'
  commit {m : Member α} {b : Body α} {change : Change α} (h : good key m.body b (some change))
    (meets : p m) : p { m with body := b }

variable {key : Nat} {p : Member α → Prop} {w : World α}

/-- Replacing a member matters to a condition only when it is the member under that key. -/
theorem Meets.setMember (h : w.Meets key p) {k : Nat} {m : Member α} (hm : w.member? k = some m)
    (m' : Member α) (kept : k = key → p m → p m') : (w.setMember k m').Meets key p := by
  obtain ⟨n, hn, meets⟩ := h
  by_cases hk : key = k
  · subst hk
    rw [hm] at hn
    cases hn
    exact ⟨m', member?_setMember_self hm m', kept rfl meets⟩
  · exact ⟨n, by rw [member?_setMember_of_ne hk, hn], meets⟩

theorem keeping_refl (w : World α) : Keeping key p w w := id

theorem keeping_trans (a b c : World α) (h : Keeping key p a b) (h' : Keeping key p b c) :
    Keeping key p a c := h' ∘ h

/-- Only what becomes of the member itself matters; whoever is told of its commits may do anything. -/
theorem keeping_course [BEq α] {r : Rules α}
    {good : Nat → Body α → Body α → Option (Change α) → Prop}
    (steps : ∀ k, Body.Steps (r.command k) (r.Pokes k) (good k))
    (pulled : ∀ {k} (b : Body α) (v : α), r.Pulls k →
      good k b (b.commitPulled v).state (b.commitPulled v).change)
    (turn : ∀ {m m' : Member α}, m.Turns r good key m' → p m → p m')
    (commit : ∀ {m : Member α} {b : Body α} {change : Change α}, good key m.body b (some change) →
      p m → p { m with body := b }) :
    Course r good (Keeping key p) := by
  refine course_of_steady
    { refl := keeping_refl
      trans := keeping_trans
      steps := steps
      note := fun _ _ _ => id
      scripts := fun _ _ _ => id
      handle := fun _ _ _ _ => id
      outside := fun _ _ _ _ => id
      turn := fun hm h _ meets => Meets.setMember meets hm _ fun hk => turn (hk ▸ h) }
    (fun _ _ _ => id) (fun _ _ _ _ => id) pulled ?_
  intro depth runs w k m b change hm hg
  have committed : Keeping key p w (w.commit k m b change) := fun meets =>
    Meets.setMember meets hm { m with body := b } fun hk => commit (hk ▸ hg)
  exact commit_notify_under keeping_refl keeping_trans runs committed fun _ _ _ => id

/-- What is kept by every operation on the member is kept by whatever happens in the world. -/
theorem Kept.course [BEq α] {r : Rules α}
    {good : Nat → Body α → Body α → Option (Change α) → Prop} (h : Kept r good key p) :
    Course r good (Keeping key p) :=
  keeping_course h.steps (fun b v hp => h.pulled hp (b.commitPulled_moves v)) h.turn h.commit

end World

end BoundValues
