import BoundValues.World.Command

namespace BoundValues

/-- A script: the member it belongs to, its name in the log, and its acts, each with how often it may
still be carried out. -/
structure Script (α : Type) where
  owner : Nat
  who : String
  acts : List (Act α × Option Nat)

/-- Members and all that they are attached to. A key is a place in `slots`; a member that is gone
leaves its place empty. The outside variable of a member has the member's number. -/
structure World (α : Type) where
  slots : List (Option (Member α)) := []
  labels : List String := []
  externals : List α := []
  scripts : List (Script α) := []
  handles : List (String × Nat) := []
  log : List (Event α) := []

namespace World

variable {α : Type}

def member? (w : World α) (key : Nat) : Option (Member α) := (w.slots[key]?).join

def setMember (w : World α) (key : Nat) (m : Member α) : World α :=
  { w with slots := w.slots.set key (some m) }

def modify (w : World α) (key : Nat) (g : Member α → Member α) : World α :=
  match w.member? key with
  | some m => w.setMember key (g m)
  | none => w

def mapBody (w : World α) (key : Nat) (g : Body α → Body α) : World α :=
  w.modify key fun m => { m with body := g m.body }

def record (w : World α) (e : Event α) : World α := { w with log := w.log ++ [e] }

def clearLog (w : World α) : World α := { w with log := [] }

def nextKey (w : World α) : Nat := w.slots.length

def add (w : World α) (label : String) (m : Member α) (outside : α) : World α :=
  { w with
    slots := w.slots ++ [some m], labels := w.labels ++ [label]
    externals := w.externals ++ [outside] }

def drop (w : World α) (key : Nat) : World α := { w with slots := w.slots.set key none }

def alive (w : World α) (key : Nat) : Bool := (w.member? key).isSome

def label (w : World α) (key : Nat) : String := w.labels.getD key ""

def setVariable (w : World α) (external : Nat) (v : α) : World α :=
  { w with externals := w.externals.set external v }

def arm (w : World α) (owner : Nat) (who : String) (acts : List (Act α)) : World α × Nat :=
  ({ w with scripts := w.scripts ++ [⟨owner, who, acts.map fun a => (a, a.times)⟩] },
    w.scripts.length)

def actCount (w : World α) (script : Nat) : Nat :=
  match w.scripts[script]? with
  | some s => s.acts.length
  | none => 0

/-- Takes one act of a script for carrying out. An act without a limit can always be taken; one with
a limit as long as it is not used up. -/
def takeAct (w : World α) (script i : Nat) : Option (Script α × Act α × World α) :=
  match w.scripts[script]? with
  | none => none
  | some s => match s.acts[i]? with
    | none => none
    | some (a, none) => some (s, a, w)
    | some (_, some 0) => none
    | some (a, some (left + 1)) =>
      let spent := { s with acts := s.acts.set i (a, some left) }
      some (s, a, { w with scripts := w.scripts.set script spent })

section Lookup

variable {w : World α} {key : Nat} {m : Member α}

theorem lt_of_member? (h : w.member? key = some m) : key < w.slots.length := by
  apply Nat.lt_of_not_le
  intro hle
  simp [member?, List.getElem?_eq_none hle] at h

theorem member?_setMember_self (h : w.member? key = some m) (m' : Member α) :
    (w.setMember key m').member? key = some m' := by
  simp [member?, setMember, lt_of_member? h]

theorem member?_setMember_of_ne {other : Nat} (h : other ≠ key) (m' : Member α) :
    (w.setMember key m').member? other = w.member? other := by
  simp only [member?, setMember, List.getElem?_set_ne (Ne.symm h)]

@[simp] theorem modify_scripts (w : World α) (key : Nat) (g : Member α → Member α) :
    (w.modify key g).scripts = w.scripts := by
  unfold modify
  split <;> rfl

@[simp] theorem modify_handles (w : World α) (key : Nat) (g : Member α → Member α) :
    (w.modify key g).handles = w.handles := by
  unfold modify
  split <;> rfl

@[simp] theorem modify_log (w : World α) (key : Nat) (g : Member α → Member α) :
    (w.modify key g).log = w.log := by
  unfold modify
  split <;> rfl

@[simp] theorem modify_externals (w : World α) (key : Nat) (g : Member α → Member α) :
    (w.modify key g).externals = w.externals := by
  unfold modify
  split <;> rfl

/-- To change a member is to put the changed one in its place. -/
theorem modify_of_member? (h : w.member? key = some m) (g : Member α → Member α) :
    w.modify key g = w.setMember key (g m) := by
  simp [modify, h]

theorem mapBody_of_member? (h : w.member? key = some m) (g : Body α → Body α) :
    w.mapBody key g = w.setMember key { m with body := g m.body } :=
  modify_of_member? h _

/-- Where there is no member, nothing is changed. -/
theorem modify_of_absent (h : w.member? key = none) (g : Member α → Member α) :
    w.modify key g = w := by
  simp [modify, h]

theorem member?_modify_self (w : World α) (key : Nat) (g : Member α → Member α) :
    (w.modify key g).member? key = (w.member? key).map g := by
  cases h : w.member? key with
  | none =>
    rw [modify_of_absent h]
    exact h
  | some m =>
    rw [modify_of_member? h]
    exact member?_setMember_self h _

/-- Other members are left alone. -/
theorem member?_modify_of_ne {other : Nat} (h : other ≠ key) (g : Member α → Member α) :
    (w.modify key g).member? other = w.member? other := by
  unfold modify
  split
  · exact member?_setMember_of_ne h _
  · rfl

theorem setMember_self (hm : w.member? key = some m) : w.setMember key m = w := by
  have slot : w.slots[key]? = some (some m) := by simpa [member?, Option.join_eq_some_iff] using hm
  obtain ⟨hlt, hs⟩ := List.getElem?_eq_some_iff.mp slot
  simp only [setMember, ← hs, List.set_getElem_self]

theorem setMember_setMember (w : World α) (key : Nat) (m m' : Member α) :
    (w.setMember key m).setMember key m' = w.setMember key m' := by
  simp only [setMember, List.set_set]

/-- A change that makes no difference to the member makes none to the world. -/
theorem modify_of_fixed {g : Member α → Member α}
    (fixed : (w.member? key).map g = w.member? key) : w.modify key g = w := by
  cases hm : w.member? key with
  | none => exact modify_of_absent hm g
  | some m =>
    rw [hm, Option.map_some, Option.some.injEq] at fixed
    rw [modify_of_member? hm, fixed]
    exact setMember_self hm

theorem mapBody_self (hm : w.member? key = some m) : w.mapBody key (fun _ => m.body) = w := by
  rw [mapBody_of_member? hm]
  exact setMember_self hm

end Lookup

def handleKey? (w : World α) (name : String) : Option Nat := w.handles.lookup name

def setHandle (w : World α) (name : String) (key : Nat) : World α :=
  { w with handles := (name, key) :: w.handles }

end World

end BoundValues
