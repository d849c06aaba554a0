import BoundValues.Proofs.Quiet

namespace BoundValues

variable {α : Type}

section Marks

theorem Config.isChanged_of_edited {c : Config α} (h : c.edited = true) : c.isChanged = true := by
  simp [Config.isChanged, h]

theorem Full.isChanged_of_edited {f : Full α} (h : f.edited = true) : f.isChanged = true := by
  simp [Full.isChanged, h]

variable [BEq α] (r : Response) (v : α)

theorem Config.apply_edited (c : Config α) : c.apply.state.edited = c.edited := by
  unfold Config.apply
  split <;> rfl

/-- An edit that a widget is told was taken leaves its mark; another one leaves none. -/
theorem Config.edit_marks {c : Config α} (fresh : c.isChanged = false) :
    (c.edit r v).reply = true ∧ (c.edit r v).state.edited = true ∨
      (c.edit r v).reply = false ∧ (c.edit r v).state.isChanged = false := by
  have offered : (c.trySet v).state.isChanged = false := by
    unfold Config.trySet
    split <;> exact fresh
  unfold Config.edit
  split
  · dsimp only
    split
    · exact .inr ⟨rfl, offered⟩
    · refine .inl ⟨rfl, ?_⟩
      dsimp only
      split
      · exact Config.apply_edited _
      · rfl
  · exact .inr ⟨rfl, fresh⟩

theorem Full.apply_edited (f : Full α) : f.apply.state.edited = f.edited := by
  unfold Full.apply
  split <;> rfl

/-- A full value is marked by the edit itself, whether it is committed or staged. -/
theorem Full.edit_marks {f : Full α} (mode : EditMode) (immediate : Bool)
    (fresh : f.isChanged = false) :
    (f.edit mode immediate r v).reply = true ∧ (f.edit mode immediate r v).state.edited = true ∨
      (f.edit mode immediate r v).reply = false ∧
        (f.edit mode immediate r v).state.isChanged = false := by
  have offered : (f.stage v).state.isChanged = false := by
    unfold Full.stage
    split <;> exact fresh
  unfold Full.edit
  split
  · dsimp only
    split
    · exact .inr ⟨rfl, offered⟩
    · refine .inl ?_
      split
      · exact ⟨rfl, Full.apply_edited _⟩
      · exact ⟨rfl, rfl⟩
  · exact .inr ⟨rfl, fresh⟩

/-- The value to replace is compared from one side and the mark is set from the other. -/
theorem Monitored.edit_marks [PartialEquivBEq α] {m : Monitored α} (mode : EditMode)
    (fresh : m.cell.changed = false) :
    (m.edit mode r v).state.cell.changed = (m.edit mode r v).reply := by
  unfold Monitored.edit
  split
  · unfold Monitored.set Monitored.commitFrom
    split
    · exact fresh
    · rename_i differs
      have mark : (v != m.cell.value) = true := by
        rw [bne, BEq.comm]
        simpa using differs
      exact mark
  · exact fresh

/-- What the change mark of a body tells after a draw is what the draw tells. -/
theorem Body.edit_marks [PartialEquivBEq α] {b : Body α} (fresh : b.isChanged = false) :
    (Body.edit b r v b).state.isChanged = (Body.edit b r v b).reply := by
  cases b with
  | plain p =>
    simp only [Body.edit, Plain.edit]
    split
    · rfl
    · exact fresh
  | monitored m => exact m.edit_marks r v m.cell.mode fresh
  | captioned m caption => exact m.edit_marks r v m.cell.mode fresh
  | config c =>
    rcases Config.edit_marks r v fresh with ⟨told, marked⟩ | ⟨untold, unmarked⟩
    · exact (Config.isChanged_of_edited marked).trans told.symm
    · exact unmarked.trans untold.symm
  | full f =>
    rcases Full.edit_marks r v f.cell.mode f.immediate fresh with
      ⟨told, marked⟩ | ⟨untold, unmarked⟩
    · exact (Full.isChanged_of_edited marked).trans told.symm
    · exact unmarked.trans untold.symm

/-- Applying the staged edit leaves the mark of a draw that told of a change. -/
theorem Body.apply_marks [PartialEquivBEq α] {b : Body α} (fresh : b.isChanged = false)
    (told : (Body.edit b r v b).reply = true) :
    (Body.edit b r v b).state.apply.state.isChanged = true := by
  have marked := (Body.edit_marks r v fresh).trans told
  cases b with
  | plain p => exact marked
  | monitored m => exact marked
  | captioned m caption => exact marked
  | config c =>
    rcases Config.edit_marks r v fresh with ⟨-, edited⟩ | ⟨untold, -⟩
    · exact Config.isChanged_of_edited ((Config.apply_edited _).trans edited)
    · exact absurd (untold.symm.trans told) Bool.false_ne_true
  | full f =>
    rcases Full.edit_marks r v f.cell.mode f.immediate fresh with ⟨-, edited⟩ | ⟨untold, -⟩
    · exact Full.isChanged_of_edited ((Full.apply_edited _).trans edited)
    · exact absurd (untold.symm.trans told) Bool.false_ne_true

/-- What was staged is committed now, so nothing differs. -/
theorem Staging.settled_of_taken {s rest : Staging α} {committed v : α}
    (taken : s.take? committed = some (v, rest)) : rest.hasChanges v = false := by
  obtain ⟨_, -, same⟩ := Option.map_eq_some_iff.mp taken
  cases same
  rfl

theorem Staging.settled_of_untaken {s : Staging α} {committed : α}
    (untaken : s.take? committed = none) : s.hasChanges committed = false :=
  Option.isSome_eq_false_iff.mpr (Option.isNone_iff_eq_none.mpr (Option.map_eq_none_iff.mp untaken))

theorem Config.apply_settles (c : Config α) :
    c.apply.state.staging.hasChanges c.apply.state.cell.value = false := by
  unfold Config.apply
  cases taken : c.staging.take? c.cell.value with
  | none => exact Staging.settled_of_untaken taken
  | some p => exact Staging.settled_of_taken taken

theorem Full.apply_settles (f : Full α) :
    f.apply.state.staging.hasChanges f.apply.state.cell.value = false := by
  unfold Full.apply
  cases taken : f.staging.take? f.cell.value with
  | none => exact Staging.settled_of_untaken taken
  | some p => exact Staging.settled_of_taken taken

/-- Nothing waits to be applied after an apply. -/
theorem Body.apply_settles (b : Body α) : b.apply.state.hasPending = false := by
  cases b with
  | plain p => rfl
  | monitored m => rfl
  | captioned m caption => rfl
  | config c => exact c.apply_settles
  | full f => exact f.apply_settles

end Marks

section Turns

variable [BEq α] [PartialEquivBEq α] {m : Member α}

/-- A member that was not marked before its draw is marked after it just when the draw tells of a
change. -/
theorem Member.redrawn_marks (label : String) (fresh : m.body.isChanged = false) :
    (m.redrawn label).1.body.isChanged = (m.redrawn label).2 := by
  unfold Member.redrawn
  split
  · exact fresh
  · exact Body.edit_marks _ _ fresh

/-- In immediate mode an apply comes between the draw and the question. -/
theorem Member.redrawn_apply_marks (label : String) (fresh : m.body.isChanged = false)
    (told : (m.redrawn label).2 = true) :
    (m.redrawn label).1.body.apply.state.isChanged = true := by
  unfold Member.redrawn at told ⊢
  split at told
  · cases told
  · exact Body.apply_marks _ _ fresh told

end Turns

end BoundValues
