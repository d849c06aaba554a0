import BoundValues.Proofs.BulkApply
import BoundValues.Proofs.Reporting

namespace BoundValues

variable {α : Type}

namespace Container

open World

def setImmediate (immediate : Bool) (c : Container α) : Container α :=
  { c with options := { c.options with immediate } }

theorem Sound.setImmediate {c : Container α} (h : c.Sound) (b : Bool) : (c.setImmediate b).Sound :=
  h.lasting rfl (.refl c.world)

/-- In a quiet world nobody does more than look when all members are applied. -/
theorem calm_of_quiet {c : Container α} (quiet : c.world.Quiet) : c.Calm .unpushed where
  members := quiet.calm fun _ _ => rfl
  watchers _ _ s _ := quiet.mild (fun _ _ => rfl) s

end Container

variable [BEq α]

section Untold

variable {r : Response} {v : α}

/-- An edit that the widget is not told of stages nothing. -/
theorem Config.edit_untold {c : Config α} (untold : (c.edit r v).reply = false) :
    (c.edit r v).state.hasPending = c.hasPending := by
  unfold Config.edit Config.trySet at *
  by_cases taken : (r.changed && c.cell.editable) = true
  · rw [if_pos taken] at *
    cases valid : c.validation.run v with
    | ok accepted => simp [valid] at untold
    | error message => rfl
  · rw [if_neg taken]

theorem Full.edit_untold {f : Full α} {mode : EditMode} {immediate : Bool}
    (untold : (f.edit mode immediate r v).reply = false) :
    (f.edit mode immediate r v).state.hasPending = f.hasPending := by
  unfold Full.edit Full.stage at *
  by_cases taken : (r.changed && mode == .editable) = true
  · rw [if_pos taken] at *
    cases valid : f.validation.run v with
    | ok accepted => cases immediate <;> simp [valid] at untold
    | error message => rfl
  · rw [if_neg taken]

/-- A draw that tells of no change stages nothing, so that an apply has nothing more to do than
before. -/
theorem Body.edit_untold {before b : Body α} (untold : (Body.edit before r v b).reply = false) :
    (Body.edit before r v b).state.hasPending = b.hasPending := by
  cases b with
  | plain p => rfl
  | monitored m => rfl
  | captioned m caption => rfl
  | config c => exact Config.edit_untold untold
  | full f => exact Full.edit_untold untold

theorem Member.redrawn_untold {m : Member α} {label : String} (untold : (m.redrawn label).2 = false) :
    (m.redrawn label).1.body.hasPending = m.body.hasPending := by
  unfold Member.redrawn at *
  split
  · rfl
  · rename_i widget hw
    simp only [hw] at untold
    exact Body.edit_untold untold

end Untold

namespace Container

open World

section Pass

variable {c : Container α} {run : Runner α}

theorem readied_hasPending (c : Container α) (m : Member α) :
    (c.readied m).body.hasPending = m.body.hasPending := by
  unfold readied prepare
  cases c.options.globalMode <;> cases m.body <;> rfl

/-- The turn of a member in immediate mode is its turn in the other mode with the edit applied. -/
theorem turned_immediate (c : Container α) (e : Entry) {m : Member α}
    (settled : m.body.hasPending = false) :
    (c.setImmediate true).turned e m =
      { (c.setImmediate false).turned e m with
        body := ((c.setImmediate false).turned e m).body.applied } := by
  have shows (b : Bool) : (c.setImmediate b).shows m = c.shows m := rfl
  unfold turned
  rw [shows, shows]
  split
  · have readied (b : Bool) : (c.setImmediate b).readied m = c.readied m := rfl
    unfold turn
    rw [readied, readied]
    cases draws : (c.readied m).redrawn (drawLabel e m) with | mk n told
    cases told with
    | true => rfl
    | false =>
      have untold : ((c.readied m).redrawn (drawLabel e m)).1.body.hasPending =
          (c.readied m).body.hasPending := Member.redrawn_untold (by rw [draws])
      rw [draws, readied_hasPending, settled] at untold
      simp only [Bool.false_and, Bool.false_eq_true, if_false, Body.applied,
        Body.apply_of_settled untold]
  · rw [Body.applied, Body.apply_of_settled settled]

theorem drawAll_entries (c : Container α) (run : Runner α) :
    (c.drawAll run).1.entries = c.entries := by
  unfold drawAll
  split <;> rfl

end Pass

structure AppliesAlike (depth : Nat) (c : Container α) : Prop where
  ids : ((c.setImmediate true).drawAll (react depth)).2 =
    ((c.setImmediate false).drawAll (react depth)).2
  members (key : Nat) : ((c.setImmediate true).drawAll (react depth)).1.world.member? key =
    (((c.setImmediate false).drawAll (react depth)).1.applyAll (react depth)).1.world.member? key

section Agreement

variable {c : Container α} (quiet : c.world.Quiet) (settled : c.hasPending = false) (depth : Nat)

include quiet settled

/-- An invisible container draws nothing, and the watchers who are told that all was applied only
look. -/
theorem appliesAlike_invisible (invisible : c.options.visible = false) : c.AppliesAlike depth := by
  have skipped (b : Bool) : (c.setImmediate b).drawAll (react depth) = (c.setImmediate b, []) := by
    rw [Container.drawAll, if_neg]
    simp [setImmediate, invisible]
  have calm := calm_of_quiet (c := c.setImmediate false) quiet
  have still := rests_emitApplied calm.members (gentle_react .unpushed depth) calm.watchers
  refine ⟨by rw [skipped, skipped], fun key => ?_⟩
  rw [skipped, skipped, applyAll_of_settled (c := c.setImmediate false) settled]
  exact (still.member? key).symm

/-- Both runs come to the same world, turn by turn; an apply in between is the apply at the end. -/
theorem Sound.appliesAlike_visible [PartialEquivBEq α] (h : c.Sound)
    (visible : c.options.visible = true) : c.AppliesAlike depth := by
  have runs := harmless_react (α := α) depth
  have now := h.setImmediate true
  have later := h.setImmediate false
  have drawn := later.drawAll depth
  have calm := calm_of_quiet (later.drawAll_quiet visible quiet runs)
  have gentle := gentle_react (α := α) .unpushed depth
  have entries : ((c.setImmediate false).drawAll (react depth)).1.entries = c.entries :=
    drawAll_entries _ _
  refine ⟨?_, fun key => ?_⟩
  · have tells : (c.setImmediate true).tells c.world = (c.setImmediate false).tells c.world := rfl
    rw [now.drawAll_ids visible quiet runs, later.drawAll_ids visible quiet runs]
    exact congrArg (fun q => (c.entries.filter q).map Entry.id) tells
  · by_cases mem : key ∈ c.entries.map Entry.key
    · obtain ⟨e, he, rfl⟩ := List.mem_map.mp mem
      obtain ⟨m, hm, -⟩ := h.members e he
      have idle : m.body.hasPending = false := by
        simpa [waits, hm] using hasPending_eq_false.mp settled e he
      have first : ((c.setImmediate true).drawAll (react depth)).1.world.member? e.key =
          (c.world.member? e.key).map _ := now.drawAll_entry visible quiet runs he
      have second : ((c.setImmediate false).drawAll (react depth)).1.world.member? e.key =
          (c.world.member? e.key).map _ := later.drawAll_entry visible quiet runs he
      rw [calm.applyAll_entry drawn gentle (entries ▸ he), first, second, hm, Option.map_some,
        turned_immediate c e idle]
      rfl
    · have apart : ∀ e ∈ c.entries, e.key = key → c.shown? c.world e = none :=
        fun e he same => absurd (same ▸ List.mem_map_of_mem he) mem
      rw [calm.applyAll_other drawn gentle (entries ▸ mem)]
      exact (now.drawAll_others visible quiet runs apart).trans
        (later.drawAll_others visible quiet runs apart).symm

end Agreement

/-- **Immediate mode is a deferred pass with everything applied afterwards.** The ids are the same and
so is every member, whatever its kind, whether it is shown and whether it applies its edits itself. -/
theorem immediate_is_deferred [PartialEquivBEq α] {c : Container α} (reached : c.Reached)
    (quiet : c.world.Quiet) (settled : c.hasPending = false) (depth : Nat) : c.AppliesAlike depth := by
  cases visible : c.options.visible with
  | true => exact reached.sound.appliesAlike_visible quiet settled depth visible
  | false => exact appliesAlike_invisible quiet settled depth visible

def tray : Container Nat :=
  [.add "count" (counter []), .add "spare" (counter [.advanced])].foldl
    (fun c a => (c.perform (react 0) a).1) {}

theorem immediate_pass_applies_as_deferred :
    ((tray.setImmediate true).drawAll (react 2)).2 = ["count"] ∧ tray.AppliesAlike 2 := by
  have reached : tray.Reached := (Reached.empty _).performAll 0 _
  have quiet : tray.world.Quiet := by
    refine ⟨⟨nofun, fun _ _ _ => trivial⟩, ?_⟩
    intro key m widget _ _ n picture p _ k reaches
    cases reaches
  exact ⟨by decide, immediate_is_deferred reached quiet (by decide) 2⟩

end Container

end BoundValues
