import BoundValues.Proofs.Reporting
import BoundValues.Proofs.Tame

namespace BoundValues

variable {α : Type}

inductive Event.Shows : Event α → Prop
  | drew (key : Nat) (picture : Picture α) : Shows (.drew key picture)
  | hooked (key : Nat) (occurrence : Occurrence) (hook : String) : Shows (.hooked key occurrence hook)

def Member.exposed (m : Member α) : Member α :=
  { m with drawn := if m.widget.isSome then m.drawn + 1 else m.drawn }

section Drawing

variable [BEq α]

namespace Member

variable {m : Member α} {label : String}

end Member

namespace World

variable {w : World α} {key : Nat} {m : Member α}

end World

end Drawing

namespace Container

open World

/-- A member after a pass in a mode that cannot edit it. When it is shown, it got the mode, its mark for
changes was cleared, and its widget saw it. -/
def posed (c : Container α) (mode : EditMode) (m : Member α) : Member α :=
  if c.shows m then
    Member.exposed { m with body := (m.body.mapCell fun cell => { cell with mode }).clearChanged }
  else m

def Tamed (w : World α) (es : List Entry) : Prop :=
  ∀ e ∈ es, ∀ m ∈ w.member? e.key, w.Tame m

structure Poses (c : Container α) (mode : EditMode) (es : List Entry) (d d' : Drawn α) : Prop where
  rests : ∃ told, Rests .full told (d.world.mapMembers (fun _ => c.posed mode) es) d'.world ∧
    ∀ e ∈ told, e.Shows
  changed : d'.changed = d.changed

section Posing

variable {c : Container α} {mode : EditMode} {m : Member α} {d d' d'' : Drawn α} {e : Entry}
  {es : List Entry} {depth : Nat}

theorem posed_tame {w : World α} (tame : w.Tame m) (c : Container α) (mode : EditMode) :
    w.Tame (c.posed mode m) := by
  unfold posed
  split
  · refine tame.congr rfl ?_
    cases m.body <;> rfl
  · exact tame

theorem Poses.refl (c : Container α) (mode : EditMode) (d : Drawn α) : c.Poses mode [] d d :=
  ⟨⟨[], .refl _, List.forall_mem_nil _⟩, rfl⟩

/-- Turns one after the other: each leaves the members of the others alone. -/
theorem Poses.cons (first : c.Poses mode [e] d d') (rest : c.Poses mode es d' d'') :
    c.Poses mode (e :: es) d d'' := by
  obtain ⟨told, posed, shows⟩ := first.rests
  obtain ⟨told', posed', shows'⟩ := rest.rests
  exact ⟨⟨told ++ told', (posed.mapMembers _ es).trans posed',
    List.forall_mem_append.mpr ⟨shows, shows'⟩⟩, rest.changed.trans first.changed⟩

/-- A member that was changed may come again, and is as tame as before. -/
theorem Tamed.modify {w : World α} (tamed : Tamed w (e :: es)) {g : Member α → Member α}
    (kept : ∀ m, w.Tame m → w.Tame (g m)) : Tamed (w.modify e.key g) es := by
  intro f hf n hn
  cases hm : w.member? e.key with
  | none =>
    rw [modify_of_absent hm] at hn ⊢
    exact tamed f (List.mem_cons_of_mem e hf) n hn
  | some m =>
    rw [modify_of_member? hm] at hn ⊢
    by_cases same : f.key = e.key
    · rw [same, member?_setMember_self hm] at hn
      cases hn
      exact (kept m (tamed e List.mem_cons_self m hm)).setMember hm _
    · rw [member?_setMember_of_ne same] at hn
      exact (tamed f (List.mem_cons_of_mem e hf) n hn).setMember hm _

theorem Poses.tamed (first : c.Poses mode [e] d d') (tamed : Tamed d.world (e :: es)) :
    Tamed d'.world es := by
  obtain ⟨told, rests, -⟩ := first.rests
  have posed : Tamed (d.world.modify e.key (c.posed mode)) es :=
    tamed.modify fun _ tame => posed_tame tame c mode
  exact fun f hf n hn => rests.tame (posed f hf n ((rests.member? f.key).symm.trans hn))

variable [BEq α]

end Posing

section Immunity

variable [BEq α] {c : Container α} {mode : EditMode}

end Immunity

end Container

end BoundValues
