import BoundValues.Proofs.Calm
import BoundValues.Proofs.Keeping
import BoundValues.Proofs.OrderedMap

namespace BoundValues

variable {α : Type}

namespace World

/-- The same keys lead to members of the same concrete types. -/
structure Lasting (w w' : World α) : Prop where
  slots : w'.slots.length = w.slots.length
  externals : w'.externals.length = w.externals.length
  members (key : Nat) : (w'.member? key).map Member.concrete = (w.member? key).map Member.concrete

variable {w w' w'' : World α} {key : Nat} {m m' : Member α}

theorem Lasting.refl (w : World α) : Lasting w w := ⟨rfl, rfl, fun _ => rfl⟩

theorem Lasting.trans (h : Lasting w w') (h' : Lasting w' w'') : Lasting w w'' :=
  ⟨h'.slots.trans h.slots, h'.externals.trans h.externals,
    fun key => (h'.members key).trans (h.members key)⟩

theorem lasting_setMember (hm : w.member? key = some m) (same : m'.concrete = m.concrete) :
    Lasting w (w.setMember key m') := by
  refine ⟨List.length_set, rfl, fun k => ?_⟩
  by_cases hk : k = key
  · subst hk
    simp [member?_setMember_self hm, hm, same]
  · rw [member?_setMember_of_ne hk]

theorem lasting_modify {g : Member α → Member α} (same : ∀ m, (g m).concrete = m.concrete)
    (w : World α) (key : Nat) : Lasting w (w.modify key g) := by
  cases hm : w.member? key with
  | none =>
    simp only [modify, hm]
    exact .refl w
  | some m =>
    rw [modify_of_member? hm]
    exact lasting_setMember hm (same m)

theorem Member.Turns.concrete {r : Rules α} {m m' : Member α}
    (h : m.Turns r (fun _ b b' _ => b'.kind = b.kind) key m') : m'.concrete = m.concrete := by
  cases h with
  | step h => simp [Member.concrete, h]
  | _ => simp [Member.concrete, Member.connect]

/-- Nothing that members do to each other makes one go, or turns it into another type. -/
theorem lasting_course [BEq α] :
    Course (.free : Rules α) (fun _ b b' _ => b'.kind = b.kind) Lasting :=
  Routine.course
    { refl := Lasting.refl
      trans := fun _ _ _ h h' => h.trans h'
      steps := fun _ => (Body.steps_move _ _).mono fun _ _ _ h => h.kind
      note := fun _ _ _ => ⟨rfl, rfl, fun _ => rfl⟩
      scripts := fun _ _ _ => ⟨rfl, rfl, fun _ => rfl⟩
      handle := fun _ _ _ _ => ⟨rfl, rfl, fun _ => rfl⟩
      outside := fun _ _ _ _ => ⟨rfl, List.length_set, fun _ => rfl⟩
      turn := fun hm turn _ =>
        have set := lasting_setMember hm (Member.Turns.concrete turn)
        ⟨set.slots, set.externals, set.members⟩
      read := fun _ _ _ => ⟨rfl, rfl, fun _ => rfl⟩
      stored := fun _ _ _ _ => ⟨rfl, List.length_set, fun _ => rfl⟩
      pulled := fun _ moves => moves.kind
      told := by
        intro depth runs w key m b change hm hg
        have set : Lasting w (w.setMember key { m with body := b }) :=
          lasting_setMember hm (by simp [Member.concrete, hg])
        exact commit_notify_under Lasting.refl (fun _ _ _ h h' => h.trans h') runs
          ⟨set.slots, set.externals, set.members⟩ fun _ _ _ => ⟨rfl, rfl, fun _ => rfl⟩ }

/-- Steps that let the members last add up, whatever else they carry along with the world. -/
theorem lasting_foldl {σ β : Type} (within : σ → World α) {f : σ → β → σ}
    (hf : ∀ d x, Lasting (within d) (within (f d x))) (xs : List β) (d : σ) :
    Lasting (within d) (within (xs.foldl f d)) := by
  induction xs generalizing d with
  | nil => exact .refl (within d)
  | cons x xs ih => exact (hf d x).trans (ih (f d x))

theorem Under.lasting (h : Under (.free : Rules α) Lasting w w') : Lasting w w' :=
  (h (obeys_free w)).2

section Running

variable [BEq α] (depth : Nat) (w : World α) (key : Nat)

theorem lasting_runScript (script : Option Nat) : Lasting w (w.runScript (react depth) script) :=
  (runScript_under Lasting.refl (lasting_course.runs depth) script w).lasting

theorem lasting_exec (c : Command α) : Lasting w (w.exec (react depth) key c).1 :=
  (lasting_course.exec_under (lasting_course.runs depth) (Rules.free_allows key c) w).lasting

theorem lasting_execHandle (name : String) (q : HandleRequest α) :
    Lasting w (w.execHandle (react depth) name q).1 :=
  (lasting_course.execHandle_under (lasting_course.runs depth)
    (Rules.free_admits (.handle name q)) w).lasting

theorem lasting_draw (label : String) : Lasting w (w.draw (react depth) key label).1 :=
  (lasting_course.draw_under (lasting_course.runs depth) w trivial).lasting

theorem lasting_pull : Lasting w (w.pull (react depth) key).1 :=
  (lasting_course.pull (lasting_course.runs depth) w key (.inl trivial)).lasting

theorem lasting_push : Lasting w (w.push (react depth) key).1 :=
  (lasting_course.push (lasting_course.runs depth) w key).lasting

theorem lasting_apply : Lasting w (w.apply (react depth) key).1 := by
  unfold World.apply
  split
  · exact .refl w
  · rename_i m hm
    have kind : m.body.apply.state.kind = m.body.kind := by cases m.body <;> rfl
    exact (lasting_course.settle_under (lasting_course.runs depth) hm kind).lasting

end Running

section Members

variable (w : World α) (g : Entry → Member α → Member α) {es : List Entry} {key : Nat}

def mapMembers (es : List Entry) : World α := es.foldl (fun w e => w.modify e.key (g e)) w

theorem member?_mapMembers_of_fixed
    (fixed : ∀ e ∈ es, e.key = key → (w.member? key).map (g e) = w.member? key) :
    (w.mapMembers g es).member? key = w.member? key := by
  induction es generalizing w with
  | nil => rfl
  | cons e es ih =>
    have first : (w.modify e.key (g e)).member? key = w.member? key := by
      by_cases same : e.key = key
      · subst same
        exact (member?_modify_self w e.key _).trans (fixed e List.mem_cons_self rfl)
      · exact member?_modify_of_ne (Ne.symm same) _
    refine (ih _ ?_).trans first
    rw [first]
    exact fun e' he' => fixed e' (List.mem_cons_of_mem e he')

/-- Members of no entry are not met. -/
theorem member?_mapMembers_of_notMem (absent : key ∉ es.map Entry.key) :
    (w.mapMembers g es).member? key = w.member? key :=
  w.member?_mapMembers_of_fixed g fun _ he same => absurd (same ▸ List.mem_map_of_mem he) absent

/-- With different keys, each member is met once. -/
theorem member?_mapMembers_of_mem (keys : (es.map Entry.key).Nodup) {e : Entry} (he : e ∈ es) :
    (w.mapMembers g es).member? e.key = (w.member? e.key).map (g e) := by
  induction es generalizing w with
  | nil => cases he
  | cons f es ih =>
    rw [List.map_cons, List.nodup_cons] at keys
    rcases List.mem_cons.mp he with rfl | he
    · exact (member?_mapMembers_of_notMem _ g keys.1).trans (w.member?_modify_self e.key _)
    · refine (ih _ keys.2 he).trans ?_
      rw [member?_modify_of_ne]
      rintro same
      exact keys.1 (same ▸ List.mem_map_of_mem he)

theorem log_mapMembers (es : List Entry) : (w.mapMembers g es).log = w.log := by
  induction es generalizing w with
  | nil => rfl
  | cons e es ih => exact (ih _).trans (modify_log w e.key (g e))

/-- Changing members and telling of others can be looked at apart. -/
theorem Rests.mapMembers {β : Type} {t : Tally α β} {told : List β} {w w' : World α}
    (h : Rests t told w w') (es : List Entry) :
    Rests t told (w.mapMembers g es) (w'.mapMembers g es) := by
  induction es generalizing w w' with
  | nil => exact h
  | cons e es ih => exact ih (h.modify e.key (g e))

end Members

end World

namespace Container

open World

/-- A container is sound as long as its registry and the types of its members stay. -/
theorem Sound.lasting {c c' : Container α} (h : c.Sound) (registry : c'.registry = c.registry)
    (lasts : Lasting c.world c'.world) : c'.Sound := by
  have entries : c'.entries = c.entries := congrArg Registry.entries registry
  refine ⟨registry ▸ h.registry, entries ▸ h.keys, ?_,
    lasts.externals.trans (h.aligned.trans lasts.slots.symm)⟩
  intro e he
  obtain ⟨m, hm, typed⟩ := h.members e (entries ▸ he)
  have same := lasts.members e.key
  rw [hm, Option.map_some, Option.map_eq_some_iff] at same
  obtain ⟨m', hm', same⟩ := same
  exact ⟨m', hm', same.trans typed⟩

structure Lasts (c c' : Container α) : Prop where
  registry : c'.registry = c.registry
  world : Lasting c.world c'.world

theorem Sound.lasts {c c' : Container α} (h : c.Sound) (lasts : c.Lasts c') : c'.Sound :=
  h.lasting lasts.registry lasts.world

theorem prepare_kind (mode : Option EditMode) (b : Body α) : (prepare mode b).kind = b.kind := by
  cases mode <;> simp [prepare]

theorem lasting_sweep {act : Nat → World α → World α × Bool}
    (acts : ∀ key w, Lasting w (act key w).1) (es : List Entry) (w : World α) :
    Lasting w (sweep act es w).1 := by
  unfold sweep
  refine lasting_foldl Prod.fst ?_ es (w, _)
  exact fun d e => acts e.key d.1

section Sweeps

variable (act : Nat → World α → World α × Bool)

theorem sweep_eq (es : List Entry) (w : World α) :
    sweep act es w = es.foldl
      (fun p e => ((act e.key p.1).1, if (act e.key p.1).2 then p.2 + 1 else p.2)) (w, 0) := rfl

/-- The count goes along and decides nothing. -/
theorem sweep_append (es fs : List Entry) (w : World α) :
    sweep act (es ++ fs) w =
      ((sweep act fs (sweep act es w).1).1,
        (sweep act es w).2 + (sweep act fs (sweep act es w).1).2) := by
  have counted (fs : List Entry) (w : World α) (n : Nat) :
      fs.foldl (fun p e => ((act e.key p.1).1, if (act e.key p.1).2 then p.2 + 1 else p.2)) (w, n) =
        ((sweep act fs w).1, n + (sweep act fs w).2) := by
    induction fs generalizing w n with
    | nil => rfl
    | cons e fs ih =>
      rw [sweep_eq, List.foldl_cons, List.foldl_cons, ih, ih]
      split <;> simp [Nat.add_assoc]
  rw [sweep_eq, List.foldl_append, ← sweep_eq]
  exact counted fs _ _

/-- The first turn is taken, and then the others see what it left behind. -/
theorem sweep_cons (e : Entry) (es : List Entry) (w : World α) :
    sweep act (e :: es) w =
      ((sweep act es (act e.key w).1).1,
        (if (act e.key w).2 then 1 else 0) + (sweep act es (act e.key w).1).2) :=
  sweep_append act [e] es w

end Sweeps

variable [BEq α] (depth : Nat) {c : Container α}

theorem lasting_emitChanged (c : Container α) (id : String) (w : World α) :
    Lasting w (emitChanged (react depth) c id w) := by
  refine lasting_foldl (fun w => w) ?_ _ w
  intro w watcher
  unfold tell
  split
  · have recorded : Lasting w (w.record (Watcher.event watcher id)) := ⟨rfl, rfl, fun _ => rfl⟩
    exact recorded.trans (lasting_runScript depth _ watcher.script)
  · exact .refl w

theorem lasting_emitApplied (c : Container α) (w : World α) :
    Lasting w (emitApplied (react depth) c w) := by
  refine lasting_foldl (fun w => w) ?_ _ w
  intro w watcher
  have recorded : Lasting w (w.record (.applied watcher.name)) := ⟨rfl, rfl, fun _ => rfl⟩
  exact recorded.trans (lasting_runScript depth _ watcher.script)

/-- A turn draws, applies and announces, none of which makes a member go. -/
theorem lasting_drawEntry (c : Container α) (d : Drawn α) (e : Entry) :
    Lasting d.world (drawEntry (react depth) c d e).world := by
  unfold drawEntry
  split
  · rename_i m _
    split
    · have prepared : Lasting d.world (d.world.mapBody e.key (prepare c.options.globalMode)) :=
        lasting_modify (fun m => by simp [Member.concrete, prepare_kind]) _ _
      have drawn := prepared.trans (lasting_draw depth _ e.key (drawLabel e m))
      unfold drawShown
      dsimp only
      split
      · exact drawn.trans ((lasting_apply depth _ e.key).trans (lasting_emitChanged depth c e.id _))
      · exact drawn
    · exact .refl _
  · exact .refl _

theorem lasts_drawAll (c : Container α) : c.Lasts (c.drawAll (react depth)).1 := by
  unfold Container.drawAll
  split
  · have drawn := lasting_foldl Drawn.world (lasting_drawEntry depth c) c.entries
      { world := c.world }
    refine ⟨rfl, drawn.trans ?_⟩
    dsimp only
    split
    · exact .refl _
    · exact lasting_foldl (fun w => w) (fun w id => lasting_emitChanged depth c id w) _ _
  · exact ⟨rfl, .refl _⟩

theorem Sound.drawAll (h : c.Sound) : (c.drawAll (react depth)).1.Sound :=
  h.lasts (lasts_drawAll depth c)

/-- Only upkeep changes which members there are. -/
theorem perform_lasts (a : Action α) (c : Container α) :
    (∃ u : Upkeep α, a = u.action) ∨ c.Lasts (c.perform (react depth) a).1 := by
  cases a with
  | add id r => exact .inl ⟨.add id r, rfl⟩
  | remove id => exact .inl ⟨.remove id, rfl⟩
  | clear => exact .inl ⟨.clear, rfl⟩
  | drawAll => exact .inr (lasts_drawAll depth c)
  | applyAll =>
    have swept := lasting_sweep (fun key w => lasting_apply depth w key) c.entries c.world
    exact .inr ⟨rfl, swept.trans (lasting_emitApplied depth c _)⟩
  | revertAll =>
    refine .inr ⟨rfl, lasting_foldl (fun w => w) (fun w e => ?_) c.entries c.world⟩
    exact lasting_modify (fun m => by simp [Member.concrete]) w e.key
  | pullAll =>
    exact .inr ⟨rfl, lasting_sweep (fun key w => lasting_pull depth w key) c.entries c.world⟩
  | pushAll =>
    exact .inr ⟨rfl, lasting_sweep (fun key w => lasting_push depth w key) c.entries c.world⟩
  | setOptions o => exact .inr ⟨rfl, .refl _⟩
  | watch occasion name only => cases occasion <;> exact .inr ⟨rfl, .refl _⟩
  | unwatch occasion name =>
    refine .inr ?_
    simp only [Container.perform, unwatch]
    split
    · exact ⟨rfl, .refl _⟩
    · cases occasion <;> exact ⟨rfl, .refl _⟩
  | block occasion b => cases occasion <;> exact .inr ⟨rfl, .refl _⟩
  | command id cmd =>
    refine .inr ?_
    simp only [Container.perform, command]
    split
    · exact ⟨rfl, .refl _⟩
    · rename_i key _
      exact ⟨rfl, lasting_exec depth c.world key cmd⟩
  | handle name q => exact .inr ⟨rfl, lasting_execHandle depth c.world name q⟩

/-- Whatever is done to a sound container, it is sound after it. -/
theorem Sound.perform (h : c.Sound) (a : Action α) : (c.perform (react depth) a).1.Sound := by
  rcases perform_lasts depth a c with ⟨u, rfl⟩ | lasts
  · cases u with
    | add id r => exact (h.add (react depth) r id).1
    | remove id => exact (h.remove id).1
    | clear => exact h.clear.1
  · exact h.lasts lasts

/-- A container that was empty at first, and had anything done to it since. Its listeners run any
scripts. -/
inductive Reached : Container α → Prop
  | empty (o : Options) : Reached { options := o }
  | perform {c : Container α} (h : Reached c) (depth : Nat) (a : Action α) :
      Reached (c.perform (react depth) a).1
  | arm {c : Container α} (h : Reached c) (owner : Nat) (who : String) (acts : List (Act α)) :
      Reached { c with world := (c.world.arm owner who acts).1 }
  | watch {c : Container α} (h : Reached c) (occasion : Occasion) (watcher : Watcher) :
      Reached (c.watch occasion watcher)

theorem Reached.performAll (h : c.Reached) (depth : Nat) (as : List (Action α)) :
    (as.foldl (fun c a => (c.perform (react depth) a).1) c).Reached := by
  induction as generalizing c with
  | nil => exact h
  | cons a as ih => exact ih (h.perform depth a)

theorem Reached.sound (h : c.Reached) : c.Sound := by
  induction h with
  | empty o => exact sound_empty o
  | perform _ depth a ih => exact ih.perform depth a
  | arm _ owner who acts ih => exact ih.lasting rfl ⟨rfl, rfl, fun _ => rfl⟩
  | watch _ occasion watcher ih => cases occasion <;> exact ih.lasting rfl (.refl _)

end Container

end BoundValues
