import BoundValues.Proofs.Confinement
import BoundValues.Proofs.LateMarks
import BoundValues.Proofs.Rounds

namespace BoundValues

variable {α : Type}

section Kept

variable {r : Regime α} {key : Nat} {b : Body α}

theorem Body.Fits.revert (fits : b.Fits r key) : b.revert.Fits r key := by
  refine fits.congr ?_ ?_ ?_ <;> cases b <;> rfl

theorem Body.Fits.prepare (fits : b.Fits r key) (mode : Option EditMode) :
    (Container.prepare mode b).Fits r key := by
  refine fits.congr ?_ ?_ ?_ <;> cases mode <;> cases b <;> rfl

end Kept

namespace World

/-- One world for all members, and for each entry a world of its own that is alike for its member. -/
structure Parallel (r : Regime α) (es : List Entry) (w : World α) (v : Entry → World α) : Prop where
  orderly : w.Orderly r
  orderlies : ∀ e ∈ es, (v e).Orderly r
  alike : ∀ e ∈ es, Alike r e.key w (v e)

section Parallels

variable {ρ : Type} {r : Regime α} {es : List Entry} {w : World α} {v : Entry → World α}

/-- What stays with some member, no matter which, may be done in all worlds. -/
theorem Parallel.foldl {β : Type} {f : World α → β → World α} {xs : List β}
    (confined : ∀ x ∈ xs, ∃ key, Confined r key fun w => (f w x, ())) (h : Parallel r es w v) :
    Parallel r es (xs.foldl f w) fun e => xs.foldl f (v e) := by
  induction xs generalizing w v with
  | nil => exact h
  | cons x xs ih =>
    obtain ⟨key, first⟩ := confined x List.mem_cons_self
    refine ih (fun y hy => confined y (List.mem_cons_of_mem x hy)) ⟨first.orderly h.orderly, ?_, ?_⟩
    · exact fun e he => first.orderly (h.orderlies e he)
    · exact fun e he => first.alike h.orderly (h.orderlies e he) (h.alike e he)

variable {f : Entry → World α → World α × ρ}

/-- A tour that does not visit a member is not noticed there. -/
theorem tour_away (confined : ∀ e ∈ es, Confined r e.key (f e)) (orderly : w.Orderly r) {key : Nat}
    (absent : key ∉ es.map Entry.key) : Alike r key w (tour f es w).1 := by
  induction es generalizing w with
  | nil => exact .refl w
  | cons e es ih =>
    rw [List.map_cons, List.mem_cons, not_or] at absent
    have first := confined e List.mem_cons_self
    exact (first.away orderly absent.1).trans
      (ih (fun e' he => confined e' (List.mem_cons_of_mem e he)) (first.orderly orderly) absent.2)

/-- Induction on the entries: each turn does what it does in the world of its own. Turns before it keep
that world alike, and so do the turns after it. -/
theorem Parallel.tour (confined : ∀ e ∈ es, Confined r e.key (f e)) (keys : (es.map Entry.key).Nodup)
    (h : Parallel r es w v) : Parallel r es (tour f es w).1 (fun e => (f e (v e)).1) ∧
      (World.tour f es w).2 = es.map fun e => (f e (v e)).2 := by
  induction es generalizing w with
  | nil => exact ⟨⟨h.orderly, List.forall_mem_nil _, List.forall_mem_nil _⟩, rfl⟩
  | cons e es ih =>
    rw [List.map_cons, List.nodup_cons] at keys
    obtain ⟨absent, keys⟩ := keys
    have first := confined e List.mem_cons_self
    have others : ∀ e' ∈ es, Confined r e'.key (f e') :=
      fun e' he => confined e' (List.mem_cons_of_mem e he)
    obtain ⟨follows, same⟩ := first.follows h.orderly (h.orderlies e List.mem_cons_self)
      (h.alike e List.mem_cons_self)
    -- The world that the first turn leaves is still alike for the members whose turns come later.
    have next : Parallel r es (f e w).1 v := by
      refine ⟨first.orderly h.orderly, fun e' he => h.orderlies e' (List.mem_cons_of_mem e he), ?_⟩
      intro e' he
      have apart : e'.key ≠ e.key := fun same => absent (same ▸ List.mem_map_of_mem he)
      exact (first.away h.orderly apart).symm.trans (h.alike e' (List.mem_cons_of_mem e he))
    obtain ⟨rest, told⟩ := ih others keys next
    refine ⟨⟨rest.orderly, ?_, ?_⟩, ?_⟩
    · intro e' he
      exact (confined e' he).orderly (h.orderlies e' he)
    · intro e' he
      rcases List.mem_cons.mp he with rfl | he
      · exact (tour_away others (first.orderly h.orderly) absent).symm.trans follows
      · exact rest.alike e' he
    · simp only [World.tour, told, List.map_cons, same]

end Parallels

end World

namespace Container

open World

def concerns (c : Container α) (key : Nat) : Event α → Bool
  | .valueChanged _ id => c.key? id == some key
  | .memberChanged name => c.valueChanged.slots.all fun watcher =>
      watcher.name != name || watcher.only.all fun id => c.key? id == some key
  | _ => false

def regime (c : Container α) : Regime α := { c.world.regime with signs := c.concerns }

/-- Widgets, listeners, getters, setters and hooks write to no member. Each member has a variable of its
own, in which nobody stores values but who is called about the member. Who is told of applied changes is
called about no member in particular, and stores values of one at most. -/
structure Separate (c : Container α) : Prop where
  members {key : Nat} {m : Member α} (hm : c.world.member? key = some m) : m.Fits c.regime key
  watchers : ∀ e ∈ c.entries, ∀ watcher ∈ c.valueChanged.slots,
    watcher.only.all (· == e.id) = true → ∀ s ∈ watcher.script, c.regime.Private e.key s
  applied : ∀ watcher ∈ c.applied.slots, ∃ key, ∀ s ∈ watcher.script, c.regime.Private key s

theorem Separate.orderly {c : Container α} (h : c.Separate) : c.world.Orderly c.regime :=
  ⟨⟨rfl, fun _ => id⟩, h.members⟩

section Telling

variable {c : Container α} {e : Entry} {run : Runner α}

/-- What a watcher is told of a member is about this member. -/
theorem about_event (h : c.Sound) (he : e ∈ c.entries) {watcher : Watcher}
    (hw : watcher ∈ c.valueChanged.slots) (watches : watcher.only.all (· == e.id) = true) (k : Nat)
    (other : k ≠ e.key) : c.regime.about k (Watcher.event watcher e.id) = false := by
  have key : c.key? e.id = some e.key := (h.key?_eq_iff he).mpr rfl
  have elsewhere : (c.key? e.id == some k) = false := by simpa [key] using Ne.symm other
  unfold Watcher.event
  cases hid : watcher.only with
  | none => exact elsewhere
  | some id =>
    obtain rfl : id = e.id := by simpa [hid] using watches
    have told : (watcher.name != watcher.name || watcher.only.all fun id => c.key? id == some k) =
        false := by simp [hid, elsewhere]
    exact Bool.eq_false_iff.mpr fun all =>
      Bool.false_ne_true (told.symm.trans (List.all_eq_true.mp all watcher hw))

variable (h : c.Sound) (separate : c.Separate) (he : e ∈ c.entries)
  (runs : ∀ key s, c.regime.Private key s → Confined c.regime key fun w => (run s w, ()))

include h separate he runs

/-- Who watches for one id is called about that member alone. -/
theorem confined_emitChanged :
    Confined c.regime e.key fun w => (emitChanged run c e.id w, ()) := by
  refine .foldl fun watcher hw => ?_
  have present := Signal.mem_slots_of_snapshot hw
  cases watches : watcher.only.all (· == e.id) with
  | false => exact (Confined.pure ()).congr fun w _ => by simp only [tell, watches]; rfl
  | true =>
    have called := confined_call (runs e.key) (about_event h he present watches)
      (separate.watchers e he watcher present watches)
    exact called.congr fun w _ => by simp only [tell, watches, if_true]

theorem confined_announced {ids : List String} (own : ∀ id ∈ ids, id = e.id) :
    Confined c.regime e.key fun w => (ids.foldl (fun w id => emitChanged run c id w) w, ()) :=
  .foldl fun id hid => own id hid ▸ confined_emitChanged h separate he runs

variable [BEq α]

/-- A turn of a drawing pass. What it reads of the world at its end is the member's own mark. -/
theorem confined_drawTurn : Confined c.regime e.key (Bulk.drawTurn run c e) := by
  refine .of_member ⟨{}, fun w hm => by simp only [Bulk.drawTurn, drawEntry, hm]⟩ fun m fits => ?_
  cases shown : m.body.visibility.shown c.options.showAdvanced with
  | false =>
    exact ⟨_, .pure {}, fun w hm => by
      simp only [Bulk.drawTurn, drawEntry, hm, shown, Bool.false_eq_true, if_false]⟩
  | true =>
    have prepared : Confined c.regime e.key fun w =>
        (w.mapBody e.key (prepare c.options.globalMode), ()) :=
      confined_modify fun _ old => ⟨old.body.prepare _, old.widget⟩
    have settled (reported : Bool) : Confined c.regime e.key fun w =>
        (if reported && c.options.immediate then emitChanged run c e.id (w.apply run e.key).1
          else w, ()) := by
      cases reported && c.options.immediate with
      | false => exact .pure ()
      | true =>
        exact (confined_apply (runs e.key)).bind fun _ => confined_emitChanged h separate he runs
    have read : Confined c.regime e.key fun w =>
        (w, Tidings.mk (if (w.member? e.key).any fun m => m.body.isChanged then [e.id] else []) 0) :=
      .of_member ⟨{}, fun w hm => by simp [hm]⟩ fun m _ => ⟨_, .pure _, fun w hm => by rw [hm]⟩
    have drawn := prepared.next ((confined_draw (runs e.key) (drawLabel e m)).bind
      fun reported => (settled reported).next read)
    exact ⟨_, drawn, fun w hm => by
      simp only [Bulk.drawTurn, drawEntry, hm, shown, if_true, drawShown, List.nil_append]⟩

/-- Whatever the pass is, a turn stays with its member. -/
theorem confined_turn (b : Bulk) : Confined c.regime e.key (b.turn run c e) := by
  have counted (act : Nat → World α → World α × Bool) (acts : Confined c.regime e.key (act e.key)) :
      Confined c.regime e.key (Bulk.countTurn act e) :=
    acts.bind fun b => .pure (Tidings.mk [] b.toNat)
  cases b with
  | drawAll =>
    cases visible : c.options.visible with
    | false =>
      exact (Confined.pure (Tidings.mk [] 0)).congr fun w _ => by simp [Bulk.turn, visible]
    | true =>
      exact (confined_drawTurn h separate he runs).congr fun w _ => by simp [Bulk.turn, visible]
  | applyAll => exact counted (World.apply run) (confined_apply (runs e.key))
  | revertAll =>
    have reverted : Confined c.regime e.key fun w => (w.mapBody e.key Body.revert, ()) :=
      confined_modify fun _ old => ⟨old.body.revert, old.widget⟩
    exact reverted.next (.pure (Tidings.mk [] 0))
  | pullAll => exact counted (World.pull run) (confined_pull (runs e.key))
  | pushAll => exact counted (World.push run) (confined_push (runs e.key))

end Telling

/-- A turn of a drawing pass tells of no other member. -/
theorem turn_ids [BEq α] (run : Runner α) (c : Container α) (b : Bulk) (e : Entry) (w : World α) :
    ∀ id ∈ (b.turn run c e w).2.ids, id = e.id := by
  have drawn : ∀ id ∈ (drawEntry run c { world := w } e).changed, id = e.id := by
    rw [drawEntry_changed, List.nil_append]
    split
    · exact fun id hid => List.mem_singleton.mp hid
    · exact List.forall_mem_nil _
  cases b with
  | drawAll =>
    simp only [Bulk.turn]
    split
    · exact drawn
    · exact List.forall_mem_nil _
  | _ => exact List.forall_mem_nil _

section Rounds

variable {c : Container α} {run : Runner α} {w : World α} {v : Entry → World α}

variable (separate : c.Separate)
  (runs : ∀ key s, c.regime.Private key s → Confined c.regime key fun w => (run s w, ()))

include separate runs

/-- Whoever is told of applied changes stays with some member. -/
theorem parallel_emitApplied (same : Parallel c.regime c.entries w v) :
    Parallel c.regime c.entries (emitApplied run c w) fun e => emitApplied run c (v e) := by
  refine same.foldl fun watcher hw => ?_
  have present := Signal.mem_slots_of_snapshot hw
  obtain ⟨key, own⟩ := separate.applied watcher present
  have aside : ∀ k ≠ key, c.regime.about k (.applied watcher.name) = false := fun _ _ => rfl
  exact ⟨key, confined_call (runs key) aside own⟩

variable (h : c.Sound)

include h

/-- What follows the turns. Announcements that had to wait are made member by member. -/
theorem parallel_close (b : Bulk) (told : Entry → List String)
    (own : ∀ e ∈ c.entries, ∀ id ∈ told e, id = e.id) (same : Parallel c.regime c.entries w v) :
    Parallel c.regime c.entries (b.close run c (c.entries.flatMap told) w)
      fun e => b.close run c (told e) (v e) := by
  cases b with
  | drawAll =>
    cases immediate : c.options.immediate with
    | true => simpa only [Bulk.close, immediate, if_true] using same
    | false =>
      -- Announcing what all turns told is one more tour: the ids of each turn are of its own member.
      simp only [Bulk.close, immediate, Bool.false_eq_true, if_false, List.foldl_flatMap]
      have announced : ∀ e ∈ c.entries, Confined c.regime e.key fun w =>
          ((told e).foldl (fun w id => emitChanged run c id w) w, ()) :=
        fun e he => confined_announced h separate he runs (own e he)
      have toured := (same.tour announced h.keys).1
      rwa [tour_foldl] at toured
  | applyAll => exact parallel_emitApplied separate runs same
  | revertAll | pullAll | pushAll => exact same

/-- One step: what is done with all members is done to each of them in a world of its own, and all that
is told is told there. -/
theorem parallel_outcome [BEq α] (b : Bulk) (same : Parallel c.regime c.entries w v) :
    Parallel c.regime c.entries (b.outcome run c c.entries w).1
      (fun e => (b.outcome run c [e] (v e)).1) ∧
    (b.outcome run c c.entries w).2 =
      Tidings.total (c.entries.map fun e => (b.outcome run c [e] (v e)).2) := by
  simp only [Bulk.outcome_singleton]
  obtain ⟨turned, told⟩ := same.tour (fun e he => confined_turn h separate he runs b) h.keys
  have closed := parallel_close separate runs h b (fun e => (b.turn run c e (v e)).2.ids)
    (fun e _ => turn_ids run c b e (v e)) turned
  simp only [Bulk.outcome, told]
  refine ⟨?_, trivial⟩
  simpa only [Tidings.total, List.flatMap_map] using closed

/-- Induction on the passes. -/
theorem parallel_rounds [BEq α] (bs : List Bulk) (same : Parallel c.regime c.entries w v) :
    Parallel c.regime c.entries (c.rounds run bs c.entries w) fun e => c.rounds run bs [e] (v e) := by
  induction bs generalizing w v with
  | nil => exact same
  | cons b bs ih => exact ih (parallel_outcome separate runs h b same).1

end Rounds

end Container

section Removing

variable {r : Regime α} {key : Nat} {w : World α}

theorem World.orderly_drop (orderly : w.Orderly r) (key : Nat) : (w.drop key).Orderly r := by
  have fewer {k : Nat} {m : Member α} (hm : (w.drop key).member? k = some m) :
      w.member? k = some m := by
    by_cases here : k = key
    · subst here
      rw [member?_drop_self] at hm
      cases hm
    · exact (member?_drop_of_ne here).symm.trans hm
  refine ⟨⟨orderly.texts, fun name muted k hk => ?_⟩, fun hm => orderly.fits (fewer hm)⟩
  refine Option.eq_none_iff_forall_ne_some.mpr fun m hm => ?_
  cases (fewer hm).symm.trans (orderly.mute name muted k hk)

theorem World.alike_drop {k : Nat} (other : k ≠ key) (w : World α) : Alike r k w (w.drop key) :=
  ⟨member?_drop_of_ne other, rfl, fun _ _ _ => rfl, rfl⟩

end Removing

namespace Container

open World

structure Narrows (r : Regime α) (c c' : Container α) (kept : Entry → Bool) : Prop where
  sound : c'.Sound
  configured : c.Configured c'
  entries : c'.entries = c.entries.filter kept
  orderly : c'.world.Orderly r
  alike : ∀ e ∈ c'.entries, Alike r e.key c.world c'.world

/-- Taking one member out leaves the others as they are. -/
theorem narrows_remove {r : Regime α} {c : Container α} (h : c.Sound) (orderly : c.world.Orderly r)
    (id : String) : c.Narrows r (c.remove id).1 fun e => e.id != id := by
  have entries : (c.remove id).1.entries = c.entries.filter fun e => e.id != id :=
    (h.registry.remove id).2.1
  have dropped : (c.remove id).1.world = (c.key? id).elim c.world c.world.drop := rfl
  refine ⟨(h.remove id).1, ⟨_, _, rfl⟩, entries, ?_, fun e he => ?_⟩
  · rw [dropped]
    cases c.key? id with
    | none => exact orderly
    | some key => exact orderly_drop orderly key
  · obtain ⟨he, other⟩ := List.mem_filter.mp (entries ▸ he)
    have apart := h.key?_ne he (by simpa using other)
    rw [dropped]
    cases hk : c.key? id with
    | none => exact .refl c.world
    | some key => exact alike_drop (fun same => apart (hk.trans (congrArg some same.symm))) c.world

/-- Induction on the ids that go. -/
theorem narrows_removing {r : Regime α} {c : Container α} (h : c.Sound) (orderly : c.world.Orderly r)
    (ids : List String) : c.Narrows r (ids.foldl (fun c id => (c.remove id).1) c)
      fun e => !ids.contains e.id := by
  induction ids generalizing c with
  | nil =>
    exact ⟨h, ⟨_, _, rfl⟩, (List.filter_true _).symm, orderly, fun _ _ => .refl c.world⟩
  | cons id ids ih =>
    have first := narrows_remove h orderly id
    have rest := ih first.sound first.orderly
    refine ⟨rest.sound, ?_, ?_, rest.orderly, fun e he => ?_⟩
    · obtain ⟨world, registry, left⟩ := rest.configured
      exact ⟨world, registry, left⟩
    · rw [List.foldl_cons, rest.entries, first.entries, List.filter_filter]
      refine List.filter_congr fun e _ => ?_
      rw [List.contains_cons, Bool.not_or, Bool.and_comm]
      rfl
    · have left := (List.mem_filter.mp (rest.entries ▸ he)).1
      exact (first.alike e left).trans (rest.alike e he)

def isolated (c : Container α) (id : String) : Container α :=
  (c.ids.filter (· != id)).foldl (fun c other => (c.remove other).1) c

theorem isolated_narrows {r : Regime α} {c : Container α} (h : c.Sound) (orderly : c.world.Orderly r)
    {e : Entry} (he : e ∈ c.entries) :
    c.Narrows r (c.isolated e.id) (· == e) ∧ (c.isolated e.id).entries = [e] := by
  have narrows := narrows_removing h orderly (c.ids.filter (· != e.id))
  have kept : ∀ e' ∈ c.entries, (!(c.ids.filter (· != e.id)).contains e'.id) = (e' == e) := by
    intro e' he'
    have listed : e'.id ∈ c.ids := List.mem_map_of_mem he'
    have gone : e'.id ∈ c.ids.filter (· != e.id) ↔ e'.id ≠ e.id := by simp [listed]
    have same : e'.id = e.id ↔ e' = e := ⟨h.id_inj he' he, congrArg Entry.id⟩
    rw [Bool.eq_iff_iff, Bool.not_eq_true', Bool.eq_false_iff, ne_eq, List.contains_iff_mem, gone,
      not_not, same, beq_iff_eq]
  have entries : (c.isolated e.id).entries = c.entries.filter (· == e) :=
    narrows.entries.trans (List.filter_congr kept)
  have once : c.entries.count e = 1 := List.count_eq_one_of_mem (.of_map _ h.keys) he
  refine ⟨{ narrows with entries := entries }, ?_⟩
  rw [entries, List.filter_beq, once, List.replicate_one]

/-- What members notice of each other, in passes over all of them: nothing. Each fares as the only one
that is left in the same container when the others are removed. What the passes tell is what they tell
of the members that are left alone, put together. -/
structure Independent [BEq α] (c : Container α) (run : Runner α) (bs : List Bulk) : Prop where
  alone {e : Entry} (he : e ∈ c.entries) :
    (c.isolated e.id).entries = [e] ∧ c.Configured (c.isolated e.id)
  member {e : Entry} (he : e ∈ c.entries) :
    ((c.isolated e.id).bulks run bs).member? e.id = (c.bulks run bs).member? e.id
  outside {e : Entry} (he : e ∈ c.entries) :
    ((c.isolated e.id).bulks run bs).world.externals[e.key]? =
      (c.bulks run bs).world.externals[e.key]?
  calls {e : Entry} (he : e ∈ c.entries) :
    ((c.isolated e.id).bulks run bs).world.log.filter (c.regime.about e.key) =
      (c.bulks run bs).world.log.filter (c.regime.about e.key)
  reported {e : Entry} (he : e ∈ c.entries) : e.id ∈ ((c.bulks run bs).drawAll run).2 ↔
    e.id ∈ (((c.isolated e.id).bulks run bs).drawAll run).2
  applied : ((c.bulks run bs).applyAll run).2 =
    (c.entries.map fun e => (((c.isolated e.id).bulks run bs).applyAll run).2).sum
  pulled : ((c.bulks run bs).pullAll run).2 =
    (c.entries.map fun e => (((c.isolated e.id).bulks run bs).pullAll run).2).sum
  pushed : ((c.bulks run bs).pushAll run).2 =
    (c.entries.map fun e => (((c.isolated e.id).bulks run bs).pushAll run).2).sum

section Isolation

variable {c : Container α} {run : Runner α} (h : c.Sound) (separate : c.Separate)

include h separate

/-- Removing the other members puts each in a world of its own. -/
theorem parallel_isolated :
    Parallel c.regime c.entries c.world fun e => (c.isolated e.id).world := by
  refine ⟨separate.orderly, fun e he => ?_, fun e he => ?_⟩
  · exact (isolated_narrows h separate.orderly he).1.orderly
  · obtain ⟨narrows, entries⟩ := isolated_narrows h separate.orderly he
    exact narrows.alike e (entries ▸ List.mem_singleton_self e)

variable [BEq α]
  (runs : ∀ key s, c.regime.Private key s → Confined c.regime key fun w => (run s w, ()))

include runs

/-- What passes tell, after any passes before them. -/
theorem tidings_bulks (bs : List Bulk) (b : Bulk) : (c.bulks run bs).tidings run b =
    .total (c.entries.map fun e => ((c.isolated e.id).bulks run bs).tidings run b) := by
  have after := parallel_rounds separate runs h bs (parallel_isolated h separate)
  rw [c.configured_self.tidings_bulks, (parallel_outcome separate runs h b after).2]
  refine congrArg Tidings.total (List.map_congr_left fun e he => ?_)
  obtain ⟨narrows, entries⟩ := isolated_narrows h separate.orderly he
  rw [narrows.configured.tidings_bulks, entries]

omit runs in
/-- What is told of a member that is left alone is told of nobody else. -/
theorem tidings_isolated {e : Entry} (he : e ∈ c.entries) (bs : List Bulk) (b : Bulk) :
    ∀ id ∈ (((c.isolated e.id).bulks run bs).tidings run b).ids, id = e.id := by
  obtain ⟨narrows, entries⟩ := isolated_narrows h separate.orderly he
  rw [narrows.configured.tidings_bulks, entries, Bulk.outcome_singleton]
  exact turn_ids run c b e _

omit runs in
/-- An id that is told is told of its own member. -/
theorem mem_tidings {e : Entry} (he : e ∈ c.entries) (bs : List Bulk) (b : Bulk) :
    e.id ∈ (Tidings.total
        (c.entries.map fun e => ((c.isolated e.id).bulks run bs).tidings run b)).ids ↔
      e.id ∈ (((c.isolated e.id).bulks run bs).tidings run b).ids := by
  constructor
  · intro told
    obtain ⟨t, ht, hid⟩ := List.mem_flatMap.mp told
    obtain ⟨e', he', rfl⟩ := List.mem_map.mp ht
    obtain rfl := h.id_inj he he' (tidings_isolated h separate he' bs b e.id hid)
    exact hid
  · exact fun alone => List.mem_flatMap.mpr ⟨_, List.mem_map_of_mem he, alone⟩

/-- After any passes the worlds are still alike for the member that is left alone. -/
theorem bulks_alike {e : Entry} (he : e ∈ c.entries) (bs : List Bulk) :
    Alike c.regime e.key (c.bulks run bs).world ((c.isolated e.id).bulks run bs).world := by
  have after := parallel_rounds separate runs h bs (parallel_isolated h separate)
  obtain ⟨narrows, entries⟩ := isolated_narrows h separate.orderly he
  rw [c.configured_self.bulks_eq, narrows.configured.bulks_eq, entries]
  exact after.alike e he

omit runs in
theorem bulks_key? {e : Entry} (he : e ∈ c.entries) (bs : List Bulk) :
    (c.bulks run bs).key? e.id = some e.key ∧
      ((c.isolated e.id).bulks run bs).key? e.id = some e.key := by
  obtain ⟨narrows, entries⟩ := isolated_narrows h separate.orderly he
  rw [c.configured_self.bulks_eq, narrows.configured.bulks_eq]
  exact ⟨(h.key?_eq_iff he).mpr rfl,
    (narrows.sound.key?_eq_iff (entries ▸ List.mem_singleton_self e)).mpr rfl⟩

/-- The passes run side by side, in the one world and in a world for each member. -/
theorem Sound.independent (bs : List Bulk) : c.Independent run bs := by
  have told := tidings_bulks h separate runs bs
  refine ⟨fun he => ?_, fun he => ?_, fun he => (bulks_alike h separate runs he bs).outside,
    fun he => (bulks_alike h separate runs he bs).log, fun he => ?_, ?_, ?_, ?_⟩
  · obtain ⟨narrows, entries⟩ := isolated_narrows h separate.orderly he
    exact ⟨entries, narrows.configured⟩
  · obtain ⟨here, there⟩ := bulks_key? h separate he bs
    rw [member?, member?, here, there]
    exact (bulks_alike h separate runs he bs).member
  · rw [drawAll_tells, drawAll_tells, told]
    exact mem_tidings h separate he bs .drawAll
  · simp only [applyAll_tells, told, Tidings.total, List.map_map, Function.comp_def]
  · simp only [pullAll_tells, told, Tidings.total, List.map_map, Function.comp_def]
  · simp only [pushAll_tells, told, Tidings.total, List.map_map, Function.comp_def]

end Isolation

/-- **Independence.** When whatever is attached to the members writes to none of them, and each has a
variable of its own, any passes over all members treat each as if it were the only one. -/
theorem members_independent [BEq α] {c : Container α} (reached : c.Reached) (separate : c.Separate)
    (depth : Nat) (bs : List Bulk) : c.Independent (react depth) bs :=
  reached.sound.independent separate (fun _ s own => confined_react depth s own) bs

/-- A container is separate when no script and no widget writes to a member, and the scripts and
variables that members are connected to are their own. -/
theorem separate_of_sparing {c : Container α}
    (scripts : ∀ text ∈ c.world.regime.texts, ∀ a ∈ text.2, a.Spares c.world.Mute)
    (widgets : ∀ key < c.world.nextKey, ∀ m ∈ c.world.member? key, ∀ widget ∈ m.widget,
      ∀ n picture, ∀ p ∈ (widget n picture).pokes, c.world.Mute p.handle)
    (owned : ∀ key < c.world.nextKey, ∀ m ∈ c.world.member? key, ∀ s ∈ m.body.attached,
      (c.world.regime.texts[s]?).all (fun text => text.1 == key) = true)
    (links : ∀ key < c.world.nextKey, ∀ m ∈ c.world.member? key, ∀ endpoint ∈ m.body.link.endpoints,
      endpoint.external = key)
    (readers : ∀ watcher ∈ c.valueChanged.slots ++ c.applied.slots, ∀ s ∈ watcher.script,
      c.world.regime.Inert s) : c.Separate := by
  refine ⟨fun {key m} hm => ?_, fun e _ watcher hw _ s hs => ?_, fun watcher hw => ⟨0, fun s hs => ?_⟩⟩
  · have inside := lt_of_member? hm
    refine ⟨⟨fun s hs => .inr fun text here => ⟨?_, ?_⟩, links key inside m hm⟩,
      widgets key inside m hm⟩
    · have here : c.world.regime.texts[s]? = some text := here
      have own := owned key inside m hm s hs
      rw [here] at own
      exact beq_iff_eq.mp own
    · exact scripts text (List.mem_of_getElem? here)
  · exact .inl (readers watcher (List.mem_append_left _ hw) s hs)
  · exact .inl (readers watcher (List.mem_append_right _ hw) s hs)

def bench : Container Nat :=
  let recipe (kind : Kind) (linked : Bool) : Recipe Nat :=
    { kind, linked, type := ⟨"u64", fun _ n => toString n, String.toNat?⟩, initial := 1, outside := 1
      settings := [.widget fun _ picture => ⟨picture.value + 1, [], { changed := true }⟩] }
  [.add "dial" (recipe .monitored true), .add "gauge" (recipe .full true),
    .add "note" (recipe .plain false),
    .command "dial" (.listen "ear" .pair [.command 2 (.setOutside 7)]),
    .command "dial" (.setOutside 4), .command "gauge" (.edit (.stage 5)),
    .watch .valueChanged "eye" none].foldl (fun c a => (c.perform (react 0) a).1) {}

theorem bench_separate : bench.Separate := by
  refine separate_of_sparing ?_ ?_ (by decide) (by decide) ?_
  · intro text ht a ha
    have texts : bench.world.regime.texts = [(0, [.command 2 (.setOutside 7)])] := rfl
    rw [texts, List.mem_singleton] at ht
    subst ht
    rw [List.mem_singleton.mp ha]
    rfl
  · intro key _ m _ widget _ n picture p _ k reaches
    cases reaches
  · intro watcher hw s hs
    have watchers : bench.valueChanged.slots ++ bench.applied.slots = [⟨"eye", none, none⟩] := rfl
    rw [watchers, List.mem_singleton] at hw
    subst hw
    cases hs

/-- The listener stores a value while the first pull is made, which the next one takes over. -/
theorem members_of_bench_independent : bench.Independent (react 2) [.pullAll] ∧
    ((bench.bulks (react 2) [.pullAll]).pullAll (react 2)).2 = 1 ∧
    ((bench.bulks (react 2) [.pullAll]).applyAll (react 2)).2 = 1 ∧
    ((bench.bulks (react 2) [.pullAll]).drawAll (react 2)).2 = ["dial", "gauge", "note"] := by
  have reached : bench.Reached := (Reached.empty _).performAll 0 _
  exact ⟨members_independent reached bench_separate 2 _, by decide, by decide, by decide⟩

end Container

end BoundValues
