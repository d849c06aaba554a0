import BoundValues.Proofs.Calm
import BoundValues.Proofs.Marks
import BoundValues.Proofs.Passes

namespace BoundValues

variable {α : Type}

namespace Body

variable [BEq α]

def applied (b : Body α) : Body α := b.apply.state

/-- What the commit of a staged value makes of a body: the value is in the cell, nothing is staged any
more, and where there is a history the value is its newest entry. -/
inductive Commits (v : α) : Body α → Body α → Prop
  | config (c : Config α) :
      Commits v (.config c) (.config { c with cell := c.cell.assign v, staging := {} })
  | full (f : Full α) :
      Commits v (.full f)
        (.full { f with cell := f.cell.assign v, staging := {}, history := f.history.push v })

/-- What is told when the staged edit of a body is applied: the commit, once to each listener, and the
value that goes outside. Bodies that are not shared have nobody to tell. -/
def bulletin (key : Nat) (b : Body α) : List (Event α) :=
  match b.staging.difference? b.value with
  | none => []
  | some v =>
    if b.shared then
      .committed key ⟨b.value, v⟩ ::
        (b.listeners.snapshot.map fun l => .notified key l.name l.form ⟨b.value, v⟩) ++
        if b.link.setter.isSome then [.pushed key v] else []
    else []

/-- A body waits exactly when its staged edit differs from the committed value. -/
theorem hasPending_eq (b : Body α) : b.hasPending = (b.staging.difference? b.value).isSome := rfl

/-- An apply comes to nothing, or it commits the staged value. -/
theorem apply_cases (b : Body α) :
    b.staging.difference? b.value = none ∧ b.apply = { state := b, reply := false } ∨
      ∃ v b', b.staging.difference? b.value = some v ∧ b.Commits v b' ∧
        b.apply =
          { state := b', reply := true, change := if b.shared then some ⟨b.value, v⟩ else none } := by
  cases b with
  | plain p => exact .inl ⟨rfl, rfl⟩
  | monitored m => exact .inl ⟨rfl, rfl⟩
  | captioned m caption => exact .inl ⟨rfl, rfl⟩
  | config c =>
    simp only [apply, Config.apply, Staging.take?]
    cases h : c.staging.difference? c.cell.value with
    | none => exact .inl ⟨h, rfl⟩
    | some v => exact .inr ⟨v, _, h, .config c, rfl⟩
  | full f =>
    simp only [apply, Full.apply, Staging.take?]
    cases h : f.staging.difference? f.cell.value with
    | none => exact .inl ⟨h, rfl⟩
    | some v => exact .inr ⟨v, _, h, .full f, rfl⟩

theorem Commits.value {v : α} {b b' : Body α} (h : b.Commits v b') : b'.value = v := by
  cases h <;> rfl

theorem Commits.link {v : α} {b b' : Body α} (h : b.Commits v b') : b'.link = b.link := by
  cases h <;> rfl

theorem Commits.listeners {v : α} {b b' : Body α} (h : b.Commits v b') :
    b'.listeners = b.listeners := by
  cases h <;> rfl

theorem apply_of_settled {b : Body α} (settled : b.hasPending = false) :
    b.apply = { state := b, reply := false } := by
  rcases b.apply_cases with ⟨-, h⟩ | ⟨v, b', staged, -, -⟩
  · exact h
  · rw [hasPending_eq, staged] at settled
    cases settled

theorem apply_reply (b : Body α) : b.apply.reply = b.hasPending := by
  rw [hasPending_eq]
  rcases b.apply_cases with ⟨none, h⟩ | ⟨v, b', staged, -, h⟩
  · rw [none, h]
    rfl
  · rw [staged, h]
    rfl

theorem hearers_applied (b : Body α) : b.applied.hearers = b.hearers := by
  unfold applied
  rcases b.apply_cases with ⟨-, h⟩ | ⟨v, b', -, commits, h⟩
  · rw [h]
  · rw [h]
    simp only [hearers, commits.link, commits.listeners]

/-- The events of an apply are those of the commit. The staged value is compared to the committed one,
and for the listeners the committed one to the staged. -/
theorem apply_tidings [PartialEquivBEq α] (key : Nat) (b : Body α) :
    b.apply.tidings key = b.bulletin key := by
  unfold bulletin
  rcases b.apply_cases with ⟨none, h⟩ | ⟨v, b', staged, commits, h⟩
  · rw [none, h]
    rfl
  · have differs : (b.value == v) = false := by
      have := (Option.filter_eq_some_iff.mp staged).2
      rw [BEq.comm]
      simpa [bne] using this
    rw [staged, h]
    simp only [Step.tidings, Option.map_none, Option.toList_none, List.nil_append]
    split
    · simp [tidings, heard, outgoing, Change.audience, commits.link, commits.listeners,
        commits.value, differs]
    · rfl

end Body

namespace World

def mapBodies (w : World α) (f : Body α → Body α) (es : List Entry) : World α :=
  w.mapMembers (fun _ m => { m with body := f m.body }) es

def waits [BEq α] (w : World α) (e : Entry) : Bool :=
  (w.member? e.key).any fun m => m.body.hasPending

def bulletins [BEq α] (w : World α) (e : Entry) : List (Event α) :=
  (w.member? e.key).elim [] fun m => m.body.bulletin e.key

section Applying

variable {β : Type} {t : Tally α β} {w w' : World α} {es : List Entry} {run : Runner α}

theorem Rests.mapBodies {told : List β} (h : Rests t told w w') (g : Body α → Body α) :
    Rests t told (w.mapBodies g es) (w'.mapBodies g es) :=
  h.mapMembers _ es

theorem Mild.mapBody {s : Nat} (mild : w.Mild t s) (key : Nat) (g : Body α → Body α) :
    (w.mapBody key g).Mild t s := by
  unfold World.mapBody
  cases hm : w.member? key with
  | none => rwa [modify_of_absent hm]
  | some m =>
    rw [modify_of_member? hm]
    exact mild_setMember hm _ mild

theorem Mild.mapBodies {s : Nat} (mild : w.Mild t s) (g : Body α → Body α) :
    (w.mapBodies g es).Mild t s := by
  induction es generalizing w with
  | nil => exact mild
  | cons e es ih => exact ih (mild.mapBody e.key g)

variable [BEq α]

theorem Calm.mapBodies (calm : w.Calm t) : (w.mapBodies Body.applied es).Calm t := by
  induction es generalizing w with
  | nil => exact calm
  | cons e es ih => exact ih (calm.mapBody Body.hearers_applied)

/-- A member that waits for nothing is passed over. -/
theorem apply_of_settled {e : Entry} (settled : w.waits e = false) :
    w.apply run e.key = (w, false) := by
  unfold World.apply
  unfold waits at settled
  split
  · rfl
  · rename_i m hm
    rw [hm] at settled
    rw [Body.apply_of_settled settled]
    exact Prod.ext (settle_of_stays hm rfl rfl rfl) (settle_reply _)

theorem sweep_of_settled (settled : ∀ e ∈ es, w.waits e = false) :
    Container.sweep (World.apply run) es w = (w, 0) := by
  induction es with
  | nil => rfl
  | cons e es ih =>
    rw [Container.sweep_cons, apply_of_settled (settled e List.mem_cons_self),
      ih fun e' he' => settled e' (List.mem_cons_of_mem e he')]
    rfl

variable [PartialEquivBEq α]

/-- One apply commits what is staged, and only its own events are seen. -/
theorem Calm.apply (calm : w.Calm t) (runs : Gentle t run) (e : Entry) :
    Rests t (t.seen (w.bulletins e)) (w.mapBody e.key Body.applied) (w.apply run e.key).1 ∧
      (w.apply run e.key).2 = w.waits e := by
  unfold World.apply bulletins waits
  cases hm : w.member? e.key with
  | none =>
    rw [World.mapBody, modify_of_absent hm]
    exact ⟨.refl w, rfl⟩
  | some m =>
    have kept : m.body.apply.state.hearers = m.body.hearers := m.body.hearers_applied
    have settled := Calm.settle runs hm (calm.setMember hm kept)
    rw [Body.apply_tidings] at settled
    rw [mapBody_of_member? hm]
    exact ⟨settled, (settle_reply _).trans (Body.apply_reply _)⟩

/-- Induction on the entries. What one apply leaves behind, the others find as it was at first. -/
theorem Calm.sweep_apply (calm : w.Calm t) (runs : Gentle t run) (keys : (es.map Entry.key).Nodup) :
    Rests t (t.seen (es.flatMap w.bulletins)) (w.mapBodies Body.applied es)
        (Container.sweep (World.apply run) es w).1 ∧
      (Container.sweep (World.apply run) es w).2 = es.countP w.waits := by
  induction es generalizing w with
  | nil => exact ⟨.refl w, rfl⟩
  | cons e es ih =>
    obtain ⟨first, counted⟩ := calm.apply runs e
    have calm' := first.calm (calm.mapBody Body.hearers_applied)
    obtain ⟨rest, count⟩ := ih calm' keys.of_cons
    have same : ∀ e' ∈ es, (w.apply run e.key).1.member? e'.key = w.member? e'.key := by
      intro e' he'
      have apart : e'.key ≠ e.key := by
        rintro hk
        exact (List.nodup_cons.mp keys).1 (List.mem_map.mpr ⟨e', he', hk⟩)
      exact (first.member? _).trans (member?_modify_of_ne apart _)
    have told : es.flatMap (w.apply run e.key).1.bulletins = es.flatMap w.bulletins :=
      List.flatMap_congr fun e' he' => by simp only [bulletins, same e' he']
    have waiting : es.countP (w.apply run e.key).1.waits = es.countP w.waits :=
      List.countP_congr fun e' he' => by simp only [waits, same e' he']
    rw [told] at rest
    rw [waiting] at count
    rw [Container.sweep_cons, List.countP_cons, counted, count, Nat.add_comm]
    exact ⟨(first.mapBodies Body.applied).append rest, rfl⟩

end Applying

end World

namespace Container

open World

/-- Whoever hears of a commit of a member, a listener or a setter, or of an apply of all members, only
looks. -/
structure Calm {β : Type} (t : Tally α β) (c : Container α) : Prop where
  members : c.world.Calm t
  watchers : ∀ watcher ∈ c.applied.slots, ∀ s ∈ watcher.script, c.world.Mild t s

def closing (c : Container α) : List (Event α) :=
  c.applied.snapshot.map fun watcher => .applied watcher.name

section Announcing

variable {β : Type} {t : Tally α β} {c : Container α} {run : Runner α}

/-- Each watcher is told once that all was applied. -/
theorem rests_emitApplied {w : World α} (calm : w.Calm t) (runs : Gentle t run)
    (watchers : ∀ watcher ∈ c.applied.slots, ∀ s ∈ watcher.script, w.Mild t s) :
    Rests t (t.seen c.closing) w (emitApplied run c w) := by
  rw [closing, List.map_eq_flatMap, Tally.seen_flatMap]
  refine rests_foldl (I := fun w => w.Calm t ∧
    ∀ watcher ∈ c.applied.slots, ∀ s ∈ watcher.script, w.Mild t s) ?_ ?_ ⟨calm, watchers⟩
  · exact fun rests h => ⟨rests.calm h.1, fun x hx s hs => rests.mild (h.2 x hx s hs)⟩
  · intro w watcher hw ⟨calm, watchers⟩
    refine calm.record_runScript runs Tally.seen_singleton.symm (watchers watcher ?_)
    unfold Signal.snapshot at hw
    split at hw
    · cases hw
    · exact hw

end Announcing

/-- A revert meets each member once and drops what is staged there. -/
theorem Sound.revertAll_entry {c : Container α} (h : c.Sound) {e : Entry} (he : e ∈ c.entries) :
    c.revertAll.world.member? e.key =
      (c.world.member? e.key).map fun m => { m with body := m.body.revert } :=
  c.world.member?_mapMembers_of_mem _ h.keys he

variable [BEq α]

structure AppliesAll {β : Type} (t : Tally α β) (depth : Nat) (c : Container α) : Prop where
  count : (c.applyAll (react depth)).2 = c.entries.countP c.world.waits
  committed {e : Entry} {m : Member α} {v : α} (he : e ∈ c.entries)
    (hm : c.world.member? e.key = some m)
    (staged : m.body.staging.difference? m.body.value = some v) :
    ∃ b, m.body.Commits v b ∧
      (c.applyAll (react depth)).1.world.member? e.key = some { m with body := b }
  others {key : Nat} (settled : ∀ e ∈ c.entries, e.key = key → c.world.waits e = false) :
    (c.applyAll (react depth)).1.world.member? key = c.world.member? key
  told : (c.applyAll (react depth)).1.world.tally t = c.world.tally t ++
    t.seen (c.entries.flatMap c.world.bulletins ++ c.closing)
  settled : (c.applyAll (react depth)).1.hasPending = false
  again (depth' : Nat) :
    ((c.applyAll (react depth)).1.applyAll (react depth')).2 = 0 ∧ ∀ key,
      ((c.applyAll (react depth)).1.applyAll (react depth')).1.world.member? key =
        (c.applyAll (react depth)).1.world.member? key

structure RevertsAll (c : Container α) : Prop where
  settled : c.revertAll.hasPending = false
  clean {e : Entry} {m : Member α} (he : e ∈ c.entries)
    (hm : c.revertAll.world.member? e.key = some m) : m.body.staging = {}
  kept {key : Nat} {m : Member α} (hm : c.world.member? key = some m) :
    ∃ b, c.revertAll.world.member? key = some { m with body := b } ∧ b.cell = m.body.cell ∧
      b.history = m.body.history ∧ b.source? = m.body.source? ∧ b.isChanged = m.body.isChanged
  untold : c.revertAll.world.log = c.world.log
  nothing (run : Runner α) : (c.revertAll.applyAll run).2 = 0

section Bulk

variable {β : Type} {t : Tally α β} {c : Container α} {run : Runner α}

theorem hasPending_eq_false : c.hasPending = false ↔ ∀ e ∈ c.entries, c.world.waits e = false := by
  unfold hasPending
  rw [List.any_eq_false]
  simp only [Bool.not_eq_true]
  rfl

/-- Where nothing waits, an apply of all members does nothing and tells nobody. -/
theorem applyAll_of_settled (settled : c.hasPending = false) (run : Runner α) :
    c.applyAll run = ({ c with world := emitApplied run c c.world }, 0) := by
  unfold applyAll
  rw [sweep_of_settled (hasPending_eq_false.mp settled)]

variable [PartialEquivBEq α]

/-- The events of an apply of all members are those of its members, in order, and then the
watchers'. -/
theorem Calm.applyAll (calm : c.Calm t) (h : c.Sound) (runs : Gentle t run) :
    Rests t (t.seen (c.entries.flatMap c.world.bulletins ++ c.closing))
      (c.world.mapBodies Body.applied c.entries) (c.applyAll run).1.world ∧
    (c.applyAll run).2 = c.entries.countP c.world.waits := by
  obtain ⟨swept, count⟩ := calm.members.sweep_apply runs h.keys
  have calm' := swept.calm calm.members.mapBodies
  refine ⟨swept.append (rests_emitApplied calm' runs ?_), count⟩
  exact fun watcher hw s hs => swept.mild ((calm.watchers watcher hw s hs).mapBodies _)

theorem Calm.applyAll_entry (calm : c.Calm t) (h : c.Sound) (runs : Gentle t run) {e : Entry}
    (he : e ∈ c.entries) : (c.applyAll run).1.world.member? e.key =
      (c.world.member? e.key).map fun m => { m with body := m.body.applied } :=
  ((calm.applyAll h runs).1.member? _).trans (c.world.member?_mapMembers_of_mem _ h.keys he)

theorem Calm.applyAll_other (calm : c.Calm t) (h : c.Sound) (runs : Gentle t run) {key : Nat}
    (absent : key ∉ c.entries.map Entry.key) :
    (c.applyAll run).1.world.member? key = c.world.member? key :=
  ((calm.applyAll h runs).1.member? _).trans (c.world.member?_mapMembers_of_notMem _ absent)

theorem Calm.applyAll_calm (calm : c.Calm t) (h : c.Sound) (runs : Gentle t run) :
    (c.applyAll run).1.Calm t where
  members := (calm.applyAll h runs).1.calm calm.members.mapBodies
  watchers watcher hw s hs :=
    (calm.applyAll h runs).1.mild ((calm.watchers watcher hw s hs).mapBodies _)

/-- As nobody writes meanwhile, what was settled in its turn is settled at the end. -/
theorem Calm.applyAll_settled (calm : c.Calm t) (h : c.Sound) (runs : Gentle t run) :
    (c.applyAll run).1.hasPending = false := by
  rw [hasPending_eq_false]
  intro e (he : e ∈ c.entries)
  unfold waits
  rw [calm.applyAll_entry h runs he]
  cases c.world.member? e.key with
  | none => rfl
  | some m => exact m.body.apply_settles

theorem Sound.appliesAll (h : c.Sound) (calm : c.Calm t) (depth : Nat) : c.AppliesAll t depth := by
  have runs := gentle_react t depth
  obtain ⟨rests, count⟩ := calm.applyAll h runs
  have settled := calm.applyAll_settled h runs
  refine ⟨count, ?_, ?_, ?_, settled, ?_⟩
  · intro e m v he hm staged
    rcases m.body.apply_cases with ⟨none, -⟩ | ⟨v', b', staged', commits, applied⟩
    · cases none.symm.trans staged
    · cases staged'.symm.trans staged
      refine ⟨b', commits, ?_⟩
      rw [calm.applyAll_entry h runs he, hm, Option.map_some, Body.applied, applied]
  · intro key settled
    by_cases mem : key ∈ c.entries.map Entry.key
    · obtain ⟨e, he, rfl⟩ := List.mem_map.mp mem
      have none := settled e he rfl
      unfold waits at none
      rw [calm.applyAll_entry h runs he]
      cases hm : c.world.member? e.key with
      | none => rfl
      | some m =>
        rw [hm] at none
        rw [Option.map_some, Body.applied, Body.apply_of_settled none]
    · exact calm.applyAll_other h runs mem
  · have before : (c.world.mapBodies Body.applied c.entries).tally t = c.world.tally t := by
      simp only [tally, mapBodies, log_mapMembers]
    rw [rests.tally, before]
  · intro depth'
    rw [applyAll_of_settled settled]
    have calm' := calm.applyAll_calm h runs
    exact ⟨rfl, (rests_emitApplied calm'.members (gentle_react t depth') calm'.watchers).member?⟩

end Bulk

theorem Sound.revertsAll {c : Container α} (h : c.Sound) : c.RevertsAll := by
  have clean {e : Entry} {m : Member α} (he : e ∈ c.entries)
      (hm : c.revertAll.world.member? e.key = some m) : m.body.staging = {} := by
    rw [h.revertAll_entry he, Option.map_eq_some_iff] at hm
    obtain ⟨n, -, rfl⟩ := hm
    cases n.body <;> rfl
  have settled : c.revertAll.hasPending = false := by
    rw [hasPending_eq_false]
    intro e (he : e ∈ c.entries)
    unfold waits
    cases hm : c.revertAll.world.member? e.key with
    | none => rfl
    | some m =>
      rw [Option.any_some, Body.hasPending_eq, clean he hm]
      rfl
  refine ⟨settled, clean, ?_, c.world.log_mapMembers _ _, ?_⟩
  · intro key m hm
    by_cases mem : key ∈ c.entries.map Entry.key
    · obtain ⟨e, he, rfl⟩ := List.mem_map.mp mem
      refine ⟨m.body.revert, by rw [h.revertAll_entry he, hm, Option.map_some], ?_⟩
      cases m.body <;> exact ⟨rfl, rfl, rfl, rfl⟩
    · exact ⟨m.body, (c.world.member?_mapMembers_of_notMem _ mem).trans hm, rfl, rfl, rfl, rfl⟩
  · intro run
    rw [applyAll_of_settled settled]

/-- **Bulk apply and revert.** In a container whose listeners and setters only look, an apply of all
members commits each staged value once, leaves nothing to apply, and tells whoever watches, unless the
signal is blocked. A revert drops all that is staged and touches nothing else. -/
theorem bulk_apply_revert [PartialEquivBEq α] {c : Container α} (reached : c.Reached) :
    (∀ {β : Type} (t : Tally α β) (depth : Nat), c.Calm t → c.AppliesAll t depth) ∧ c.RevertsAll :=
  ⟨fun _ depth calm => reached.sound.appliesAll calm depth, reached.sound.revertsAll⟩

def desk : Container Nat :=
  let recipe (kind : Kind) : Recipe Nat :=
    { kind, linked := true, type := ⟨"u64", fun _ n => toString n, String.toNat?⟩, initial := 0,
      outside := 0 }
  [.add "count" (recipe .full), .add "note" (recipe .config),
    .command "count" (.listen "ear" .pair [.command 1 .snapshot]),
    .command "count" (.edit (.stage 5)), .watch .applied "bell" none].foldl
      (fun c a => (c.perform (react 0) a).1) {}

theorem desk_reached : desk.Reached := (Reached.empty _).performAll 0 _

theorem desk_calm : desk.Calm .full := by
  have mild (s : Nat) : desk.world.Mild .full s := by
    intro text here a ha
    have ear : text = (0, [.command 1 .snapshot]) :=
      List.eq_of_mem_singleton (List.mem_of_getElem? here)
    subst ear
    obtain rfl := List.eq_of_mem_singleton ha
    exact ⟨rfl, nofun⟩
  exact ⟨fun _ _ _ s _ => mild s, fun _ _ s _ => mild s⟩

theorem applyAll_settles_the_one_pending :
    (desk.applyAll (react 2)).2 = 1 ∧ desk.AppliesAll .full 2 ∧ desk.RevertsAll :=
  have bulk := bulk_apply_revert desk_reached
  ⟨by decide, bulk.1 .full 2 desk_calm, bulk.2⟩

/-- Two values without a listener. The setter of the second writes to the first one, and the signal for
those who watch is blocked. -/
def meddled : Container Nat :=
  let recipe : Recipe Nat :=
    { kind := .full, type := ⟨"u64", fun _ n => toString n, String.toNat?⟩, initial := 0, outside := 0 }
  [.add "count" recipe, .add "total" recipe, .command "count" (.edit (.stage 0)),
    .command "count" (.takeHandle "h"), .command "total" (.bindSetter [.poke ⟨"h", 3⟩]),
    .command "total" (.edit (.stage 5)), .watch .applied "bell" none,
    .block .applied true].foldl (fun c a => (c.perform (react 0) a).1) {}

/-- Nobody listens, and yet applying all members changes one that waited for nothing and leaves it waiting;
the watcher is not told. -/
theorem setter_changes_settled_member :
    let after := (meddled.applyAll (react 3)).1
    meddled.Reached ∧ (∀ m ∈ meddled.world.slots.filterMap id, m.body.listeners.slots = []) ∧
      meddled.applied.slots.map (fun watcher => (watcher.name, watcher.script)) = [("bell", none)] ∧
      (meddled.member? "count").map (fun m => (m.body.value, m.body.hasPending)) = some (0, false) ∧
      (after.member? "count").map (fun m => (m.body.value, m.body.hasPending)) = some (3, true) ∧
      after.hasPending = true ∧ (after.applyAll (react 3)).2 = 1 ∧
      (after.world.log.any fun | .applied _ => true | _ => false) = false := by
  have reached : meddled.Reached := (Reached.empty _).performAll 0 _
  exact ⟨reached, by decide, by decide, by decide, by decide, by decide, by decide, by decide⟩

end Container

end BoundValues
