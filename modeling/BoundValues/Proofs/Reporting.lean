import BoundValues.Proofs.Marks
import BoundValues.Proofs.Passes

namespace BoundValues

variable {α : Type}

theorem flatMap_ite {β γ : Type} (q : β → Bool) (f : β → List γ) (xs : List β) :
    xs.flatMap (fun x => if q x then f x else []) = (xs.filter q).flatMap f := by
  induction xs with
  | nil => rfl
  | cons x xs ih =>
    rw [List.flatMap_cons, List.filter_cons, ih]
    split <;> rfl

/-- Where names are not used twice, a name tells whether its bearer was kept. -/
theorem mem_map_filter {β γ : Type} {f : β → γ} {q : β → Bool} {xs : List β}
    (once : (xs.map f).Nodup) {x : β} (hx : x ∈ xs) : f x ∈ (xs.filter q).map f ↔ q x = true := by
  constructor
  · intro kept
    obtain ⟨y, hy, same⟩ := List.mem_map.mp kept
    obtain ⟨mem, hq⟩ := List.mem_filter.mp hy
    exact List.inj_on_of_nodup_map once mem hx same ▸ hq
  · exact fun hq => List.mem_map.mpr ⟨x, List.mem_filter.mpr ⟨hx, hq⟩, rfl⟩

namespace World

theorem Quiet.mapMembers {w : World α} {g : Entry → Member α → Member α} (quiet : w.Quiet)
    (kept : ∀ e m, (g e m).widget = m.widget)
    (es : List Entry) : (w.mapMembers g es).Quiet := by
  induction es generalizing w with
  | nil => exact quiet
  | cons e es ih => exact ih (quiet.modify (kept e) e.key)

end World

def Watcher.signs (watcher : Watcher) (id : String) : List Sign :=
  if watcher.only.all (· == id) then
    match watcher.only with
    | some _ => [.memberChanged watcher.name]
    | none => [.valueChanged watcher.name id]
  else []

theorem Watcher.event_sign {watcher : Watcher} {id : String}
    (h : watcher.only.all (· == id) = true) :
    (Container.Watcher.event watcher id : Event α).sign?.toList = watcher.signs id := by
  unfold Watcher.signs Container.Watcher.event
  rw [if_pos h]
  cases watcher.only <;> rfl

def Sign.told : Sign → Bool
  | .drew _ => false
  | .valueChanged .. | .memberChanged _ => true

def Sign.reaches (listener : String) : Sign → Bool
  | .drew _ => false
  | .valueChanged name _ | .memberChanged name => name == listener

theorem Watcher.signs_told (watcher : Watcher) (id : String) :
    (watcher.signs id).filter Sign.told = watcher.signs id := by
  unfold Watcher.signs
  split
  · cases watcher.only <;> rfl
  · rfl

theorem Watcher.flatMap_signs_all {watcher : Watcher} (all : watcher.only = none)
    (ids : List String) : ids.flatMap watcher.signs = ids.map (.valueChanged watcher.name) := by
  have one : watcher.signs = fun id => [.valueChanged watcher.name id] := by
    funext id
    simp [Watcher.signs, all]
  rw [one, ← List.map_eq_flatMap]

/-- Who watches one member is told once at most, as no id comes twice. -/
theorem Watcher.flatMap_signs_only {watcher : Watcher} {id : String} (only : watcher.only = some id)
    {ids : List String} (once : ids.Nodup) :
    ids.flatMap watcher.signs = if id ∈ ids then [.memberChanged watcher.name] else [] := by
  have one : watcher.signs = fun other =>
      if other == id then [.memberChanged watcher.name] else [] := by
    funext other
    rw [Watcher.signs, only, Option.all_some, BEq.comm]
  rw [one, flatMap_ite, List.filter_beq, once.count]
  split <;> rfl

namespace Container

open World

def announcement (c : Container α) (id : String) : List Sign :=
  c.valueChanged.slots.flatMap fun watcher => watcher.signs id

def emission (c : Container α) (id : String) : List Sign :=
  if c.valueChanged.blocked then [] else c.announcement id

theorem emission_of_unblocked {c : Container α} (unblocked : c.valueChanged.blocked = false) :
    c.emission = c.announcement := by
  funext id
  rw [emission, if_neg (by simp [unblocked])]

def shows (c : Container α) (m : Member α) : Bool :=
  m.body.visibility.shown c.options.showAdvanced

theorem shows_eq_false {c : Container α} {m : Member α} : c.shows m = false ↔
    m.body.visibility.visible = false ∨
      m.body.visibility.advanced = true ∧ c.options.showAdvanced = false := by
  simp only [shows, Visibility.shown, Bool.and_eq_false_iff, Bool.or_eq_false_iff, Bool.not_eq_false']

def shown? (c : Container α) (w : World α) (e : Entry) : Option (Member α) :=
  (w.member? e.key).filter c.shows

def drawing (c : Container α) (w : World α) (e : Entry) : List Sign :=
  (c.shown? w e).elim [] (drawSigns e.key)

/-- The signs that a pass gives which reports some ids. In immediate mode a member is told of before
the next one is drawn, otherwise all are told of after the last draw. -/
def passSigns (c : Container α) (ids : List String) : List Sign :=
  if c.options.immediate then
    c.entries.flatMap fun e =>
      c.drawing c.world e ++ if e.id ∈ ids then c.announcement e.id else []
  else c.entries.flatMap (c.drawing c.world) ++ ids.flatMap c.announcement

def readied (c : Container α) (m : Member α) : Member α :=
  { m with body := prepare c.options.globalMode m.body }

theorem readied_fresh (c : Container α) (m : Member α) : (c.readied m).body.isChanged = false := by
  unfold readied prepare
  cases c.options.globalMode <;> cases m.body <;> rfl

variable {c : Container α} {run : Runner α}

theorem idles_tell {w : World α} (quiet : w.Quiet) (runs : Harmless run) (id : String)
    (watcher : Watcher) : Idles (watcher.signs id) w (tell run id watcher w) := by
  unfold tell
  split
  · rename_i told
    exact quiet.record_runScript runs (Watcher.event_sign told) watcher.script
  · rename_i untold
    rw [Watcher.signs, if_neg untold]
    exact .refl w

/-- Each watcher is told in turn. -/
theorem idles_emitChanged {w : World α} (c : Container α) (quiet : w.Quiet) (runs : Harmless run)
    (id : String) : Idles (c.emission id) w (emitChanged run c id w) := by
  unfold emission emitChanged Signal.emit Signal.snapshot
  split
  · exact .refl w
  · exact idles_foldl (fun w watcher _ quiet => idles_tell quiet runs id watcher) quiet

theorem Sound.mem_reported (h : c.Sound) {q : Entry → Bool} {e : Entry} (he : e ∈ c.entries) :
    e.id ∈ (c.entries.filter q).map Entry.id ↔ q e = true :=
  mem_map_filter h.registry.ids_nodup he

/-- The pictures that widgets are shown tell nobody of a change. -/
theorem filter_drawing {p : Sign → Bool} (blind : ∀ key, p (.drew key) = false) (w : World α)
    (e : Entry) : (c.drawing w e).filter p = [] := by
  unfold drawing
  cases c.shown? w e with
  | none => rfl
  | some m =>
    simp only [Option.elim_some, drawSigns]
    split <;> simp [blind]

/-- What is told in a pass is told of the reported ids in their order, in either mode. -/
theorem Sound.filter_passSigns (h : c.Sound) {q : Entry → Bool} {p : Sign → Bool}
    (blind : ∀ key, p (.drew key) = false) :
    (c.passSigns ((c.entries.filter q).map Entry.id)).filter p =
      ((c.entries.filter q).map Entry.id).flatMap fun id => (c.announcement id).filter p := by
  unfold passSigns
  split
  · have turns : c.entries.flatMap (fun e => (c.drawing c.world e ++
        if e.id ∈ (c.entries.filter q).map Entry.id then c.announcement e.id else []).filter p) =
        c.entries.flatMap fun e => if q e then (c.announcement e.id).filter p else [] := by
      apply List.flatMap_congr
      intro e he
      rw [List.filter_append, filter_drawing blind, List.nil_append]
      by_cases hq : q e = true
      · rw [if_pos hq, if_pos ((h.mem_reported he).mpr hq)]
      · rw [if_neg hq, if_neg fun reported => hq ((h.mem_reported he).mp reported)]
        rfl
    rw [List.filter_flatMap, turns, flatMap_ite, List.flatMap_map]
  · rw [List.filter_append, List.filter_flatMap, List.filter_flatMap]
    simp only [filter_drawing blind, List.flatMap_eq_nil_iff.mpr fun _ _ => rfl, List.nil_append]

theorem announcement_told (c : Container α) (id : String) :
    (c.announcement id).filter Sign.told = c.announcement id := by
  unfold announcement
  rw [List.filter_flatMap]
  exact List.flatMap_congr fun watcher _ => watcher.signs_told id

def Alone (c : Container α) (watcher : Watcher) : Prop :=
  (c.valueChanged.slots.filter fun w => w.name == watcher.name) = [watcher]

theorem announcement_filter {watcher : Watcher} (alone : c.Alone watcher)
    (id : String) : (c.announcement id).filter (Sign.reaches watcher.name) = watcher.signs id := by
  have own (w : Watcher) : (w.signs id).filter (Sign.reaches watcher.name) =
      if w.name == watcher.name then w.signs id else [] := by
    unfold Watcher.signs
    split
    · cases w.only <;> cases hn : w.name == watcher.name <;> simp [Sign.reaches, hn]
    · simp
  unfold announcement
  rw [List.filter_flatMap]
  simp only [own]
  rw [flatMap_ite, alone, List.flatMap_singleton]

variable [BEq α]

/-- What its turn in a pass makes of a member that is shown, and whether its draw tells of a change. -/
def turn (c : Container α) (e : Entry) (m : Member α) : Member α × Bool :=
  let (drawn, told) := (c.readied m).redrawn (drawLabel e m)
  (if told && c.options.immediate then { drawn with body := drawn.body.apply.state } else drawn,
    told)

theorem widget_of_redrawn {m n : Member α} {label : String} {told : Bool}
    (draws : (c.readied m).redrawn label = (n, told)) : n.widget = m.widget := by
  have kept := Member.redrawn_widget label (c.readied m)
  rw [draws] at kept
  exact kept

theorem turn_widget (c : Container α) (e : Entry) (m : Member α) :
    (c.turn e m).1.widget = m.widget := by
  unfold turn
  cases draws : (c.readied m).redrawn (drawLabel e m) with | mk n told
  have kept : n.widget = m.widget := widget_of_redrawn draws
  dsimp only
  split <;> exact kept

/-- A member after its turn in a pass, which it has when it is shown. -/
def turned (c : Container α) (e : Entry) (m : Member α) : Member α :=
  if c.shows m then (c.turn e m).1 else m

theorem turned_widget (c : Container α) (e : Entry) (m : Member α) :
    (c.turned e m).widget = m.widget := by
  unfold turned
  split
  · exact c.turn_widget e m
  · rfl

theorem turned_of_unshown {w : World α} {e : Entry} (unshown : c.shown? w e = none) :
    (w.member? e.key).map (c.turned e) = w.member? e.key := by
  cases hm : w.member? e.key with
  | none => rfl
  | some m =>
    have hidden : c.shows m = false := by simpa [shown?, hm, Option.filter_some] using unshown
    rw [Option.map_some, turned, if_neg (by simp [hidden])]

def tells (c : Container α) (w : World α) (e : Entry) : Bool :=
  (c.shown? w e).any fun m => (c.turn e m).2

def turnSigns (c : Container α) (w : World α) (e : Entry) : List Sign :=
  c.drawing w e ++ if c.tells w e && c.options.immediate then c.emission e.id else []

/-- In `v` the member of an entry was drawn, told of a change and was applied, and nobody else was told
of it since `w`. -/
structure Applied (c : Container α) (e : Entry) (w v : World α) (m n : Member α) : Prop where
  before : w.member? e.key = some m
  drawn : (c.readied m).redrawn (drawLabel e m) = (n, true)
  after : v.member? e.key = some { n with body := n.body.apply.state }
  settled : n.body.apply.state.hasPending = false
  signs : v.signs = w.signs ++ drawSigns e.key m

section Turn

variable {d : Drawn α} {w : World α} {e : Entry} {m : Member α}

/-- The draw of a member that was made ready for it. -/
theorem idles_readied (quiet : w.Quiet) (runs : Harmless run) (hm : w.member? e.key = some m)
    {drawn : World α × Bool} (hd : (w.mapBody e.key (prepare c.options.globalMode)).draw run e.key
      (drawLabel e m) = drawn) :
    Idles (drawSigns e.key m)
        (w.setMember e.key ((c.readied m).redrawn (drawLabel e m)).1) drawn.1 ∧
      drawn.2 = ((c.readied m).redrawn (drawLabel e m)).2 := by
  subst hd
  have kept : (c.readied m).widget = m.widget := rfl
  obtain ⟨drawn, reply⟩ :=
    (quiet.setMember hm kept).draw runs (member?_setMember_self hm _) (drawLabel e m)
  rw [setMember_setMember] at drawn
  rw [mapBody_of_member? hm]
  exact ⟨drawn, reply⟩

/-- The draw of a member that was made ready for it, and then the staged edit. -/
theorem idles_applied (quiet : w.Quiet) (runs : Harmless run) (hm : w.member? e.key = some m)
    {drawn : World α × Bool} (hd : (w.mapBody e.key (prepare c.options.globalMode)).draw run e.key
      (drawLabel e m) = drawn) {n : Member α} {told : Bool}
    (draws : (c.readied m).redrawn (drawLabel e m) = (n, told)) :
    Idles (drawSigns e.key m) (w.setMember e.key { n with body := n.body.apply.state })
      (drawn.1.apply run e.key).1 := by
  obtain ⟨drew, -⟩ := idles_readied quiet runs hm hd
  have kept : n.widget = m.widget := widget_of_redrawn draws
  rw [draws] at drew
  have here : drawn.1.member? e.key = some n :=
    (drew.member? _).trans (member?_setMember_self hm _)
  have moved := drew.setMember e.key { n with body := n.body.apply.state }
  rw [setMember_setMember] at moved
  have quiet' := drew.quiet (quiet.setMember hm kept)
  simpa only [List.append_nil] using moved.trans (quiet'.apply runs here)

theorem drawEntry_shown (hm : d.world.member? e.key = some m) (shown : c.shows m = true) :
    drawEntry run c d e = drawShown run c e m d := by
  unfold drawEntry
  rw [hm]
  exact if_pos shown

/-- The turn of a member that is shown. The mark that is read at its end agrees with the draw. -/
theorem idles_drawShown [PartialEquivBEq α] (quiet : d.world.Quiet) (runs : Harmless run)
    (hm : d.world.member? e.key = some m) :
    Idles (drawSigns e.key m ++
        if (c.turn e m).2 && c.options.immediate then c.emission e.id else [])
      (d.world.setMember e.key (c.turn e m).1) (drawShown run c e m d).world ∧
    (drawShown run c e m d).changed = d.changed ++ if (c.turn e m).2 then [e.id] else [] := by
  have fresh := c.readied_fresh m
  have marked := Member.redrawn_marks (drawLabel e m) fresh
  have applied := Member.redrawn_apply_marks (drawLabel e m) fresh
  unfold drawShown turn
  dsimp only
  generalize hd : (d.world.mapBody e.key (prepare c.options.globalMode)).draw run e.key
    (drawLabel e m) = drawn
  obtain ⟨drew, reply⟩ := idles_readied quiet runs hm hd
  cases draws : (c.readied m).redrawn (drawLabel e m) with | mk n told
  have put := idles_applied quiet runs hm hd draws
  have kept : n.widget = m.widget := widget_of_redrawn draws
  rw [draws] at drew reply marked applied
  dsimp only at drew reply marked applied ⊢
  rw [reply]
  by_cases at_once : (told && c.options.immediate) = true
  · have changed : told = true := (Bool.and_eq_true_iff.mp at_once).1
    have quiet' := put.quiet (quiet.setMember hm kept)
    have emitted := put.trans (idles_emitChanged c quiet' runs e.id)
    have there := (emitted.member? _).trans (member?_setMember_self hm _)
    simp only [if_pos at_once, there, Option.any_some, applied changed, if_true, if_pos changed]
    exact ⟨emitted, trivial⟩
  · have here := (drew.member? _).trans (member?_setMember_self hm _)
    simp only [if_neg at_once, here, Option.any_some, marked, List.append_nil]
    exact ⟨drew, by split <;> simp⟩

/-- In immediate mode, the watchers are told of a member once its edit is applied, and the turn ends
with that. -/
theorem drawShown_applied (quiet : d.world.Quiet) (runs : Harmless run)
    (immediate : c.options.immediate = true) (hm : d.world.member? e.key = some m)
    (told : (c.turn e m).2 = true) :
    ∃ v n, c.Applied e d.world v m n ∧ (drawShown run c e m d).world = emitChanged run c e.id v := by
  generalize hd : (d.world.mapBody e.key (prepare c.options.globalMode)).draw run e.key
    (drawLabel e m) = drawn
  obtain ⟨drew, reply⟩ := idles_readied quiet runs hm hd
  have draws : (c.readied m).redrawn (drawLabel e m) =
      (((c.readied m).redrawn (drawLabel e m)).1, true) := by
    rw [← told]
    rfl
  have put := idles_applied quiet runs hm hd draws
  refine ⟨(drawn.1.apply run e.key).1, _, ⟨hm, draws, ?_, Body.apply_settles _, put.signs⟩, ?_⟩
  · exact (put.member? _).trans (member?_setMember_self hm _)
  · have reported : drawn.2 = true := reply.trans told
    unfold drawShown
    simp only [hd, reported, immediate, Bool.and_self, if_true]

end Turn

/-- What a pass over some entries comes to: each member that is shown has its turn, and the others are
left alone. -/
structure Passes (c : Container α) (es : List Entry) (d d' : Drawn α) : Prop where
  idles : Idles (es.flatMap (c.turnSigns d.world)) (d.world.mapMembers c.turned es) d'.world
  changed : d'.changed = d.changed ++ (es.filter (c.tells d.world)).map Entry.id

section Pass

variable {d d' d'' : Drawn α} {e : Entry} {es : List Entry}

theorem Passes.quiet (passes : c.Passes es d d') (quiet : d.world.Quiet) : d'.world.Quiet :=
  passes.idles.quiet (quiet.mapMembers c.turned_widget es)

/-- The signs of a pass are those of its turns. -/
theorem Passes.signs (passes : c.Passes es d d') :
    d'.world.signs = d.world.signs ++ es.flatMap (c.turnSigns d.world) := by
  rw [passes.idles.signs]
  simp only [World.signs, log_mapMembers]

theorem Passes.others (passes : c.Passes es d d') {key : Nat}
    (unshown : ∀ e ∈ es, e.key = key → c.shown? d.world e = none) :
    d'.world.member? key = d.world.member? key := by
  refine (passes.idles.member? key).trans (d.world.member?_mapMembers_of_fixed c.turned ?_)
  rintro e he rfl
  exact turned_of_unshown (unshown e he rfl)

theorem drawEntry_unshown (hs : c.shown? d.world e = none) : drawEntry run c d e = d := by
  unfold drawEntry
  split
  · rename_i m hm
    have hidden : c.shows m = false := by simpa [shown?, hm, Option.filter_some] using hs
    rw [if_neg (by simpa [shows] using hidden)]
  · rfl

theorem passes_entry [PartialEquivBEq α] (c : Container α) (quiet : d.world.Quiet)
    (runs : Harmless run) (e : Entry) : c.Passes [e] d (drawEntry run c d e) := by
  cases hs : c.shown? d.world e with
  | none =>
    have same : d.world.mapMembers c.turned [e] = d.world := modify_of_fixed (turned_of_unshown hs)
    rw [drawEntry_unshown hs]
    refine ⟨?_, by simp [tells, hs]⟩
    rw [same]
    simpa [turnSigns, drawing, tells, hs] using Rests.refl d.world
  | some m =>
    obtain ⟨hm, shown⟩ := Option.filter_eq_some_iff.mp hs
    obtain ⟨idles, changed⟩ := idles_drawShown quiet runs hm
    have turns : d.world.mapMembers c.turned [e] = d.world.setMember e.key (c.turn e m).1 := by
      refine (modify_of_member? hm _).trans ?_
      rw [turned, if_pos shown]
    rw [drawEntry_shown hm shown]
    refine ⟨?_, ?_⟩
    · rw [turns]
      simpa [turnSigns, drawing, tells, hs] using idles
    · rw [changed]
      cases ht : (c.turn e m).2 <;> simp [tells, hs, ht]

/-- The turn of one member makes no difference to another. -/
theorem Passes.shown? (first : c.Passes [e] d d') {e' : Entry} (apart : e.key ≠ e'.key) :
    c.shown? d'.world e' = c.shown? d.world e' := by
  unfold Container.shown?
  rw [first.others fun f hf same => absurd same (List.mem_singleton.mp hf ▸ apart)]

theorem Passes.tells (first : c.Passes [e] d d') {e' : Entry} (apart : e.key ≠ e'.key) :
    c.tells d'.world e' = c.tells d.world e' := by
  unfold Container.tells
  rw [first.shown? apart]

theorem Passes.turnSigns (first : c.Passes [e] d d') {e' : Entry} (apart : e.key ≠ e'.key) :
    c.turnSigns d'.world e' = c.turnSigns d.world e' := by
  unfold Container.turnSigns Container.drawing
  rw [first.shown? apart, first.tells apart]

/-- The first turn and the rest of the pass make one pass. -/
theorem Passes.cons (first : c.Passes [e] d d') (rest : c.Passes es d' d'')
    (apart : ∀ e' ∈ es, e.key ≠ e'.key) : c.Passes (e :: es) d d'' := by
  have tells := List.filter_congr fun e' he' => first.tells (apart e' he')
  have signs := List.flatMap_congr fun e' he' => first.turnSigns (apart e' he')
  refine ⟨?_, ?_⟩
  · have both := (first.idles.mapMembers c.turned es).trans rest.idles
    rwa [signs, ← List.flatMap_append] at both
  · rw [rest.changed, first.changed, tells, List.append_assoc, ← List.map_append,
      ← List.filter_append, List.singleton_append]

theorem keys_apart (keys : ((e :: es).map Entry.key).Nodup) : ∀ e' ∈ es, e.key ≠ e'.key := by
  rw [List.map_cons, List.nodup_cons] at keys
  exact fun e' he' same => keys.1 (List.mem_map.mpr ⟨e', he', same.symm⟩)

/-- A pass over entries with different keys. -/
theorem passes_entries [PartialEquivBEq α] (quiet : d.world.Quiet) (runs : Harmless run)
    (keys : (es.map Entry.key).Nodup) :
    c.Passes es d (es.foldl (drawEntry run c) d) := by
  induction es generalizing d with
  | nil => exact ⟨.refl d.world, by simp⟩
  | cons e es ih =>
    have first := passes_entry c quiet runs e
    exact first.cons (ih (first.quiet quiet) keys.tail) (keys_apart keys)

/-- The ids of the members that are shown and whose own draws tell of a change, each drawn when its
turn comes. -/
def reporting (run : Runner α) (c : Container α) : List Entry → Drawn α → List String
  | [], _ => []
  | e :: es, d =>
    let told := (c.shown? d.world e).any fun m =>
      ((d.world.mapBody e.key (prepare c.options.globalMode)).draw run e.key (drawLabel e m)).2
    (if told then [e.id] else []) ++ reporting run c es (drawEntry run c d e)

/-- What each draw tells when its turn comes is what it would have told at the start. -/
theorem reporting_eq [PartialEquivBEq α] (quiet : d.world.Quiet) (runs : Harmless run)
    (keys : (es.map Entry.key).Nodup) :
    reporting run c es d = (es.filter (c.tells d.world)).map Entry.id := by
  induction es generalizing d with
  | nil => rfl
  | cons e es ih =>
    have first := passes_entry c quiet runs e
    have apart := keys_apart keys
    have told : ((c.shown? d.world e).any fun m =>
        ((d.world.mapBody e.key (prepare c.options.globalMode)).draw run e.key
          (drawLabel e m)).2) = c.tells d.world e := by
      unfold Container.tells
      cases hs : c.shown? d.world e with
      | none => rfl
      | some m =>
        have hm := (Option.filter_eq_some_iff.mp hs).1
        exact (idles_readied quiet runs hm rfl).2
    have rest : es.filter (c.tells (drawEntry run c d e).world) = es.filter (c.tells d.world) :=
      List.filter_congr fun e' he' => first.tells (apart e' he')
    rw [reporting, told, ih (first.quiet quiet) keys.tail, rest, List.filter_cons]
    split <;> rfl

end Pass

section Report

/-- What the pass of a visible container reports, whom it tells, and what it leaves alone. -/
structure Reports (run : Runner α) (c : Container α) : Prop where
  reporting : (c.drawAll run).2 = reporting run c c.entries { world := c.world }
  ordered : (c.drawAll run).2.Sublist c.ids
  once : (c.drawAll run).2.Nodup
  signs : (c.drawAll run).1.world.signs = c.world.signs ++ c.passSigns (c.drawAll run).2
  told : (c.passSigns (c.drawAll run).2).filter Sign.told =
    (c.drawAll run).2.flatMap c.announcement
  everyone {watcher : Watcher} (alone : c.Alone watcher) (all : watcher.only = none) :
    (c.passSigns (c.drawAll run).2).filter (Sign.reaches watcher.name) =
      (c.drawAll run).2.map (.valueChanged watcher.name)
  single {watcher : Watcher} (alone : c.Alone watcher) {id : String}
      (only : watcher.only = some id) :
    (c.passSigns (c.drawAll run).2).filter (Sign.reaches watcher.name) =
      if id ∈ (c.drawAll run).2 then [.memberChanged watcher.name] else []
  applied (immediate : c.options.immediate = true) {pre post : List Entry} {e : Entry}
      (split : c.entries = pre ++ e :: post) (reported : e.id ∈ (c.drawAll run).2) :
    let before := pre.foldl (drawEntry run c) { world := c.world }
    ∃ v m n, c.Applied e before.world v m n ∧
      (drawEntry run c before e).world = emitChanged run c e.id v
  skipped {key : Nat} {m : Member α} (hm : c.world.member? key = some m)
    (hidden : m.body.visibility.visible = false ∨
      m.body.visibility.advanced = true ∧ c.options.showAdvanced = false) :
    (c.drawAll run).1.world.member? key = some m

section Whole

variable [PartialEquivBEq α] (h : c.Sound) (visible : c.options.visible = true)
  (quiet : c.world.Quiet) (runs : Harmless run) (unblocked : c.valueChanged.blocked = false)

include h quiet runs

theorem Sound.passes : c.Passes c.entries { world := c.world }
    (c.entries.foldl (drawEntry run c) { world := c.world }) :=
  passes_entries quiet runs h.keys

/-- The entry that is reported has its turn after others that make no difference to it. -/
theorem Sound.drawAll_applied (immediate : c.options.immediate = true) {pre post : List Entry}
    {e : Entry} (split : c.entries = pre ++ e :: post) (told : c.tells c.world e = true) :
    let before := pre.foldl (drawEntry run c) { world := c.world }
    ∃ v m n, c.Applied e before.world v m n ∧
      (drawEntry run c before e).world = emitChanged run c e.id v := by
  intro before
  have keys := h.keys
  rw [split, List.map_append, List.map_cons, List.nodup_append] at keys
  obtain ⟨preKeys, -, apart⟩ := keys
  have passes : c.Passes pre { world := c.world } before :=
    passes_entries quiet runs preKeys
  have same : before.world.member? e.key = c.world.member? e.key :=
    passes.others fun e' he' hk =>
      absurd hk (apart e'.key (List.mem_map_of_mem he') e.key List.mem_cons_self)
  obtain ⟨m, hs, turned⟩ : ∃ m, c.shown? c.world e = some m ∧ (c.turn e m).2 = true := by
    simpa [Container.tells, Option.any_eq_true] using told
  obtain ⟨hm, shown⟩ := Option.filter_eq_some_iff.mp hs
  have hm' : before.world.member? e.key = some m := same.trans hm
  obtain ⟨v, n, applied, emitted⟩ := drawShown_applied (passes.quiet quiet) runs immediate hm' turned
  exact ⟨v, m, n, applied, drawEntry_shown hm' shown ▸ emitted⟩

include visible

/-- A pass ends with the announcements that were put off. -/
theorem Sound.idles_drawAll :
    let d := c.entries.foldl (drawEntry run c) { world := c.world }
    (c.drawAll run).2 = d.changed ∧
      Idles (if c.options.immediate then [] else d.changed.flatMap c.emission) d.world
        (c.drawAll run).1.world := by
  intro d
  have passes := h.passes quiet runs
  unfold Container.drawAll
  rw [if_pos visible]
  refine ⟨rfl, ?_⟩
  dsimp only
  split
  · exact .refl d.world
  · exact idles_foldl (fun w id _ quiet => idles_emitChanged c quiet runs id)
      (passes.quiet quiet)

/-- The ids that are returned are those of the members whose turns tell of a change. -/
theorem Sound.drawAll_ids :
    (c.drawAll run).2 = (c.entries.filter (c.tells c.world)).map Entry.id := by
  obtain ⟨ids, -⟩ := h.idles_drawAll visible quiet runs
  rw [ids, (h.passes quiet runs).changed]
  rfl

/-- After a pass, the member of an entry is as its turn left it. -/
theorem Sound.drawAll_entry {e : Entry} (he : e ∈ c.entries) :
    (c.drawAll run).1.world.member? e.key = (c.world.member? e.key).map (c.turned e) := by
  obtain ⟨-, idles⟩ := h.idles_drawAll visible quiet runs
  refine (idles.member? e.key).trans (((h.passes quiet runs).idles.member? e.key).trans ?_)
  exact member?_mapMembers_of_mem _ c.turned h.keys he

theorem Sound.drawAll_quiet : (c.drawAll run).1.world.Quiet := by
  obtain ⟨-, idles⟩ := h.idles_drawAll visible quiet runs
  exact idles.quiet ((h.passes quiet runs).quiet quiet)

/-- Members that are not shown have no turn, and the announcements pass them by. -/
theorem Sound.drawAll_others {key : Nat}
    (unshown : ∀ e ∈ c.entries, e.key = key → c.shown? c.world e = none) :
    (c.drawAll run).1.world.member? key = c.world.member? key := by
  obtain ⟨-, idles⟩ := h.idles_drawAll visible quiet runs
  exact (idles.member? key).trans ((h.passes quiet runs).others unshown)

theorem Sound.drawAll_skipped {key : Nat} {m : Member α} (hm : c.world.member? key = some m)
    (hidden : c.shows m = false) : (c.drawAll run).1.world.member? key = some m := by
  rw [h.drawAll_others visible quiet runs, hm]
  intro e _ same
  simp [shown?, same, hm, hidden]

include unblocked

/-- All that a pass tells, in order. -/
theorem Sound.drawAll_signs :
    (c.drawAll run).1.world.signs = c.world.signs ++ c.passSigns (c.drawAll run).2 := by
  obtain ⟨ids, idles⟩ := h.idles_drawAll visible quiet runs
  rw [idles.signs, (h.passes quiet runs).signs, ← ids, List.append_assoc]
  congr 1
  unfold passSigns
  rw [← emission_of_unblocked unblocked]
  cases himm : c.options.immediate with
  | true =>
    simp only [if_true, List.append_nil]
    apply List.flatMap_congr
    intro e he
    have reported := h.mem_reported he (q := c.tells c.world)
    rw [← h.drawAll_ids visible quiet runs] at reported
    simp only [turnSigns, himm, Bool.and_true, reported]
  | false =>
    have turns (e : Entry) : c.turnSigns c.world e = c.drawing c.world e := by
      simp [turnSigns, himm]
    simp [List.flatMap_congr fun e _ => turns e]

theorem Sound.reports : c.Reports run := by
  have ids := h.drawAll_ids visible quiet runs
  have filtered {p : Sign → Bool} (blind : ∀ key, p (.drew key) = false) :
      (c.passSigns (c.drawAll run).2).filter p =
        (c.drawAll run).2.flatMap fun id => (c.announcement id).filter p := by
    rw [ids]
    exact h.filter_passSigns blind
  have listened {watcher : Watcher} (alone : c.Alone watcher) :
      (c.passSigns (c.drawAll run).2).filter (Sign.reaches watcher.name) =
        (c.drawAll run).2.flatMap watcher.signs := by
    rw [filtered fun _ => rfl]
    exact List.flatMap_congr fun id _ => announcement_filter alone id
  have ordered : (c.drawAll run).2.Sublist c.ids := ids ▸ List.filter_sublist.map Entry.id
  have once : (c.drawAll run).2.Nodup := h.registry.ids_nodup.sublist ordered
  refine ⟨?_, ordered, once, h.drawAll_signs visible quiet runs unblocked, ?_, ?_, ?_, ?_, ?_⟩
  · rw [ids]
    have start : ({ world := c.world } : Drawn α).world.Quiet := quiet
    exact (reporting_eq start runs h.keys).symm
  · rw [filtered fun _ => rfl]
    exact List.flatMap_congr fun id _ => announcement_told c id
  · intro watcher alone all
    rw [listened alone, watcher.flatMap_signs_all all]
  · intro watcher alone id only
    rw [listened alone, watcher.flatMap_signs_only only once]
  · intro immediate pre post e split reported
    rw [ids] at reported
    have he : e ∈ c.entries := by simp [split]
    exact h.drawAll_applied quiet runs immediate split ((h.mem_reported he).mp reported)
  · intro key m hm hidden
    exact h.drawAll_skipped visible quiet runs hm (shows_eq_false.mpr hidden)

end Whole

/-- The ids that a drawing pass returns are those that it emits, and those of the members whose draws
told of a change, whatever the kinds and the configuration of the members are. -/
theorem pass_reports [PartialEquivBEq α] (reached : c.Reached)
    (visible : c.options.visible = true) (unblocked : c.valueChanged.blocked = false)
    (quiet : c.world.Quiet) (depth : Nat) : c.Reports (react depth) :=
  reached.sound.reports visible quiet (harmless_react depth) unblocked

def counter (settings : List (Setting Nat)) : Recipe Nat where
  kind := .full
  type := ⟨"u64", fun _ n => toString n, String.toNat?⟩
  initial := 0
  outside := 0
  settings := .widget (fun _ picture => ⟨picture.value + 1, [], { changed := true }⟩) :: settings

/-- A panel in immediate mode with a counter that is shown and an advanced one that is not. Of the
two listeners one looks at the first counter whenever it is told of a change. -/
def panel : Container Nat :=
  let c : Container Nat := { options := { immediate := true } }
  let c := (c.perform (react 0) (.add "count" (counter []))).1
  let c := (c.perform (react 0) (.add "spare" (counter [.advanced]))).1
  let c := { c with world := (c.world.arm 0 "reader" [.command 1 .snapshot]).1 }
  (c.watch .valueChanged { name := "reader", script := some 0 }).watch .valueChanged
    { name := "guard", only := some "spare" }

/-- The other counter is advanced and has no turn. -/
theorem drawAll_reports_count : (panel.drawAll (react 3)).2 = ["count"] ∧ panel.Reports (react 3) := by
  have reached : panel.Reached :=
    ((((Reached.empty _).perform 0 _).perform 0 _).arm 0 "reader" _).watch .valueChanged _
      |>.watch .valueChanged _
  have quiet : panel.world.Quiet := by
    refine ⟨⟨?_, fun _ _ _ => trivial⟩, ?_⟩
    · intro s hs a ha
      have reader : s = ⟨0, "reader", [(.command 1 .snapshot, some 1)]⟩ := List.eq_of_mem_singleton hs
      subst reader
      obtain rfl := List.eq_of_mem_singleton ha
      exact .of_plain rfl rfl
    · intro key m widget _ _ n picture p _ k reaches
      cases reaches
  exact ⟨by decide, pass_reports reached rfl rfl quiet 3⟩

end Report

end Container

end BoundValues
