import BoundValues.Proofs.Reporting

namespace BoundValues

variable {α : Type}

def World.marked (w : World α) (e : Entry) : Bool :=
  (w.member? e.key).any fun m => m.body.isChanged

structure Turn (α : Type) where
  entry : Entry
  world : World α

namespace Turn

def id (t : Turn α) : String := t.entry.id

def marked (t : Turn α) : Bool := t.world.marked t.entry

end Turn

namespace Container

open World

variable [BEq α] {run : Runner α} {c : Container α}

/-- The turns of a pass over some entries. Whether an entry is shown is asked when its turn comes. -/
def turnsOf (run : Runner α) (c : Container α) : List Entry → Drawn α → List (Turn α)
  | [], _ => []
  | e :: es, d =>
    let d' := drawEntry run c d e
    (if (c.shown? d.world e).isSome then [⟨e, d'.world⟩] else []) ++ turnsOf run c es d'

def turns (run : Runner α) (c : Container α) : List (Turn α) :=
  turnsOf run c c.entries { world := c.world }

def passed (run : Runner α) (c : Container α) : World α :=
  (c.entries.foldl (drawEntry run c) { world := c.world }).world

/-- The ids of the members that were shown and are marked when the pass is over. -/
def markedAfter (run : Runner α) (c : Container α) : List String :=
  ((c.turns run).filter fun t => (c.passed run).marked t.entry).map Turn.id

section Turns

variable {d : Drawn α} {e : Entry} {es : List Entry}

/-- A turn adds its id when its member is marked at its end. -/
theorem drawEntry_changed (c : Container α) (d : Drawn α) (e : Entry) :
    (drawEntry run c d e).changed = d.changed ++
      if (c.shown? d.world e).isSome && (drawEntry run c d e).world.marked e then [e.id] else [] := by
  cases hs : c.shown? d.world e with
  | none =>
    rw [drawEntry_unshown hs]
    simp
  | some m =>
    obtain ⟨hm, shown⟩ := Option.filter_eq_some_iff.mp hs
    have read : (drawShown run c e m d).changed =
        if (drawShown run c e m d).world.marked e then d.changed ++ [e.id] else d.changed := rfl
    rw [drawEntry_shown hm shown, read, Option.isSome_some, Bool.true_and]
    split <;> simp

/-- Induction on the entries: what was reported before a turn does not matter to it. -/
theorem foldl_changed (c : Container α) (d : Drawn α) (es : List Entry) :
    (es.foldl (drawEntry run c) d).changed =
      d.changed ++ ((turnsOf run c es d).filter Turn.marked).map Turn.id := by
  induction es generalizing d with
  | nil => simp [turnsOf]
  | cons e es ih =>
    rw [List.foldl_cons, ih, drawEntry_changed, turnsOf, List.append_assoc, List.filter_append,
      List.map_append]
    congr 2
    cases (c.shown? d.world e).isSome with
    | false => rfl
    | true =>
      have mark : (Turn.mk e (drawEntry run c d e).world).marked =
          (drawEntry run c d e).world.marked e := rfl
      simp only [Bool.true_and, if_true, List.filter_singleton, mark]
      cases (drawEntry run c d e).world.marked e <;> rfl

/-- Each entry has one turn at most, in the order of the entries. -/
theorem turnsOf_entries (run : Runner α) (c : Container α) (d : Drawn α) (es : List Entry) :
    ((turnsOf run c es d).map Turn.entry).Sublist es := by
  induction es generalizing d with
  | nil => exact .refl _
  | cons e es ih =>
    unfold turnsOf
    dsimp only
    split
    · exact (ih _).cons_cons e
    · exact (ih _).cons e

/-- In a quiet world, no turn changes the mark of another member. -/
theorem turnsOf_marked [PartialEquivBEq α] (quiet : d.world.Quiet) (runs : Harmless run)
    (keys : (es.map Entry.key).Nodup) {t : Turn α} (ht : t ∈ turnsOf run c es d) :
    (es.foldl (drawEntry run c) d).world.marked t.entry = t.marked := by
  induction es generalizing d with
  | nil => cases ht
  | cons e es ih =>
    have first := passes_entry c quiet runs e
    have quiet' := first.quiet quiet
    rcases List.mem_append.mp ht with here | later
    · split at here
      · obtain rfl := List.mem_singleton.mp here
        have rest := passes_entries quiet' runs (c := c) keys.tail
        unfold Turn.marked marked
        rw [List.foldl_cons, rest.others fun e' he' same => absurd same.symm (keys_apart keys e' he')]
      · cases here
    · exact ih quiet' keys.tail later

end Turns

/-- What a pass reports that is not in immediate mode: the members that were marked at the end of their
turns. These are the members that are marked when it is over, unless some mark was changed by a later
turn. -/
structure ReportsTurns (run : Runner α) (c : Container α) : Prop where
  ids : (c.drawAll run).2 = ((c.turns run).filter Turn.marked).map Turn.id
  ordered : ((c.turns run).map Turn.entry).Sublist c.entries
  emitted : (c.drawAll run).1.world =
    (c.drawAll run).2.foldl (fun w id => emitChanged run c id w) (c.passed run)
  exactly : (c.drawAll run).2 = c.markedAfter run ↔
    ∀ t ∈ c.turns run, t.marked = (c.passed run).marked t.entry
  undisturbed [PartialEquivBEq α] (quiet : c.world.Quiet) (runs : Harmless run) :
    (c.drawAll run).2 = c.markedAfter run

section Reports

variable (h : c.Sound) (visible : c.options.visible = true)

include h

theorem Sound.turns_once (run : Runner α) : ((c.turns run).map Turn.id).Nodup := by
  have ordered : ((c.turns run).map Turn.id).Sublist c.ids := by
    have entries := (turnsOf_entries run c { world := c.world } c.entries).map Entry.id
    rwa [List.map_map] at entries
  exact h.registry.ids_nodup.sublist ordered

include visible

/-- The ids that a pass returns are collected at the ends of the turns. -/
theorem Sound.reportsTurns (deferred : c.options.immediate = false) : c.ReportsTurns run := by
  have drawn : (c.drawAll run).2 = (c.entries.foldl (drawEntry run c) { world := c.world }).changed ∧
      (c.drawAll run).1.world =
        (c.drawAll run).2.foldl (fun w id => emitChanged run c id w) (c.passed run) := by
    rw [Container.drawAll, if_pos visible]
    simp only [deferred]
    exact ⟨trivial, rfl⟩
  have ids : (c.drawAll run).2 = ((c.turns run).filter Turn.marked).map Turn.id := by
    rw [drawn.1, foldl_changed, List.nil_append]
    rfl
  have exactly : (c.drawAll run).2 = c.markedAfter run ↔
      ∀ t ∈ c.turns run, t.marked = (c.passed run).marked t.entry := by
    rw [ids]
    constructor
    · intro same t ht
      have once := h.turns_once run
      have late := mem_map_filter once ht (q := fun t => (c.passed run).marked t.entry)
      rw [Bool.eq_iff_iff, ← mem_map_filter once ht, ← late, same]
      rfl
    · intro agree
      rw [markedAfter, List.filter_congr agree]
  refine ⟨ids, turnsOf_entries run c _ c.entries, drawn.2, exactly, fun quiet runs => ?_⟩
  have start : ({ world := c.world } : Drawn α).world.Quiet := quiet
  exact exactly.mpr fun t ht => (turnsOf_marked start runs h.keys ht).symm

end Reports

/-- **A pass reports the marks that it finds at each turn.** Whatever widgets, listeners and callbacks
write while it runs, what is written to a member after its turn is not reported. -/
theorem reports_turns (reached : c.Reached) (visible : c.options.visible = true)
    (deferred : c.options.immediate = false) (depth : Nat) : c.ReportsTurns (react depth) :=
  reached.sound.reportsTurns visible deferred

def relay : Container Nat :=
  let recipe (kind : Kind) (settings : List (Setting Nat)) : Recipe Nat :=
    { kind, settings, type := ⟨"u64", fun _ n => toString n, String.toNat?⟩, initial := 0,
      outside := 0 }
  [.add "sink" (recipe .monitored []),
    .add "source" (recipe .plain [.widget fun _ picture => ⟨picture.value, [⟨"sink", 5⟩], {}⟩]),
    .command "sink" (.takeHandle "sink"), .watch .valueChanged "ear" none].foldl
      (fun c a => (c.perform (react 0) a).1) {}

theorem relay_reached : relay.Reached := (Reached.empty _).performAll 0 _

/-- The first member has its turn before it is written to. -/
theorem both_turns_of_relay_reported : (relay.turns (react 1)).map Turn.id = ["sink", "source"] ∧
    relay.ReportsTurns (react 1) :=
  ⟨rfl, reports_turns relay_reached rfl rfl 1⟩

/-- The member that is written to is shown, and it is marked when the pass is over; it is not reported,
and nobody is told of it. -/
theorem mark_after_own_turn_unreported : relay.options.visible = true ∧ relay.options.immediate = false ∧
    relay.markedAfter (react 1) = ["sink"] ∧ (relay.drawAll (react 1)).2 = [] ∧
    (relay.drawAll (react 1)).1.world.signs = [.drew 1] :=
  ⟨rfl, rfl, rfl, rfl, rfl⟩

end Container

end BoundValues
