import BoundValues.Proofs.Passes
import Mathlib.Algebra.Ring.Nat

namespace BoundValues

variable {α ρ : Type}

inductive Bulk
  | drawAll | applyAll | revertAll | pullAll | pushAll
deriving DecidableEq, Repr

def Bulk.action : Bulk → Action α
  | drawAll => .drawAll
  | applyAll => .applyAll
  | revertAll => .revertAll
  | pullAll => .pullAll
  | pushAll => .pushAll

namespace World

/-- Something done with the member of each entry in turn, and what each turn came to. -/
def tour (f : Entry → World α → World α × ρ) : List Entry → World α → World α × List ρ
  | [], w => (w, [])
  | e :: es, w =>
    let (w, x) := f e w
    let (w, xs) := tour f es w
    (w, x :: xs)

theorem tour_const (x : ρ) (es : List Entry) (w : World α) :
    tour (fun _ w => (w, x)) es w = (w, es.map fun _ => x) := by
  induction es generalizing w with
  | nil => rfl
  | cons e es ih => simp only [tour, ih, List.map_cons]

theorem tour_foldl (f : World α → Entry → World α) (x : ρ) (es : List Entry) (w : World α) :
    tour (fun e w => (f w e, x)) es w = (es.foldl f w, es.map fun _ => x) := by
  induction es generalizing w with
  | nil => rfl
  | cons e es ih => simp only [tour, ih, List.foldl_cons, List.map_cons]

end World

namespace Container

/-- What is told of the turns of some members: the ids that a drawing pass reports, and a count. -/
structure Tidings where
  ids : List String := []
  count : Nat := 0

def Tidings.total (ts : List Tidings) : Tidings := ⟨ts.flatMap ids, (ts.map count).sum⟩

theorem Tidings.total_singleton (t : Tidings) : total [t] = t := by
  simp [total]

end Container

namespace Bulk

open World Container Tidings

def countTurn (act : Nat → World α → World α × Bool) (e : Entry) (w : World α) : World α × Tidings :=
  let (w, b) := act e.key w
  (w, { count := b.toNat })

/-- A sweep is a tour that counts its successes. -/
theorem sweep_eq_tour (act : Nat → World α → World α × Bool) (es : List Entry) (w : World α) :
    sweep act es w = ((tour (countTurn act) es w).1, (total (tour (countTurn act) es w).2).count) := by
  induction es generalizing w with
  | nil => rfl
  | cons e es ih =>
    rw [sweep_cons, ih]
    refine Prod.ext rfl ?_
    simp only [tour, countTurn, total, List.map_cons, List.sum_cons]
    cases (act e.key w).2 <;> rfl

def reply (t : Tidings) : Bulk → Reply α
  | drawAll => .texts t.ids
  | revertAll => .nothing
  | applyAll | pullAll | pushAll => .number t.count

variable [BEq α] (run : Runner α) (c : Container α)

def drawTurn (e : Entry) (w : World α) : World α × Tidings :=
  let d := drawEntry run c { world := w } e
  (d.world, { ids := d.changed })

def turn (b : Bulk) (e : Entry) (w : World α) : World α × Tidings :=
  match b with
  | drawAll => if c.options.visible then drawTurn run c e w else (w, {})
  | applyAll => countTurn (World.apply run) e w
  | revertAll => (w.mapBody e.key Body.revert, {})
  | pullAll => countTurn (World.pull run) e w
  | pushAll => countTurn (World.push run) e w

/-- What follows when all members had their turns. -/
def close (ids : List String) (w : World α) : Bulk → World α
  | drawAll =>
    if c.options.immediate then w else ids.foldl (fun w id => emitChanged run c id w) w
  | applyAll => emitApplied run c w
  | revertAll | pullAll | pushAll => w

def outcome (b : Bulk) (es : List Entry) (w : World α) : World α × Tidings :=
  let (w, ts) := tour (b.turn run c) es w
  (b.close run c (total ts).ids w, total ts)

theorem outcome_singleton (b : Bulk) (e : Entry) (w : World α) : b.outcome run c [e] w =
    (b.close run c (b.turn run c e w).2.ids (b.turn run c e w).1, (b.turn run c e w).2) := by
  simp only [outcome, tour, total_singleton]

/-- What was reported before a turn does not matter to it. -/
theorem drawEntry_eq_turn (d : Drawn α) (e : Entry) : drawEntry run c d e =
    ⟨(drawTurn run c e d.world).1, d.changed ++ (drawTurn run c e d.world).2.ids⟩ := by
  unfold drawTurn drawEntry
  dsimp only
  split
  · split
    · simp only [drawShown, List.nil_append, apply_ite (d.changed ++ ·), List.append_nil]
    · simp only [List.append_nil]
  · simp only [List.append_nil]

/-- The ids that a pass collects are those that its turns tell. -/
theorem foldl_drawEntry (es : List Entry) (d : Drawn α) : es.foldl (drawEntry run c) d =
    ⟨(tour (drawTurn run c) es d.world).1,
      d.changed ++ (total (tour (drawTurn run c) es d.world).2).ids⟩ := by
  induction es generalizing d with
  | nil => simp [tour, total]
  | cons e es ih =>
    rw [List.foldl_cons, ih, drawEntry_eq_turn]
    simp [tour, total, List.append_assoc]

/-- Turns in which nothing happens tell of nobody. -/
theorem total_silent (es : List Entry) : (total (es.map fun _ => ({} : Tidings))).ids = [] := by
  refine List.flatMap_eq_nil_iff.mpr fun t ht => ?_
  obtain ⟨_, -, rfl⟩ := List.mem_map.mp ht
  rfl

theorem drawAll_eq_outcome : c.perform run (action .drawAll) =
    ({ c with world := (outcome run c .drawAll c.entries c.world).1 },
      reply (outcome run c .drawAll c.entries c.world).2 .drawAll) := by
  have turns : drawAll.turn run c =
      if c.options.visible then drawTurn run c else fun _ w => (w, {}) := by
    funext e w
    simp only [turn]
    split <;> rfl
  simp only [action, Container.perform, Container.drawAll, outcome, turns]
  split
  · simp only [foldl_drawEntry, List.nil_append, close, reply]
  · simp only [tour_const, close, reply, total_silent, List.foldl_nil, ite_self]

theorem revertAll_eq_outcome : c.perform run (action .revertAll) =
    ({ c with world := (outcome run c .revertAll c.entries c.world).1 },
      reply (outcome run c .revertAll c.entries c.world).2 .revertAll) := by
  have swept := tour_foldl (fun w e => w.mapBody e.key Body.revert) ({} : Tidings) c.entries c.world
  simp only [action, Container.perform, Container.revertAll, outcome, close, reply]
  refine Prod.ext ?_ rfl
  exact congrArg (fun world => { c with world }) (congrArg Prod.fst swept).symm

/-- What a container does with all its members, turn by turn. -/
theorem perform_eq_outcome (b : Bulk) : c.perform run b.action =
    ({ c with world := (b.outcome run c c.entries c.world).1 },
      b.reply (b.outcome run c c.entries c.world).2) := by
  cases b with
  | drawAll => exact drawAll_eq_outcome run c
  | applyAll =>
    simp only [action, Container.perform, Container.applyAll, sweep_eq_tour]
    rfl
  | revertAll => exact revertAll_eq_outcome run c
  | pullAll =>
    simp only [action, Container.perform, Container.pullAll, sweep_eq_tour]
    rfl
  | pushAll =>
    simp only [action, Container.perform, Container.pushAll, sweep_eq_tour]
    rfl

end Bulk

namespace Container

/-- The two containers have the same options, listeners and connections. -/
def Configured (c c' : Container α) : Prop := ∃ world registry, c' = { c with world, registry }

theorem configured_self (c : Container α) : c.Configured c := ⟨_, _, rfl⟩

variable [BEq α] (run : World.Runner α)

def tidings (c : Container α) (b : Bulk) : Tidings := (b.outcome run c c.entries c.world).2

theorem drawAll_tells (c : Container α) : (c.drawAll run).2 = (c.tidings run .drawAll).ids :=
  Reply.texts.inj (congrArg Prod.snd (Bulk.perform_eq_outcome run c .drawAll))

theorem applyAll_tells (c : Container α) : (c.applyAll run).2 = (c.tidings run .applyAll).count :=
  Reply.number.inj (congrArg Prod.snd (Bulk.perform_eq_outcome run c .applyAll))

theorem pullAll_tells (c : Container α) : (c.pullAll run).2 = (c.tidings run .pullAll).count :=
  Reply.number.inj (congrArg Prod.snd (Bulk.perform_eq_outcome run c .pullAll))

theorem pushAll_tells (c : Container α) : (c.pushAll run).2 = (c.tidings run .pushAll).count :=
  Reply.number.inj (congrArg Prod.snd (Bulk.perform_eq_outcome run c .pushAll))

def bulks (bs : List Bulk) (c : Container α) : Container α :=
  bs.foldl (fun c b => (c.perform run b.action).1) c

def rounds (c : Container α) (bs : List Bulk) (es : List Entry) (w : World α) : World α :=
  bs.foldl (fun w b => (b.outcome run c es w).1) w

section Configured

variable {run} {c c' : Container α} (same : c.Configured c')

include same

/-- What a pass comes to depends on the configuration, the entries and the world. -/
theorem Configured.outcome (b : Bulk) (es : List Entry) (w : World α) :
    b.outcome run c' es w = b.outcome run c es w := by
  obtain ⟨world, registry, rfl⟩ := same
  rfl

/-- Passes change the world and leave the configuration. -/
theorem Configured.bulks_eq (bs : List Bulk) :
    c'.bulks run bs = { c' with world := c.rounds run bs c'.entries c'.world } := by
  induction bs generalizing c' with
  | nil => rfl
  | cons b bs ih =>
    have first : (c'.perform run b.action).1 =
        { c' with world := (b.outcome run c c'.entries c'.world).1 } := by
      rw [Bulk.perform_eq_outcome, same.outcome]
    have next : c.Configured { c' with world := (b.outcome run c c'.entries c'.world).1 } := by
      obtain ⟨world, registry, rfl⟩ := same
      exact ⟨_, _, rfl⟩
    exact (congrArg (bulks run bs) first).trans (ih next)

theorem Configured.tidings_bulks (bs : List Bulk) (b : Bulk) : (c'.bulks run bs).tidings run b =
    (b.outcome run c c'.entries (c.rounds run bs c'.entries c'.world)).2 := by
  rw [same.bulks_eq]
  obtain ⟨world, registry, rfl⟩ := same
  rfl

end Configured

end Container

end BoundValues
