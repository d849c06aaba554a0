import BoundValues.Proofs.Calm
import BoundValues.Proofs.HistoryCursor
import BoundValues.Proofs.Passes

namespace BoundValues

variable {α : Type} [BEq α]

def Full.taking (f : Full α) (v : α) : Full α :=
  { f with cell := f.cell.assign v, source := .external, history := f.history.push v }

/-- What is told when a value is taken over: the commit, once to each listener, and nothing else. -/
def Full.takings (key : Nat) (f : Full α) (v : α) : List (Event α) :=
  .committed key ⟨f.cell.value, v⟩ ::
    f.listeners.snapshot.map fun l => .notified key l.name l.form ⟨f.cell.value, v⟩

namespace World

open Container (sweep)

/-- Whatever way the member under a key is pulled, it comes to the same world, and the same is told of
it. A container pulls the member in its turn. -/
structure PullsTo (run : Runner α) (key : Nat) (w : World α) (out : World α × Bool) : Prop where
  call : w.exec run key (.call .pull) = (out.1, .flag out.2)
  own : w.exec run key .pullThroughHandle = (out.1, .accepted (.flag out.2))
  handle {name : String} (taken : w.handleKey? name = some key) :
    w.execHandle run name .pull = (out.1, .accepted (.flag out.2))
  pass {c : Container α} {pre post : List Entry} {e : Entry} (split : c.entries = pre ++ e :: post)
    (here : e.key = key) (turn : (sweep (World.pull run) pre c.world).1 = w) :
    c.pullAll run =
      ({ c with world := (sweep (World.pull run) post out.1).1 },
        (sweep (World.pull run) pre c.world).2 +
          ((if out.2 then 1 else 0) + (sweep (World.pull run) post out.1).2))

/-- In `w` nothing waited in the full value under a key, and its getter read `v` and left `w'`. -/
structure Reads (run : Runner α) (key : Nat) (f : Full α) (v : α) (w w' : World α) : Prop where
  settled : f.hasPending = false
  read : ∃ getter, f.link.getter = some getter ∧ w.externals[getter.external]? = some v ∧
    w' = (w.record (.read key v)).runScript run getter.script

def taken (run : Runner α) (key : Nat) (m : Member α) (f : Full α) (v : α) (w : World α) : World α :=
  f.listeners.snapshot.foldl (fun w l => w.call run key ⟨f.cell.value, v⟩ l)
    (w.commit key m (.full (f.taking v)) ⟨f.cell.value, v⟩)

section Full

variable {run : Runner α} {key : Nat} {w w' : World α} {m : Member α} {f : Full α} {v : α}

theorem pullsTo (hm : w.member? key = some m) (full : m.body = .full f) :
    w.PullsTo run key (w.pull run key) where
  call := by
    have answers : m.interface.answers .external = true := by
      rw [Member.interface, Interface.answers_plain, full]
      exact (by decide : Kind.full.capabilities.declares .external = true)
    simp only [exec, hm, callThrough, Call.capability, answers, ↓reduceIte]
  own := by
    have shared : m.body.shared = true := by rw [full]; rfl
    simp only [exec, hm, if_pos shared, execShared, pullShared, alive, Option.isSome_some, if_true]
    rfl
  handle taken := by
    simp only [execHandle, taken, pullShared, alive, hm, Option.isSome_some, if_true]
    rfl
  pass split here turn := by
    subst here turn
    unfold Container.pullAll
    rw [split, Container.sweep_append, Container.sweep_cons]

/-- Once the getter has run, what is left is taking over what it read. -/
theorem Reads.pull (reads : Reads run key f v w w') (hm : w.member? key = some m)
    (full : m.body = .full f) : w.pull run key = w'.commitPulled run key v := by
  obtain ⟨getter, linked, outside, rfl⟩ := reads.read
  have waits : m.body.hasPending = false := full ▸ reads.settled
  have getter? : m.body.link.getter = some getter := full ▸ linked
  simp only [World.pull, hm, getter?, waits, outside]
  rfl

/-- What was read is dropped when an edit waits, and when it is the committed value. -/
theorem commitPulled_refused (hm : w.member? key = some m) (full : m.body = .full f)
    (refused : (f.hasPending || f.cell.value == v) = true) :
    w.commitPulled run key v = (w, false) := by
  have stays : m.body.commitPulled v = { state := m.body, reply := false } := by
    rw [full]
    simp only [Body.commitPulled, Full.commitPulled, if_pos refused]
    rfl
  simp only [World.commitPulled, hm, stays, mapBody_self hm]

theorem taken_eq_notify (hm : w.member? key = some m) (differs : (f.cell.value == v) = false) :
    w.taken run key m f v = (w.commit key m (.full (f.taking v)) ⟨f.cell.value, v⟩).notify run key
      ⟨f.cell.value, v⟩ := by
  have here : (w.commit key m (.full (f.taking v)) ⟨f.cell.value, v⟩).member? key =
      some { m with body := .full (f.taking v) } := member?_setMember_self hm _
  simp only [taken, notify, here, Option.bind_some, Change.audience, differs]
  rfl

/-- Otherwise the value is taken over and the listeners are told of it. -/
theorem commitPulled_taken (hm : w.member? key = some m) (full : m.body = .full f)
    (settled : f.hasPending = false) (differs : (f.cell.value == v) = false) :
    w.commitPulled run key v = (w.taken run key m f v, true) := by
  have takes : m.body.commitPulled v =
      { state := .full (f.taking v), reply := true, change := some ⟨f.cell.value, v⟩ } := by
    rw [full]
    simp only [Body.commitPulled, Full.commitPulled, settled, differs]
    rfl
  rw [taken_eq_notify hm differs]
  simp only [World.commitPulled, hm, takes, mapBody_of_member? hm]
  rfl

/-- When listeners only look, the member took the value over, each listener was told of it once, and
nothing was pushed back. -/
theorem Calm.taken {β : Type} {t : Tally α β} (calm : w.Calm t) (runs : Gentle t run)
    (hm : w.member? key = some m) (full : m.body = .full f) (differs : (f.cell.value == v) = false) :
    Rests t (t.seen (f.takings key v)) (w.setMember key { m with body := .full (f.taking v) })
      (w.taken run key m f v) := by
  have kept : (Body.full (f.taking v)).hearers = m.body.hearers := by rw [full]; rfl
  have recorded := Rests.recorded (t := t) (w.setMember key { m with body := .full (f.taking v) })
    (.committed key ⟨f.cell.value, v⟩)
  have calm' := recorded.calm (calm.setMember hm kept)
  have here := (recorded.member? key).trans (member?_setMember_self hm _)
  have heard : (Body.full (f.taking v)).heard key ⟨f.cell.value, v⟩ =
      f.listeners.snapshot.map fun l => .notified key l.name l.form ⟨f.cell.value, v⟩ := by
    simp only [Body.heard, Change.audience, differs]
    rfl
  rw [taken_eq_notify hm differs]
  exact recorded.append (heard ▸ calm'.notify runs here _)

/-- Edits of the user go before values from outside. A history has room for one entry at least, whatever
capacity it was given. -/
structure EditsFirst (depth key : Nat) (m : Member α) (f : Full α) (w : World α) : Prop where
  waits (pending : f.hasPending = true) : w.PullsTo (react depth) key (w, false)
  drops {v : α} {w' : World α} (reads : Reads (react depth) key f v w w') {m' : Member α}
    {f' : Full α} (hm' : w'.member? key = some m') (full' : m'.body = .full f')
    (staged : f'.hasPending = true) : w.PullsTo (react depth) key (w', false)
  equal {v : α} {w' : World α} (reads : Reads (react depth) key f v w w')
    (untouched : w'.member? key = some m) (same : (f.cell.value == v) = true) :
    w.PullsTo (react depth) key (w', false)
  takes {v : α} {w' : World α} (reads : Reads (react depth) key f v w w')
    (untouched : w'.member? key = some m) (differs : (f.cell.value == v) = false) :
    w.PullsTo (react depth) key (w'.taken (react depth) key m f v, true)
  told {β : Type} {t : Tally α β} {v : α} {w' : World α} (untouched : w'.member? key = some m)
    (differs : (f.cell.value == v) = false) (calm : w'.Calm t) :
    Rests t (t.seen (f.takings key v)) (w'.setMember key { m with body := .full (f.taking v) })
      (w'.taken (react depth) key m f v)
  recorded (v : α) (bounded : 0 < f.history.capacity) :
    ∃ kept, kept <:+ f.history.entries.take (f.history.cursor + 1) ∧
      kept.length = min (f.history.entries.take (f.history.cursor + 1)).length
        (f.history.capacity - 1) ∧
      (f.taking v).history.entries = kept ++ [v] ∧ (f.taking v).history.cursor = kept.length

/-- **Pending edits win.** A pull of a full value with a staged edit reads nothing and does nothing, and
what was read is dropped when an edit was staged meanwhile. Otherwise a different value is taken over,
recorded and told to each listener once; it is not pushed back. -/
theorem pending_edits_win (hm : w.member? key = some m) (full : m.body = .full f) (depth : Nat) :
    w.EditsFirst depth key m f := by
  have pulls : w.PullsTo (react depth) key _ := pullsTo hm full
  refine ⟨?_, ?_, ?_, ?_, ?_, fun v bounded => History.push_entries bounded v⟩
  · intro pending
    have waits : m.body.hasPending = true := full ▸ pending
    have nothing : w.pull (react depth) key = (w, false) := by
      rcases pull_cases (react depth) key w with nothing | ⟨m', _, _, hm', _, settled, _⟩
      · exact nothing
      · cases hm.symm.trans hm'
        exact absurd (settled.symm.trans waits) Bool.false_ne_true
    exact nothing ▸ pulls
  · intro v w' reads m' f' hm' full' staged
    have refused : (f'.hasPending || f'.cell.value == v) = true := by rw [staged, Bool.true_or]
    rw [reads.pull hm full, commitPulled_refused hm' full' refused] at pulls
    exact pulls
  · intro v w' reads untouched same
    have refused : (f.hasPending || f.cell.value == v) = true := by rw [same, Bool.or_true]
    rw [reads.pull hm full, commitPulled_refused untouched full refused] at pulls
    exact pulls
  · intro v w' reads untouched differs
    rw [reads.pull hm full, commitPulled_taken untouched full reads.settled differs] at pulls
    exact pulls
  · intro β t v w' untouched differs calm
    exact calm.taken (gentle_react t depth) untouched full differs

end Full

def gauge : World Nat :=
  (((solo .full true).exec (react 0) 0 (.listen "ear" .pair [])).1).setVariable 0 7

def snag : World Nat := (gauge.exec (react 0) 0 (.bindGetter [.command 1 (.edit (.stage 3))])).1

theorem pull_takes_seven_or_drops_it :
    (∃ w, gauge.PullsTo (react 1) 0 (w, true) ∧ w.value? 0 = some 7) ∧
      ∃ w, snag.PullsTo (react 1) 0 (w, false) ∧ w.value? 0 = some 0 := by
  refine ⟨⟨_, (pending_edits_win (m := _) rfl rfl 1).takes ⟨rfl, _, rfl, rfl, rfl⟩ rfl rfl, ?_⟩,
    ⟨_, (pending_edits_win rfl rfl 1).drops ⟨rfl, _, rfl, rfl, rfl⟩ rfl rfl ?_, ?_⟩⟩
  · rfl
  · rfl
  · rfl

end World

end BoundValues
