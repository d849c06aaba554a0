import BoundValues.Proofs.Notification
import BoundValues.Proofs.Tame

namespace BoundValues

variable {α : Type}

namespace Change

theorem Trail.new_of_getLast? {v u : α} {cs : List (Change α)} (h : Trail v cs u) {c : Change α}
    (last : cs.getLast? = some c) : c.new = u := by
  induction cs generalizing v with
  | nil => cases last
  | cons d cs ih =>
    cases cs with
    | nil =>
      cases last
      exact h.2.symm
    | cons e cs => exact ih h.2 (by rwa [List.getLast?_cons_cons] at last)

end Change

namespace World

def Glances (ss : List (Script α)) (s : Nat) : Prop :=
  ∃ t, ss[s]? = some t ∧ ∀ a ∈ t.acts, a.1.Looks (Tally.full : Tally α (Event α)) fun _ => False

/-- A script that used up acts still only looks. -/
theorem Glances.continues {ss ss' : List (Script α)} {s : Nat} (h : Glances ss s)
    (hs : Continues ss ss') : Glances ss' s := by
  obtain ⟨t, ht, looks⟩ := h
  obtain ⟨t', ht', -, acts⟩ := hs s t ht
  refine ⟨t', ht', fun a' ha' => ?_⟩
  have mem : a'.1 ∈ t.acts.map Prod.fst := acts ▸ List.mem_map_of_mem ha'
  obtain ⟨a, ha, same⟩ := List.mem_map.mp mem
  exact same ▸ looks a ha

theorem Glances.mild {w : World α} {s : Nat} (h : Glances w.scripts s) : w.Mild .full s := by
  obtain ⟨t, ht, looks⟩ := h
  intro text here a ha
  rw [List.getElem?_map, ht] at here
  cases here
  obtain ⟨act, mem, rfl⟩ := List.mem_map.mp ha
  have look := looks act mem
  cases hact : act.1 with
  | command times c =>
    rw [hact] at look
    exact look
  | poke p =>
    rw [hact] at look
    exact look.elim

end World

/-- A listener that is told before anyone who writes: whoever is connected before it only looks. -/
structure Member.Leads (m : Member α) (who : String) (ss : List (Script α)) : Prop
    extends m.Hears who where
  foremost : ∃ before c after, m.body.listeners.connections = before ++ c :: after ∧
    c.2.name = who ∧ ∀ b ∈ before, ∀ s ∈ b.2.script, World.Glances ss s

namespace Member.Leads

variable {m m' : Member α} {who : String} {ss ss' : List (Script α)}

theorem continues (h : m.Leads who ss) (hs : World.Continues ss ss') : m.Leads who ss' := by
  obtain ⟨before, c, after, connections, named, glances⟩ := h.foremost
  exact ⟨h.toHears, before, c, after, connections, named,
    fun b hb s script => (glances b hb s script).continues hs⟩

theorem congr (h : m.Leads who ss) (hears : m'.Hears who)
    (listeners : m'.body.listeners = m.body.listeners) : m'.Leads who ss :=
  ⟨hears, listeners ▸ h.foremost⟩

theorem connect (h : m.Leads who ss) {l : Listener} (hears : (m.connect l).Hears who) :
    (m.connect l).Leads who ss := by
  obtain ⟨before, c, after, connections, named, glances⟩ := h.foremost
  refine ⟨hears, before, c, after ++ [(m.body.listeners.next, l)], ?_, named, glances⟩
  rw [connect_listeners h.shared, Signal.connections_connect, connections, List.append_assoc,
    List.cons_append]

theorem disconnect (h : m.Leads who ss) {name : String} {id : Ticket}
    (known : m.connections.lookup name = some id) (other : name ≠ who) :
    Leads { m with body := m.body.mapListeners fun s => (s.disconnect id).1 } who ss := by
  obtain ⟨before, c, after, connections, named, glances⟩ := h.foremost
  have stays : (c.1 != id) = true := by
    rw [bne_iff_ne]
    intro same
    have here : (id, c.2) ∈ m.body.listeners.connections := by
      rw [connections, ← same]
      exact List.mem_append_right _ List.mem_cons_self
    exact other ((h.name_of_lookup known here).symm.trans named)
  refine ⟨h.toHears.disconnect known other, before.filter fun b => b.1 != id, c,
    after.filter fun b => b.1 != id, ?_, named, fun b hb => glances b (List.mem_filter.mp hb).1⟩
  rw [Body.listeners_mapListeners (fun s => (s.disconnect id).1) h.shared]
  simp only [Signal.connections_disconnect, connections, List.filter_append,
    List.filter_cons, stays, ↓reduceIte]

/-- The listener is the only one of its name, so those connected before it are known. -/
theorem slots (h : m.Leads who ss) : ∃ before l after,
    m.body.listeners.slots = before ++ l :: after ∧ l.name = who ∧
      (∀ b ∈ before, b.name ≠ who ∧ ∀ s ∈ b.script, World.Glances ss s) ∧
      ∀ a ∈ after, a.name ≠ who := by
  obtain ⟨before, c, after, connections, named, glances⟩ := h.foremost
  have split : m.body.listeners.slots = before.map Prod.snd ++ c.2 :: after.map Prod.snd := by
    simp [Signal.slots_eq, connections]
  have once := h.once
  rw [split, List.filter_append, List.filter_cons_of_pos (by simpa using named),
    List.length_append, List.length_cons] at once
  have first : (before.map Prod.snd).filter (fun l => l.name == who) = [] :=
    List.eq_nil_of_length_eq_zero (by omega)
  have rest : (after.map Prod.snd).filter (fun l => l.name == who) = [] :=
    List.eq_nil_of_length_eq_zero (by omega)
  refine ⟨_, _, _, split, named, fun b hb => ⟨?_, ?_⟩, fun a ha => ?_⟩
  · simpa using List.filter_eq_nil_iff.mp first b hb
  · obtain ⟨d, hd, rfl⟩ := List.mem_map.mp hb
    exact glances d hd
  · simpa using List.filter_eq_nil_iff.mp rest a ha

end Member.Leads

namespace World

def Leads (w : World α) (key : Nat) (who : String) : Prop :=
  w.Meets key fun m => m.Leads who w.scripts

section Resting

variable {w w' : World α} {told : List (Event α)} {key : Nat} {who : String}

/-- What the log tells stays the same when nothing of the sort was seen. -/
theorem Rests.untold {γ : Type} (h : Rests .full told w w') {f : Event α → Option γ}
    (acted : ∀ who c reply, f (.acted who c reply) = none)
    (poked : ∀ handle reply, f (.poked handle reply) = none) (untold : ∀ e ∈ told, f e = none) :
    w'.log.filterMap f = w.log.filterMap f := by
  have seen : ∀ w : World α, w.log.filterMap f = (w.tally .full).filterMap f := by
    intro w
    rw [World.tally, Tally.seen, List.filterMap_filterMap]
    congr 1
    funext e
    cases e
    case acted who c reply => exact acted who c reply
    case poked handle reply => exact poked handle reply
    all_goals rfl
  rw [seen, h.tally, List.filterMap_append, List.filterMap_eq_nil_iff.mpr untold, List.append_nil,
    seen]

theorem Rests.commits (h : Rests .full told w w') (untold : ∀ e ∈ told, e.commit? key = none) :
    w'.commits key = w.commits key :=
  h.untold (fun _ _ _ => rfl) (fun _ _ => rfl) untold

theorem Rests.calls (h : Rests .full told w w') (untold : ∀ e ∈ told, e.call? key who = none) :
    w'.calls key who = w.calls key who :=
  h.untold (fun _ _ _ => rfl) (fun _ _ => rfl) untold

theorem Rests.continues (h : Rests .full told w w') : Continues w.scripts w'.scripts := by
  intro i s hs
  have text : (w'.scripts.map Script.text)[i]? = some s.text := by simp [h.scripts, hs]
  obtain ⟨s', hs', same⟩ := Option.map_eq_some_iff.mp (List.getElem?_map ▸ text)
  obtain ⟨owner, acts⟩ := Prod.mk.inj same
  exact ⟨s', hs', owner, acts⟩

/-- Worlds that rest keep who leads. -/
theorem Rests.leads (h : Rests .full told w w') (leads : w.Leads key who) : w'.Leads key who := by
  obtain ⟨m, hm, lead⟩ := leads
  exact ⟨m, (h.member? key).trans hm, lead.continues h.continues⟩

end Resting

/-- Whoever connects later stands behind. -/
theorem turns_leads {key : Nat} {who : String} {quiet : Prop} {safe : String → Prop}
    {m m' : Member α} {ss : List (Script α)}
    (h : m.Turns (hearing key who quiet safe) (fun _ => Body.Faithful) key m')
    (leads : m.Leads who ss) : m'.Leads who ss := by
  have hears := turns_hears h leads.toHears
  cases h with
  | cell | clearChanged | widget | drawn | bindGetter | bindSetter =>
    exact leads.congr hears (by simp)
  | listen h script => exact leads.connect hears
  | unlisten h known =>
    have other := (h.1 rfl).2.1
    refine leads.disconnect known ?_
    rintro rfl
    exact other rfl
  | unlistenAll h => exact absurd rfl (h.1 rfl).1
  | step h => exact leads.congr hears h.listeners

/-- As long as the listener leads, it is told of just the commits that changed the value, in their
order. `owed` are calls for commits that came before, and come first. -/
def Timely [BEq α] (key : Nat) (who : String) (owed : List (Change α)) (w w' : World α) : Prop :=
  w.Leads key who → w'.Leads key who ∧ ∃ cs, w'.commits key = w.commits key ++ cs ∧
    w'.calls key who = w.calls key who ++ (owed ++ cs.filter Change.differs)

section Timeliness

variable [BEq α] {key : Nat} {who : String} {quiet : Prop} {safe : String → Prop}
  {w w' w'' : World α} {owed : List (Change α)} {depth : Nat}

theorem timely_nothing (leads : w.Leads key who → w'.Leads key who)
    (commits : w'.commits key = w.commits key) (calls : w'.calls key who = w.calls key who) :
    Timely key who [] w w' :=
  fun h => ⟨leads h, [], by simp [commits], by simp [calls]⟩

theorem timely_refl (w : World α) : Timely key who [] w w := timely_nothing id rfl rfl

/-- What is owed is paid before anything else is committed. -/
theorem Timely.trans (h : Timely key who owed w w') (h' : Timely key who [] w' w'') :
    Timely key who owed w w'' := by
  intro leads
  obtain ⟨leads', cs, commits, calls⟩ := h leads
  obtain ⟨leads'', cs', commits', calls'⟩ := h' leads'
  refine ⟨leads'', cs ++ cs', ?_, ?_⟩
  · rw [commits', commits, List.append_assoc]
  · rw [calls', calls, List.filter_append, List.nil_append, List.append_assoc, List.append_assoc]

theorem timely_trans (a b c : World α) (h : Timely key who [] a b) (h' : Timely key who [] b c) :
    Timely key who [] a c := h.trans h'

theorem timely_record (w : World α) {e : Event α} (commit : e.commit? key = none)
    (call : e.call? key who = none) : Timely key who [] w (w.record e) :=
  timely_nothing id (by simp [commit]) (by simp [call])

theorem timely_turn {k : Nat} {m m' : Member α} {ss : List (Script α)} (hm : w.member? k = some m)
    (h : m.Turns (hearing key who quiet safe) (fun _ => Body.Faithful) k m')
    (hs : Continues w.scripts ss) :
    Timely key who [] w { w.setMember k m' with scripts := ss } := by
  refine timely_nothing (fun ⟨n, hn, leads⟩ => ?_) rfl rfl
  have still : w.Meets key fun m => m.Leads who ss := ⟨n, hn, leads.continues hs⟩
  exact Meets.setMember still hm m' fun hk leads => by
    subst hk
    exact turns_leads h leads

/-- Those who only look are told, and that is all. -/
theorem rests_heralds (depth key : Nat) (change : Change α) {ls : List Listener}
    (glances : ∀ l ∈ ls, ∀ s ∈ l.script, w.Mild .full s) :
    Rests .full (ls.map fun l => .notified key l.name l.form change) w
      (ls.foldl (fun w l => w.call (react depth) key change l) w) := by
  rw [List.map_eq_flatMap]
  refine rests_foldl (I := fun w => ∀ l ∈ ls, ∀ s ∈ l.script, w.Mild .full s)
    (fun rests glances l hl s hs => rests.mild (glances l hl s hs)) ?_ glances
  intro w l hl glances
  have recorded : Rests .full [.notified key l.name l.form change] w
      (w.record (.notified key l.name l.form change)) := .record w rfl
  unfold call
  cases hs : l.script with
  | none => exact recorded
  | some s => exact recorded.still ((recorded.mild (glances l hl s hs)).react depth)

/-- Telling them delays nothing. -/
theorem Timely.heralded {change : Change α} {ls : List Listener}
    (rests : Rests .full (ls.map fun l => .notified key l.name l.form change) w w')
    (others : ∀ l ∈ ls, l.name ≠ who) (h : Timely key who owed w' w'') :
    Timely key who owed w w'' := by
  have commits : w'.commits key = w.commits key := rests.commits fun e he => by
    obtain ⟨l, -, rfl⟩ := List.mem_map.mp he
    rfl
  have calls : w'.calls key who = w.calls key who := rests.calls fun e he => by
    obtain ⟨l, hl, rfl⟩ := List.mem_map.mp he
    exact if_neg fun here => others l hl here.2
  intro leads
  rw [← commits, ← calls]
  exact h (rests.leads leads)

/-- The listener itself is told first and acts then. -/
theorem timely_call (runs : Runs (hearing key who quiet safe : Rules α) (Timely key who []) depth)
    (change : Change α) (l : Listener) (w : World α) :
    Under (hearing key who quiet safe) (Timely key who (if l.name = who then [change] else [])) w
      (w.call (react depth) key change l) := by
  have noted : Under (hearing key who quiet safe)
      (Timely key who (if l.name = who then [change] else [])) w
      (w.record (.notified key l.name l.form change)) := by
    refine .of_same rfl rfl fun leads => ⟨leads, [], by simp [Event.commit?], ?_⟩
    simp only [calls_record, Event.call?, true_and, List.filter_nil, List.append_nil]
    split <;> rfl
  exact noted.comp (runScript_under timely_refl runs l.script _) Timely.trans

theorem timely_others
    (runs : Runs (hearing key who quiet safe : Rules α) (Timely key who []) depth)
    (change : Change α) {ls : List Listener} (others : ∀ l ∈ ls, l.name ≠ who) (w : World α) :
    Under (hearing key who quiet safe) (Timely key who []) w
      (ls.foldl (fun w l => w.call (react depth) key change l) w) := by
  induction ls generalizing w with
  | nil => exact .of_same rfl rfl (timely_refl w)
  | cons l ls ih =>
    have told := timely_call runs change l w
    rw [if_neg (others l List.mem_cons_self)] at told
    exact told.trans timely_trans (ih (fun l' hl => others l' (List.mem_cons_of_mem l hl)) _)

/-- A commit that changed the value is told before anything else is committed. -/
theorem timely_notify
    (runs : Runs (hearing key who quiet safe : Rules α) (Timely key who []) depth)
    (change : Change α) (w : World α) :
    Under (hearing key who quiet safe) (Timely key who ([change].filter Change.differs)) w
      (w.notify (react depth) key change) := by
  intro obeys
  have kept : Under (hearing key who quiet safe) (fun _ _ => True) w
      (w.notify (react depth) key change) :=
    notify_under (fun _ => trivial) (fun _ _ _ _ _ => trivial)
      (fun s w => (runs s w).mono fun _ _ _ => trivial) (fun _ _ _ => trivial) w
  refine ⟨(kept obeys).1, fun leads => ?_⟩
  obtain ⟨m, hm, lead⟩ := id leads
  obtain ⟨before, l, after, slots, named, heralds, others⟩ := lead.slots
  cases hd : change.differs with
  | false =>
    have same : (change.old == change.new) = true := by simpa [Change.differs] using hd
    simp only [notify, hm, Option.bind_some, Change.audience, same, ↓reduceIte]
    rw [List.filter_cons_of_neg (by simp [hd])]
    exact timely_refl w leads
  | true =>
    have other : (change.old == change.new) = false := by simpa [Change.differs] using hd
    have tells : w.notify (react depth) key change =
        (before ++ l :: after).foldl (fun w l => w.call (react depth) key change l) w := by
      simp only [notify, hm, Option.bind_some, Change.audience, other, Bool.false_eq_true,
        ↓reduceIte, Signal.snapshot, lead.unblocked, slots]
    have rests := rests_heralds depth key change fun b hb s hs => ((heralds b hb).2 s hs).mild
    obtain ⟨-, timely⟩ := (timely_call runs change l _).comp
      (timely_others runs change others _) Timely.trans (rests.obeys obeys)
    rw [if_pos named] at timely
    rw [tells, List.foldl_append, List.foldl_cons, List.filter_cons_of_pos hd]
    exact Timely.heralded rests (fun b hb => (heralds b hb).1) timely leads

/-- The commit is recorded first, so that it is owed when the listeners are called. -/
theorem timely_commit
    (runs : Runs (hearing key who quiet safe : Rules α) (Timely key who []) depth)
    {m : Member α} {b : Body α} {change : Change α} (hm : w.member? key = some m)
    (h : m.body.Faithful b (some change)) :
    Under (hearing key who quiet safe) (Timely key who []) w
      ((w.commit key m b change).notify (react depth) key change) := by
  intro obeys
  obtain ⟨obeys', timely⟩ := timely_notify runs change _ (obeys.commit key m b change)
  refine ⟨obeys', fun leads => ?_⟩
  have committed : (w.commit key m b change).Leads key who :=
    Meets.setMember leads hm { m with body := b } fun _ leads =>
      leads.congr (leads.toHears.congr h.shared h.listeners rfl) h.listeners
  obtain ⟨leads', cs, commits, calls⟩ := timely committed
  refine ⟨leads', change :: cs, ?_, ?_⟩
  · rw [commits, commits_commit, if_pos rfl, List.append_assoc]
    rfl
  · rw [calls, calls_commit, ← List.filter_append]
    rfl

/-- Commits to other members owe the listener nothing. -/
theorem timely_elsewhere
    (runs : Runs (hearing key who quiet safe : Rules α) (Timely key who []) depth) {k : Nat}
    {m : Member α} {b : Body α} {change : Change α} (hm : w.member? k = some m) (hk : k ≠ key) :
    Under (hearing key who quiet safe) (Timely key who []) w
      ((w.commit k m b change).notify (react depth) k change) := by
  have committed : Timely key who [] w (w.commit k m b change) := by
    refine timely_nothing (fun leads => ?_) (by simp [hk]) (by simp)
    exact Meets.setMember leads hm { m with body := b } fun h => absurd h hk
  exact commit_notify_under timely_refl timely_trans runs committed
    fun w _ _ => timely_record w rfl (Event.call?_of_ne hk ..)

theorem timely_announce
    (runs : Runs (hearing key who quiet safe : Rules α) (Timely key who []) depth) {k : Nat}
    {m : Member α} {b : Body α} {change : Change α} (hm : w.member? k = some m)
    (h : m.body.Faithful b (some change)) :
    Under (hearing key who quiet safe) (Timely key who []) w
      ((w.commit k m b change).notify (react depth) k change) := by
  by_cases hk : k = key
  · subst hk
    exact timely_commit runs hm h
  · exact timely_elsewhere runs hm hk

/-- While a listener leads it hears of every commit in time, whatever is going on. -/
theorem timely_course (key : Nat) (who : String) (quiet : Prop) (safe : String → Prop) :
    Course (hearing key who quiet safe : Rules α) (fun _ => Body.Faithful) (Timely key who []) :=
  Routine.course
    { refl := timely_refl
      trans := timely_trans
      steps := fun _ => Body.steps_faithful ..
      note := fun w _ h => timely_record w (h.commit? key) (h.call? key who)
      scripts := fun _ _ hs =>
        timely_nothing (fun ⟨m, hm, leads⟩ => ⟨m, hm, leads.continues hs⟩) rfl rfl
      handle := fun _ _ _ _ => timely_nothing id rfl rfl
      outside := fun _ _ _ _ => timely_nothing id rfl rfl
      turn := timely_turn
      read := fun w _ _ => timely_record w rfl rfl
      stored := fun w _ _ _ =>
        (timely_record w rfl rfl).trans (timely_nothing id rfl rfl)
      pulled := fun _ moves => moves.faithful
      told := fun runs => timely_announce runs }

/-- **The final value is told.** Whatever a request sets off, one of the calls that a listener gets
carries the value that is there in the end; without a call the value stayed. When no script writes to
the value, or when whoever is connected before the listener only looks, the calls lead from the value
at the start to the one in the end, and the last one carries it. -/
theorem last_call_is_final [LawfulBEq α] (hears : w.Hears key who)
    (obeys : w.Obeys (hearing key who quiet safe)) {q : Request α}
    (admits : (hearing key who quiet safe).Admits q) (depth : Nat) :
    ∃ v u ds, w.value? key = some v ∧ (w.serve depth q).value? key = some u ∧
      (w.serve depth q).calls key who = w.calls key who ++ ds ∧ (ds = [] → u = v) ∧
      (ds ≠ [] → ∃ c ∈ ds, c.new = u) ∧
      (quiet ∨ w.Leads key who → Change.Trail v ds u ∧ ∀ c, ds.getLast? = some c → c.new = u) := by
  obtain ⟨-, told⟩ := (told_course key who quiet safe).serve admits depth w obeys
  obtain ⟨-, timely⟩ := (timely_course key who quiet safe).serve admits depth w obeys
  obtain ⟨-, cs, ds, exchange, order⟩ := told hears
  obtain ⟨m, hm, -⟩ := hears
  obtain ⟨u, hu, trail⟩ := exchange.trail _ (value?_of_member? hm)
  have balance : ds.Perm (cs.filter Change.differs) := exchange.balance
  refine ⟨_, u, ds, value?_of_member? hm, hu, exchange.calls, ?_, ?_, fun ahead => ?_⟩
  · rintro rfl
    have changes := trail.filter
    rwa [List.nil_perm.mp balance] at changes
  · intro called
    have changed : cs.filter Change.differs ≠ [] := fun unchanged =>
      called (List.perm_nil.mp (unchanged ▸ balance))
    have last := List.getLast?_eq_some_getLast changed
    exact ⟨_, balance.mem_iff.mpr (List.mem_of_getLast? last), trail.filter.new_of_getLast? last⟩
  · have inOrder : ds = cs.filter Change.differs := by
      rcases ahead with hq | leads
      · exact order hq
      · obtain ⟨-, cs', commits, calls⟩ := timely leads
        obtain rfl : cs = cs' := List.append_cancel_left (exchange.commits.symm.trans commits)
        exact List.append_cancel_left (exchange.calls.symm.trans calls)
    have changes : Change.Trail m.body.value ds u := inOrder ▸ trail.filter
    exact ⟨changes, fun c => changes.new_of_getLast?⟩

end Timeliness

section Examples

/-- Commands that leave everyone connected may be asked of any member. -/
theorem hearing_keeps {who : String} {c : Command Nat} (k : Nat) (all : c ≠ .unlistenAll)
    (one : c ≠ .unlisten who) (again : ∀ form acts, c ≠ .listen who form acts) :
    (hearing 0 who False fun _ => False).command k c :=
  ⟨fun _ => ⟨all, one, again⟩, False.elim⟩

def flanked : World Nat :=
  (overheard (.command 1 .snapshot)).serve 0
    (.command 0 (.listen "late" .pair [.command 1 (.edit (.set 9))]))

theorem flanked_hears : flanked.Obeys (hearing 0 "ear" False fun _ => False) ∧
    flanked.Hears 0 "ear" := by
  have looks : (overheard (.command 1 .snapshot)).Obeys (hearing 0 "ear" False fun _ => False) :=
    overheard_obeys rfl ⟨hearing_keeps 0 nofun nofun nofun, False.elim⟩
  have joins : (hearing 0 "ear" False fun _ => False).Admits
      (.command 0 (.listen "late" .pair [.command 1 (.edit (.set 9))]) : Request Nat) := by
    refine .command ⟨hearing_keeps 0 nofun nofun (by simp), fun a ha => ?_⟩
    cases List.mem_singleton.mp ha
    exact .of_plain ⟨hearing_keeps 0 nofun nofun nofun, False.elim⟩ rfl
  obtain ⟨obeys, told⟩ := (told_course 0 "ear" False fun _ => False).serve joins 0 _ looks
  exact ⟨obeys, (told (overheard_hears _)).1⟩

theorem flanked_leads : flanked.Leads 0 "ear" := by
  obtain ⟨m, hm, hears⟩ := flanked_hears.2
  cases hm
  refine ⟨_, rfl, hears, [(⟨0, 0⟩, ⟨"echo", .pair, some 0⟩)], (⟨1, 0⟩, ⟨"ear", .pair, some 1⟩),
    [(⟨2, 0⟩, ⟨"late", .pair, some 2⟩)], rfl, rfl, ?_⟩
  intro b hb s hs
  cases List.mem_singleton.mp hb
  cases hs
  refine ⟨_, rfl, fun a ha => ?_⟩
  cases List.mem_singleton.mp ha
  exact ⟨rfl, nofun⟩

/-- The listener in between is told of the one commit and then of the other. -/
theorem last_call_before_late_writer_is_current :
    ∃ u ds, (flanked.serve 5 (.command 0 (.edit (.set 5)))).value? 0 = some u ∧
      (flanked.serve 5 (.command 0 (.edit (.set 5)))).calls 0 "ear" = ds ∧
      ds = [⟨0, 5⟩, ⟨5, 9⟩] ∧ ∀ c, ds.getLast? = some c → c.new = u := by
  have sets : (hearing 0 "ear" False fun _ => False).Admits
      (.command 0 (.edit (.set 5)) : Request Nat) :=
    .command (.of_plain (hearing_keeps 0 nofun nofun nofun) rfl)
  obtain ⟨obeys, hears⟩ := flanked_hears
  obtain ⟨v, u, ds, -, value, calls, -, -, final⟩ := last_call_is_final hears obeys sets 5
  have counted : ds = [⟨0, 5⟩, ⟨5, 9⟩] := calls.symm.trans rfl
  exact ⟨u, ds, value, calls, counted, (final (.inr flanked_leads)).2⟩

/-- A listener is connected first and writes. The other one, connected all the time, is told of that
write first, and its last call carries a value that is gone. -/
theorem last_call_behind_writer_is_stale :
    let w := overheard (.command 1 (.edit (.set 9)))
    let w' := w.serve 5 (.command 0 (.edit (.set 5)))
    w.Hears 0 "ear" ∧ w'.Hears 0 "ear" ∧ w'.value? 0 = some 9 ∧
      w'.calls 0 "ear" = [⟨5, 9⟩, ⟨0, 5⟩] := by
  have writes : (overheard (.command 1 (.edit (.set 9)))).Obeys
      (hearing 0 "ear" False fun _ => False) :=
    overheard_obeys rfl ⟨hearing_keeps 0 nofun nofun nofun, False.elim⟩
  have sets : (hearing 0 "ear" False fun _ => False).Admits
      (.command 0 (.edit (.set 5)) : Request Nat) :=
    .command (.of_plain (hearing_keeps 0 nofun nofun nofun) rfl)
  obtain ⟨-, told⟩ := (told_course 0 "ear" False fun _ => False).serve sets 5 _ writes
  exact ⟨overheard_hears _, (told (overheard_hears _)).1, rfl, rfl⟩

end Examples

end World

end BoundValues
