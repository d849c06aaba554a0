import BoundValues.Proofs.Connections
import BoundValues.Proofs.Keeping

namespace BoundValues

variable {α : Type}

def Edit.writes : Edit α → Bool
  | .set _ | .apply | .undo | .redo | .reset | .load _ => true
  | _ => false

def Call.writes : Call → Bool
  | .apply | .undo | .redo | .setValueText _ | .pull => true
  | _ => false

def Command.writes : Command α → Bool
  | .edit e => e.writes
  | .call c => c.writes
  | .draw _ | .refresh | .setThroughHandle _ | .pullThroughHandle => true
  | _ => false

def Change.differs [BEq α] (c : Change α) : Bool := !(c.old == c.new)

/-- Changes that lead from one value to another, each starting where the one before ended. -/
def Change.Trail : α → List (Change α) → α → Prop
  | v, [], u => u = v
  | v, c :: cs, u => c.old = v ∧ Trail c.new cs u

namespace Change

theorem Trail.append {v u t : α} {cs ds : List (Change α)} (h : Trail v cs u)
    (h' : Trail u ds t) : Trail v (cs ++ ds) t := by
  induction cs generalizing v with
  | nil =>
    cases h
    exact h'
  | cons c cs ih => exact ⟨h.1, ih h.2⟩

/-- Changes that changed nothing can be left out. -/
theorem Trail.filter [BEq α] [LawfulBEq α] {v u : α} {cs : List (Change α)} (h : Trail v cs u) :
    Trail v (cs.filter differs) u := by
  induction cs generalizing v with
  | nil => exact h
  | cons c cs ih =>
    obtain ⟨rfl, hcs⟩ := h
    cases hd : c.differs with
    | true =>
      rw [List.filter_cons_of_pos hd]
      exact ⟨rfl, ih hcs⟩
    | false =>
      have same : c.old = c.new := by simpa [differs] using hd
      rw [List.filter_cons_of_neg (by simp [hd]), same]
      exact ih hcs

end Change

section Quiet

variable [BEq α]

theorem Edit.step_quiet {type : ValueType α} {b : Body α} {e : Edit α}
    {s : Step (Body α) α (Reply α)} (quiet : e.writes = false) (h : e.step type b = some s) :
    s.change = none := by
  have moves : b.Moves (fun _ => True) s.state s.change := Edit.step_moves (fun _ _ => trivial) h
  cases b with
  | plain p => exact moves.quiet rfl
  | config c => exact moves.quiet rfl
  | monitored m | captioned m caption =>
    cases e <;> simp only [Edit.step, Edit.onMonitored, reduceCtorEq] at h
    cases quiet
  | full f =>
    cases e
    case set | apply | undo | redo | reset | load => cases quiet
    all_goals
      simp only [Edit.step, Edit.onFull, Edit.settled, Option.some.injEq, reduceCtorEq] at h
    all_goals subst h
    case stage v =>
      simp only [Full.stage]
      split <;> rfl
    all_goals rfl

theorem Call.edit_quiet {m : Member α} {e : Edit α} {g : Reply α → Reply α}
    (quiet : e.writes = false) : (Call.edit m e g).change = none := by
  unfold Call.edit
  split
  · rename_i s hs
    exact Edit.step_quiet (s := s) quiet hs
  · rfl

theorem Call.step_quiet {m : Member α} {c : Call} (quiet : c.writes = false) :
    (c.step m).change = none := by
  cases c
  case apply | undo | redo | setValueText | pull => cases quiet
  case revert => exact Call.edit_quiet rfl
  case validate =>
    simp only [Call.step]
    cases m.body <;> rfl
  all_goals rfl

end Quiet

/-- A member whose connections can be told apart: a connection known by a name belongs to a listener
of that name. -/
structure Member.Orderly (m : Member α) : Prop where
  shared : m.body.shared = true
  unblocked : m.body.listeners.blocked = false
  named : ∀ name id, (name, id) ∈ m.connections → m.body.listeners.Issued id ∧
    ∀ l, (id, l) ∈ m.body.listeners.connections → l.name = name

structure Member.Hears (m : Member α) (who : String) : Prop extends m.Orderly where
  once : (m.body.listeners.slots.filter fun l => l.name == who).length = 1

namespace Member

variable {m m' : Member α} {who : String}

theorem connect_listeners (h : m.body.shared = true) (l : Listener) :
    (m.connect l).body.listeners = (m.body.listeners.connect l).1 :=
  Body.listeners_mapListeners (fun s => (s.connect l).1) h

theorem orderly_of_none (shared : m.body.shared = true)
    (unblocked : m.body.listeners.blocked = false) (names : m.connections = []) : m.Orderly := by
  refine ⟨shared, unblocked, ?_⟩
  rw [names]
  exact fun name id hn => nomatch hn

/-- The ticket of a new listener was never given before, so no name leads to it yet. -/
theorem Orderly.connect (h : m.Orderly) (l : Listener) : (m.connect l).Orderly := by
  have shared : (m.connect l).body.shared = m.body.shared :=
    m.body.shared_mapListeners fun s => (s.connect l).1
  refine ⟨shared.trans h.shared, ?_, ?_⟩
  all_goals rw [connect_listeners h.shared]
  · exact h.unblocked
  · intro name id hn
    rw [Signal.connections_connect]
    rcases List.mem_cons.mp hn with hn | hn
    · cases hn
      refine ⟨Signal.issued_next l, fun l' hl => ?_⟩
      rcases List.mem_append.mp hl with hl | hl
      · exact absurd (Signal.issued_of_mem hl) Signal.not_issued_next
      · cases List.mem_singleton.mp hl
        rfl
    · obtain ⟨given, hnames⟩ := h.named name id hn
      refine ⟨given.connect l, fun l' hl => ?_⟩
      rcases List.mem_append.mp hl with hl | hl
      · exact hnames l' hl
      · cases List.mem_singleton.mp hl
        exact absurd given Signal.not_issued_next

/-- A listener that connects under a new name is heard from then on. -/
theorem Orderly.hears (h : m.Orderly) {l : Listener}
    (new : ∀ l' ∈ m.body.listeners.slots, l'.name ≠ l.name) : (m.connect l).Hears l.name := by
  refine ⟨h.connect l, ?_⟩
  have none : m.body.listeners.slots.filter (fun l' => l'.name == l.name) = [] := by
    rw [List.filter_eq_nil_iff]
    intro l' hl
    simp [new l' hl]
  rw [connect_listeners h.shared, Signal.slots_connect, List.filter_append, none]
  simp

/-- A listener of another name does not get in the way. -/
theorem Hears.connect (h : m.Hears who) {l : Listener} (other : l.name ≠ who) :
    (m.connect l).Hears who := by
  refine ⟨h.toOrderly.connect l, ?_⟩
  rw [connect_listeners h.shared, Signal.slots_connect, List.filter_append]
  simpa [other] using h.once

theorem Orderly.disconnect (h : m.Orderly) (id : Ticket) :
    Orderly { m with body := m.body.mapListeners fun s => (s.disconnect id).1 } := by
  have listeners := Body.listeners_mapListeners (fun s => (s.disconnect id).1) h.shared
  refine ⟨?_, ?_, ?_⟩
  · exact (m.body.shared_mapListeners fun s => (s.disconnect id).1).trans h.shared
  all_goals rw [listeners]
  · exact (Signal.blocked_disconnect ..).trans h.unblocked
  · intro n i hn
    obtain ⟨given, hnames⟩ := h.named n i hn
    rw [Signal.connections_disconnect]
    exact ⟨given.disconnect id, fun l hl => hnames l (List.mem_filter.mp hl).1⟩

theorem Orderly.disconnectAll (h : m.Orderly) :
    Orderly { m with body := m.body.mapListeners Signal.disconnectAll } := by
  have listeners := Body.listeners_mapListeners Signal.disconnectAll h.shared
  refine ⟨?_, ?_, ?_⟩
  · exact (m.body.shared_mapListeners Signal.disconnectAll).trans h.shared
  all_goals rw [listeners]
  · exact h.unblocked
  · exact fun n i hn => ⟨(h.named n i hn).1.disconnectAll, fun l hl => nomatch hl⟩

theorem Orderly.congr (h : m.Orderly) (shared : m'.body.shared = m.body.shared)
    (listeners : m'.body.listeners = m.body.listeners)
    (connections : m'.connections = m.connections) : m'.Orderly := by
  refine ⟨shared.trans h.shared, ?_, ?_⟩
  all_goals rw [listeners]
  · exact h.unblocked
  · rw [connections]
    exact h.named

/-- What is connected under a known name is a listener of that name. -/
theorem Orderly.name_of_lookup (h : m.Orderly) {name : String} {id : Ticket}
    (known : m.connections.lookup name = some id) {l : Listener}
    (here : (id, l) ∈ m.body.listeners.connections) : l.name = name := by
  have mem : (name, id) ∈ m.connections := by
    obtain ⟨before, after, split, _⟩ := List.lookup_eq_some_iff.mp known
    simp [split]
  exact (h.named name id mem).2 l here

theorem Hears.disconnect (h : m.Hears who) {name : String} {id : Ticket}
    (known : m.connections.lookup name = some id) (other : name ≠ who) :
    Hears { m with body := m.body.mapListeners fun s => (s.disconnect id).1 } who := by
  have kept : ∀ c ∈ m.body.listeners.connections,
      ((c.2.name == who) && (c.1 != id)) = (c.2.name == who) := by
    intro c hc
    by_cases he : c.1 = id
    · have hname : c.2.name = name := h.name_of_lookup known (he ▸ hc)
      simp [hname, other]
    · simp [he]
  have same : ((m.body.listeners.disconnect id).1.slots.filter fun l => l.name == who) =
      m.body.listeners.slots.filter fun l => l.name == who := by
    simp only [Signal.slots_eq, Signal.connections_disconnect, List.filter_map, List.filter_filter]
    exact congrArg _ (List.filter_congr kept)
  refine ⟨h.toOrderly.disconnect id, ?_⟩
  rw [Body.listeners_mapListeners (fun s => (s.disconnect id).1) h.shared, same]
  exact h.once

theorem Hears.congr (h : m.Hears who) (shared : m'.body.shared = m.body.shared)
    (listeners : m'.body.listeners = m.body.listeners)
    (connections : m'.connections = m.connections) : m'.Hears who :=
  ⟨h.toOrderly.congr shared listeners connections, listeners ▸ h.once⟩

end Member

namespace World

/-- A command that leaves the connection of one listener of a member alone. -/
def KeepsListener (key : Nat) (who : String) (k : Nat) (c : Command α) : Prop :=
  k = key → c ≠ .unlistenAll ∧ c ≠ .unlisten who ∧ ∀ form acts, c ≠ .listen who form acts

/-- A command that does not lead to a write to a member: it commits nothing there, draws nothing, and
hands out no handle under a safe name. -/
def Silent (key : Nat) (safe : String → Prop) (k : Nat) (c : Command α) : Prop :=
  (k = key → c.writes = false ∧ ∀ name, c = .takeHandle name → ¬ safe name) ∧
    ∀ label, c ≠ .draw label

def silence (key : Nat) (safe : String → Prop) : Rules α where
  command := Silent key safe
  poke := safe
  handle name k := safe name → k ≠ key
  act k
    | .command _ c => Silent key safe k c
    | .poke p => safe p.handle
  act_command := id
  act_poke := id
  taken h hs hk := (h.1 hk).2 _ rfl hs
  drawn h := absurd rfl (h.2 _)

structure Hushed (key : Nat) (who : String) (w w' : World α) : Prop where
  commits : w'.commits key = w.commits key
  calls : w'.calls key who = w.calls key who

def Muted (key k : Nat) (_ _ : Body α) (change : Option (Change α)) : Prop :=
  k = key → change = none

section Silence

variable {key : Nat} {who : String} {safe : String → Prop}

theorem hushed_refl (w : World α) : Hushed key who w w := ⟨rfl, rfl⟩

theorem hushed_trans (a b c : World α) (h : Hushed key who a b) (h' : Hushed key who b c) :
    Hushed key who a c :=
  ⟨h'.commits.trans h.commits, h'.calls.trans h.calls⟩

theorem hushed_record (w : World α) {e : Event α} (commit : e.commit? key = none)
    (call : e.call? key who = none) : Hushed key who w (w.record e) :=
  ⟨by simp [commit], by simp [call]⟩

variable [BEq α] {depth : Nat}

theorem steps_muted (key : Nat) (safe : String → Prop) (k : Nat) :
    Body.Steps ((silence key safe : Rules α).command k) ((silence key safe : Rules α).Pokes k)
      (Muted key k) where
  written b v h hk := by
    rcases h with ⟨name, hs, hn⟩ | h
    · exact absurd hk (hn hs)
    · cases (h.1 hk).1
  drawn b before r v label h := absurd rfl (h.2 label)
  called m c h hk := Call.step_quiet (h.1 hk).1
  edited type b e s h known hk := Edit.step_quiet (h.1 hk).1 known

theorem hushed_told (runs : Runs (silence key safe : Rules α) (Hushed key who) depth) {w : World α}
    {k : Nat} {m : Member α} {b : Body α} {change : Change α} (_ : w.member? k = some m)
    (h : Muted key k m.body b (some change)) :
    Under (silence key safe) (Hushed key who) w
      ((w.commit k m b change).notify (react depth) k change) := by
  have hk : k ≠ key := fun hk => nomatch h hk
  have committed : Hushed key who w (w.commit k m b change) := ⟨by simp [hk], by simp⟩
  exact commit_notify_under hushed_refl hushed_trans runs committed
    fun w _ _ => hushed_record w rfl (Event.call?_of_ne hk ..)

/-- Under these rules nothing is committed and nobody is called, however deep scripts are nested. -/
theorem hushed_course (key : Nat) (who : String) (safe : String → Prop) :
    Course (silence key safe : Rules α) (Muted key) (Hushed key who) :=
  Routine.course
    { refl := hushed_refl
      trans := hushed_trans
      steps := steps_muted key safe
      note := fun w e h => hushed_record w (h.commit? key) (h.call? key who)
      scripts := fun _ _ _ => ⟨rfl, rfl⟩
      handle := fun _ _ _ _ => ⟨rfl, rfl⟩
      outside := fun _ _ _ _ => ⟨rfl, rfl⟩
      turn := fun _ _ _ => ⟨rfl, rfl⟩
      read := fun w k v => hushed_record w rfl rfl
      stored := fun w _ _ _ => hushed_trans _ _ _ (hushed_record w rfl rfl) ⟨rfl, rfl⟩
      pulled := by
        rintro k b b' change (h | h | h) _ hk
        all_goals cases (h.1 hk).1
      told := hushed_told }

end Silence

/-- Requests that leave the connection of a listener alone. When `quiet` is demanded, scripts do not
write to the member either. -/
def hearing (key : Nat) (who : String) (quiet : Prop) (safe : String → Prop) : Rules α where
  command k c := KeepsListener key who k c ∧
    (quiet → k = key → ∀ name, c = .takeHandle name → ¬ safe name)
  handle name k := quiet → safe name → k ≠ key
  act k
    | .command _ c => (KeepsListener key who k c ∧
        (quiet → k = key → ∀ name, c = .takeHandle name → ¬ safe name)) ∧
        (quiet → Silent key safe k c)
    | .poke p => quiet → safe p.handle
  act_command h := h.1
  act_poke _ := trivial
  taken h hq hs hk := h.2 hq hk _ rfl hs
  drawn _ _ := trivial

/-- The listener is connected, and connections can be told apart. -/
def Hears (w : World α) (key : Nat) (who : String) : Prop :=
  ∃ m, w.member? key = some m ∧ m.Hears who

/-- What was committed and who was called between two worlds. `owed` are calls for commits that came
before. -/
structure Exchange [BEq α] (key : Nat) (who : String) (owed cs ds : List (Change α))
    (w w' : World α) : Prop where
  commits : w'.commits key = w.commits key ++ cs
  calls : w'.calls key who = w.calls key who ++ ds
  balance : ds.Perm (owed ++ cs.filter Change.differs)
  trail : ∀ v, w.value? key = some v → ∃ u, w'.value? key = some u ∧ Change.Trail v cs u

/-- Every commit that changed the value is told once; in order, when scripts are quiet. -/
def Told [BEq α] (key : Nat) (who : String) (quiet : Prop) (w w' : World α) : Prop :=
  w.Hears key who → w'.Hears key who ∧ ∃ cs ds, Exchange key who [] cs ds w w' ∧
    (quiet → ds = cs.filter Change.differs)

/-- Listeners are being told. Quiet ones commit nothing meanwhile. -/
def Telling [BEq α] (key : Nat) (who : String) (quiet : Prop) (owed : List (Change α))
    (w w' : World α) : Prop :=
  w.Hears key who → w'.Hears key who ∧ ∃ cs ds, Exchange key who owed cs ds w w' ∧
    (quiet → cs = [] ∧ ds = owed)

section Hearing

variable {key : Nat} {who : String} {quiet : Prop} {safe : String → Prop} {w w' w'' : World α}

/-- Scripts that are quiet by the one set of rules are so by the other. -/
theorem Obeys.silence (h : w.Obeys (hearing key who quiet safe)) (hq : quiet) :
    w.Obeys (silence key safe) := by
  have acts : ∀ (k : Nat) (a : Act α), a.Always ((hearing key who quiet safe).act k) →
      a.Always ((World.silence key safe).act k) := by
    intro k a ha
    induction ha with
    | @intro a here _ ih =>
      refine .intro ?_ ih
      cases a with
      | command times c => exact here.2 hq
      | poke p => exact here hq
  exact ⟨fun s hs a ha => acts _ _ (h.scripts s hs a ha), fun name k hk => h.handles name k hk hq⟩

theorem turns_orderly {m m' : Member α} (h : m.Turns .free (fun _ => Body.Faithful) key m')
    (orderly : m.Orderly) : m'.Orderly := by
  cases h with
  | cell | clearChanged | widget | drawn | bindGetter | bindSetter =>
    exact orderly.congr (by simp) (by simp) rfl
  | listen => exact orderly.connect _
  | unlisten => exact orderly.disconnect _
  | unlistenAll => exact orderly.disconnectAll
  | step h => exact orderly.congr h.shared h.listeners rfl

theorem turns_hears {m m' : Member α}
    (h : m.Turns (hearing key who quiet safe) (fun _ => Body.Faithful) key m')
    (hears : m.Hears who) : m'.Hears who := by
  cases h with
  | cell | clearChanged | widget | drawn | bindGetter | bindSetter =>
    exact hears.congr (by simp) (by simp) rfl
  | listen h script =>
    have other := (h.1 rfl).2.2
    refine hears.connect ?_
    rintro rfl
    exact other _ _ rfl
  | unlisten h known =>
    have other := (h.1 rfl).2.1
    refine hears.disconnect known ?_
    rintro rfl
    exact other rfl
  | unlistenAll h => exact absurd rfl (h.1 rfl).1
  | step h => exact hears.congr h.shared h.listeners rfl

section Exchanges

variable [BEq α] {owed owed' cs cs' ds ds' : List (Change α)}

/-- What is owed, committed and called adds up. -/
theorem Exchange.trans (h : Exchange key who owed cs ds w w')
    (h' : Exchange key who owed' cs' ds' w' w'') :
    Exchange key who (owed ++ owed') (cs ++ cs') (ds ++ ds') w w'' where
  commits := by rw [h'.commits, h.commits, List.append_assoc]
  calls := by rw [h'.calls, h.calls, List.append_assoc]
  balance := by
    have swap : (owed ++ cs.filter Change.differs ++ (owed' ++ cs'.filter Change.differs)).Perm
        (owed ++ owed' ++ (cs ++ cs').filter Change.differs) := by
      rw [List.filter_append, List.append_assoc, List.append_assoc]
      refine List.Perm.append_left owed ?_
      rw [← List.append_assoc, ← List.append_assoc]
      exact List.Perm.append_right _ List.perm_append_comm
    exact (h.balance.append h'.balance).trans swap
  trail v hv := by
    obtain ⟨u, hu, first⟩ := h.trail v hv
    obtain ⟨t, ht, second⟩ := h'.trail u hu
    exact ⟨t, ht, first.append second⟩

theorem exchange_nothing (commits : w'.commits key = w.commits key)
    (calls : w'.calls key who = w.calls key who) (value : w'.value? key = w.value? key) :
    Exchange key who [] [] [] w w' where
  commits := by rw [commits, List.append_nil]
  calls := by rw [calls, List.append_nil]
  balance := .refl _
  trail v hv := ⟨v, value.trans hv, rfl⟩

theorem told_nothing (hears : w.Hears key who → w'.Hears key who)
    (commits : w'.commits key = w.commits key) (calls : w'.calls key who = w.calls key who)
    (value : w.Hears key who → w'.value? key = w.value? key) : Told key who quiet w w' :=
  fun h => ⟨hears h, [], [], exchange_nothing commits calls (value h), fun _ => rfl⟩

theorem told_refl (w : World α) : Told key who quiet w w := told_nothing id rfl rfl fun _ => rfl

theorem told_trans (a b c : World α) (h : Told key who quiet a b) (h' : Told key who quiet b c) :
    Told key who quiet a c := by
  intro ha
  obtain ⟨hb, cs, ds, first, order⟩ := h ha
  obtain ⟨hc, cs', ds', second, order'⟩ := h' hb
  refine ⟨hc, cs ++ cs', ds ++ ds', first.trans second, fun hq => ?_⟩
  rw [order hq, order' hq, List.filter_append]

theorem telling_refl (w : World α) : Telling key who quiet [] w w :=
  fun h => ⟨h, [], [], exchange_nothing rfl rfl rfl, fun _ => ⟨rfl, rfl⟩⟩

theorem Telling.trans (h : Telling key who quiet owed w w')
    (h' : Telling key who quiet owed' w' w'') : Telling key who quiet (owed ++ owed') w w'' := by
  intro ha
  obtain ⟨hb, cs, ds, first, order⟩ := h ha
  obtain ⟨hc, cs', ds', second, order'⟩ := h' hb
  refine ⟨hc, cs ++ cs', ds ++ ds', first.trans second, fun hq => ?_⟩
  obtain ⟨rfl, rfl⟩ := order hq
  obtain ⟨rfl, rfl⟩ := order' hq
  exact ⟨rfl, rfl⟩

end Exchanges

section Happenings

variable [BEq α] {depth : Nat}

theorem told_record (w : World α) {e : Event α} (commit : e.commit? key = none)
    (call : e.call? key who = none) : Told key who quiet w (w.record e) :=
  told_nothing id (by simp [commit]) (by simp [call]) fun _ => rfl

/-- Nothing is told of a turn, and nothing is owed for it. -/
theorem told_turn {k : Nat} {m m' : Member α} {ss : List (Script α)} (hm : w.member? k = some m)
    (h : m.Turns (hearing key who quiet safe) (fun _ => Body.Faithful) k m')
    (_ : Continues w.scripts ss) : Told key who quiet w { w.setMember k m' with scripts := ss } := by
  refine told_nothing (fun hears => ?_) rfl rfl fun hears => ?_
  · exact Meets.setMember hears hm m' fun hk => by
      subst hk
      exact turns_hears h
  · obtain ⟨n, hn, hh⟩ := hears
    change ((w.setMember k m').body? key).map Body.value = _
    rw [body?_setMember hm]
    split
    · rename_i hk
      subst hk
      cases hm.symm.trans hn
      rw [value?_of_member? hm, ← h.value hh.shared]
      rfl
    · rfl

/-- What a listener does. A quiet one commits nothing. -/
theorem telling_script
    (runs : Runs (hearing key who quiet safe : Rules α) (Told key who quiet) depth) (s : Nat)
    (w : World α) :
    Under (hearing key who quiet safe) (Telling key who quiet []) w (react depth s w) := by
  intro ho
  obtain ⟨ho', told⟩ := runs s w ho
  refine ⟨ho', fun hears => ?_⟩
  obtain ⟨hears', cs, ds, exchange, _⟩ := told hears
  refine ⟨hears', cs, ds, exchange, fun hq => ?_⟩
  obtain ⟨_, hushed⟩ := (hushed_course key who safe).runs depth s w (ho.silence hq)
  exact ⟨List.self_eq_append_right.mp (hushed.commits.symm.trans exchange.commits),
    List.self_eq_append_right.mp (hushed.calls.symm.trans exchange.calls)⟩

theorem telling_call
    (runs : Runs (hearing key who quiet safe : Rules α) (Told key who quiet) depth)
    (change : Change α) (l : Listener) (w : World α) :
    Under (hearing key who quiet safe)
      (Telling key who quiet (if l.name = who then [change] else [])) w
      (w.call (react depth) key change l) := by
  have noted : Under (hearing key who quiet safe)
      (Telling key who quiet (if l.name = who then [change] else [])) w
      (w.record (.notified key l.name l.form change)) := by
    refine .of_same rfl rfl fun hears => ?_
    refine ⟨hears, [], _, ⟨by simp [Event.commit?], ?_, ?_, fun v hv => ⟨v, hv, rfl⟩⟩,
      fun _ => ⟨rfl, rfl⟩⟩
    · simp only [calls_record, Event.call?, true_and]
      split <;> rfl
    · simp
  have script : Under (hearing key who quiet safe) (Telling key who quiet [])
      (w.record (.notified key l.name l.form change)) (w.call (react depth) key change l) := by
    unfold call
    cases l.script with
    | none => exact .of_same rfl rfl (telling_refl _)
    | some s => exact telling_script runs s _
  refine noted.comp script fun h h' => ?_
  have both := h.trans h'
  rwa [List.append_nil] at both

/-- Listeners are told one after the other. Each call is owed once for every listener of the name. -/
theorem telling_fold
    (runs : Runs (hearing key who quiet safe : Rules α) (Told key who quiet) depth)
    (change : Change α) (ls : List Listener) (w : World α) :
    Under (hearing key who quiet safe)
      (Telling key who quiet ((ls.filter fun l => l.name == who).map fun _ => change)) w
      (ls.foldl (fun w l => w.call (react depth) key change l) w) := by
  induction ls generalizing w with
  | nil => exact .of_same rfl rfl (telling_refl w)
  | cons l ls ih =>
    refine (telling_call runs change l w).comp (ih _) fun h h' => ?_
    have both := h.trans h'
    by_cases hl : l.name = who
    · simpa [hl] using both
    · simpa [hl] using both

/-- A commit that changed the value is told once to the listener, any other not at all. -/
theorem telling_notify
    (runs : Runs (hearing key who quiet safe : Rules α) (Told key who quiet) depth)
    (change : Change α) (w : World α) :
    Under (hearing key who quiet safe)
      (Telling key who quiet ([change].filter Change.differs)) w
      (w.notify (react depth) key change) := by
  intro ho
  unfold notify
  split
  · rename_i ls heard
    obtain ⟨ho', telling⟩ := telling_fold runs change ls w ho
    refine ⟨ho', fun hears => ?_⟩
    obtain ⟨m, hm, hh⟩ := hears
    have audience : change.differs = true ∧ ls = m.body.listeners.slots := by
      simp only [hm, Option.bind_some, Change.audience] at heard
      split at heard
      · cases heard
      · rename_i hd
        refine ⟨by simpa [Change.differs] using hd, ?_⟩
        simpa [Signal.snapshot, hh.unblocked] using heard.symm
    obtain ⟨differs, rfl⟩ := audience
    have owed : ((m.body.listeners.slots.filter fun l => l.name == who).map fun _ => change) =
        [change].filter Change.differs := by
      rw [List.map_const', hh.once, List.filter_cons_of_pos differs]
      rfl
    exact owed ▸ telling ⟨m, hm, hh⟩
  · rename_i unheard
    refine ⟨ho, fun hears => ?_⟩
    obtain ⟨m, hm, hh⟩ := hears
    have same : change.differs = false := by
      simp only [hm, Option.bind_some, Change.audience] at unheard
      split at unheard
      · rename_i hd
        simpa [Change.differs] using hd
      · cases unheard
    rw [List.filter_cons_of_neg (by simp [same])]
    exact telling_refl w ⟨m, hm, hh⟩

/-- The commit is recorded before the listeners are told of it. -/
theorem told_commit
    (runs : Runs (hearing key who quiet safe : Rules α) (Told key who quiet) depth)
    {m : Member α} {b : Body α} {change : Change α} (hm : w.member? key = some m)
    (h : m.body.Faithful b (some change)) :
    Under (hearing key who quiet safe) (Told key who quiet) w
      ((w.commit key m b change).notify (react depth) key change) := by
  intro ho
  obtain ⟨ho', telling⟩ := telling_notify runs change _ (ho.commit key m b change)
  refine ⟨ho', fun hears => ?_⟩
  have committed : (w.commit key m b change).Hears key who :=
    Meets.setMember hears hm { m with body := b } fun _ hh => hh.congr h.shared h.listeners rfl
  obtain ⟨hears', cs, ds, exchange, order⟩ := telling committed
  obtain ⟨n, hn, hh⟩ := hears
  cases hm.symm.trans hn
  have accounts : change = ⟨m.body.value, b.value⟩ := h.value hh.shared
  refine ⟨hears', change :: cs, ds, ⟨?_, ?_, ?_, ?_⟩, fun hq => ?_⟩
  · simp [exchange.commits]
  · simp [exchange.calls]
  · have balance := exchange.balance
    rwa [← List.filter_append] at balance
  · intro v hv
    have value : (w.commit key m b change).value? key = some b.value := by
      simp only [value?, body?_commit hm, ↓reduceIte, Option.map_some]
    obtain ⟨u, hu, trail⟩ := exchange.trail _ value
    rw [value?_of_member? hm] at hv
    cases hv
    exact ⟨u, hu, by rw [accounts], by rw [accounts]; exact trail⟩
  · obtain ⟨rfl, rfl⟩ := order hq
    rfl

/-- A commit to another member calls nobody here. -/
theorem told_elsewhere
    (runs : Runs (hearing key who quiet safe : Rules α) (Told key who quiet) depth) {k : Nat}
    {m : Member α} {b : Body α} {change : Change α} (hm : w.member? k = some m) (hk : k ≠ key) :
    Under (hearing key who quiet safe) (Told key who quiet) w
      ((w.commit k m b change).notify (react depth) k change) := by
  have committed : Told key who quiet w (w.commit k m b change) := by
    refine told_nothing (fun hears => ?_) (by simp [hk]) (by simp) fun _ => ?_
    · exact Meets.setMember hears hm { m with body := b } fun h => absurd h hk
    · simp only [value?, body?_commit hm, if_neg (Ne.symm hk)]
  exact commit_notify_under told_refl told_trans runs committed
    fun w _ _ => told_record w rfl (Event.call?_of_ne hk ..)

theorem told_announce
    (runs : Runs (hearing key who quiet safe : Rules α) (Told key who quiet) depth) {k : Nat}
    {m : Member α} {b : Body α} {change : Change α} (hm : w.member? k = some m)
    (h : m.body.Faithful b (some change)) :
    Under (hearing key who quiet safe) (Told key who quiet) w
      ((w.commit k m b change).notify (react depth) k change) := by
  by_cases hk : k = key
  · subst hk
    exact told_commit runs hm h
  · exact told_elsewhere runs hm hk

/-- Every commit is told once to the listener, whatever is going on. -/
theorem told_course (key : Nat) (who : String) (quiet : Prop) (safe : String → Prop) :
    Course (hearing key who quiet safe : Rules α) (fun _ => Body.Faithful)
      (Told key who quiet) :=
  Routine.course
    { refl := told_refl
      trans := told_trans
      steps := fun _ => Body.steps_faithful ..
      note := fun w _ h => told_record w (h.commit? key) (h.call? key who)
      scripts := fun _ _ _ => told_nothing id rfl rfl fun _ => rfl
      handle := fun _ _ _ _ => told_nothing id rfl rfl fun _ => rfl
      outside := fun _ _ _ _ => told_nothing id rfl rfl fun _ => rfl
      turn := told_turn
      read := fun w _ _ => told_record w rfl rfl
      stored := fun w _ _ _ =>
        told_trans _ _ _ (told_record w rfl rfl) (told_nothing id rfl rfl fun _ => rfl)
      pulled := fun _ moves => moves.faithful
      told := fun runs => told_announce runs }

theorem orderly_kept (key : Nat) :
    Kept (.free : Rules α) (fun _ => Body.Faithful) key Member.Orderly where
  steps _ := Body.steps_faithful ..
  pulled _ moves := moves.faithful
  turn := turns_orderly
  commit h orderly := orderly.congr h.shared h.listeners rfl

/-- Connections can be told apart at all times, whatever is requested. -/
theorem orderly_serveAll (orderly : w.Meets key Member.Orderly) (depth : Nat)
    (qs : List (Request α)) : (w.serveAll depth qs).Meets key Member.Orderly :=
  ((orderly_kept key).course.serveAll (fun q _ => Rules.free_admits q) depth w
    (obeys_free w)).2 orderly

/-- A listener under a new name is heard from the moment that it connects. -/
theorem listen_hears {m : Member α} (hm : w.member? key = some m) (orderly : m.Orderly)
    (new : ∀ l ∈ m.body.listeners.slots, l.name ≠ who) (form : ListenerForm) (acts : List (Act α))
    (depth : Nat) : (w.serve depth (.command key (.listen who form acts))).Hears key who := by
  have armed : (w.arm key who acts).1.member? key = some m := hm
  have hears : (m.connect ⟨who, form, some w.scripts.length⟩).Hears who := orderly.hears new
  refine ⟨_, ?_, hears⟩
  simp only [serve, exec, hm, orderly.shared, ↓reduceIte, execShared, listen]
  rw [modify_of_member? armed]
  exact member?_setMember_self armed _

/-- What a run shows of a member and of one of its listeners: the commits lead from the value at the
start to the value at the end, and the calls are one for each commit that replaced the value by a
different one, with just that change. In a quiet run they come in the order of the commits, and they
too lead from the one value to the other. -/
def Reported (key : Nat) (who : String) (quiet : Prop) (w w' : World α) : Prop :=
  ∃ v u cs ds, w.value? key = some v ∧ w'.value? key = some u ∧
    w'.commits key = w.commits key ++ cs ∧ w'.calls key who = w.calls key who ++ ds ∧
    Change.Trail v cs u ∧ ds.Perm (cs.filter Change.differs) ∧
    (quiet → ds = cs.filter Change.differs ∧ Change.Trail v ds u)

/-- **Exactly once.** Whatever is requested, and whatever the listeners do to the value meanwhile, a
listener that stays connected is called exactly once for each commit that changed the value. When no
script writes to the value, it hears of the commits in their order. -/
theorem notified_once [LawfulBEq α] (hears : w.Hears key who)
    (obeys : w.Obeys (hearing key who quiet safe)) {qs : List (Request α)}
    (admits : ∀ q ∈ qs, (hearing key who quiet safe).Admits q) (depth : Nat) :
    Reported key who quiet w (w.serveAll depth qs) := by
  obtain ⟨_, told⟩ := (told_course key who quiet safe).serveAll admits depth w obeys
  obtain ⟨_, cs, ds, exchange, order⟩ := told hears
  obtain ⟨m, hm, _⟩ := hears
  obtain ⟨u, hu, trail⟩ := exchange.trail _ (value?_of_member? hm)
  refine ⟨_, u, cs, ds, value?_of_member? hm, hu, exchange.commits, exchange.calls, trail,
    exchange.balance, fun hq => ?_⟩
  rw [order hq]
  exact ⟨rfl, trail.filter⟩

end Happenings

def overheard (first : Act Nat) : World Nat :=
  ((solo .full true).serve 0 (.command 0 (.listen "echo" .pair [first]))).serve 0
    (.command 0 (.listen "ear" .pair []))

theorem overheard_hears (first : Act Nat) : (overheard first).Hears 0 "ear" :=
  listen_hears rfl ((Member.orderly_of_none rfl rfl rfl).connect _)
    (fun l hl => by cases List.mem_singleton.mp hl; decide) .pair [] 0

theorem overheard_obeys {r : Rules Nat} {c : Command Nat} (plain : c.acts = [])
    (act : r.act 0 (.command 1 c)) : (overheard (.command 1 c)).Obeys r where
  scripts s hs a ha := by
    have listener : s ∈ [(⟨0, "echo", [(.command 1 c, some 1)]⟩ : Script Nat), ⟨0, "ear", []⟩] := hs
    simp only [List.mem_cons, List.not_mem_nil, or_false] at listener
    rcases listener with rfl | rfl
    · cases List.mem_singleton.mp ha
      exact .of_plain act plain
    · cases ha
  handles name k hk := nomatch hk

/-- The first listener writes once more, or else only stages. -/
theorem reported_when_others_write_or_stage :
    Reported 0 "ear" False (overheard (.command 1 (.edit (.set 9))))
      ((overheard (.command 1 (.edit (.set 9)))).serveAll 5
        [.command 0 (.edit (.set 5)), .command 0 (.edit .undo)]) ∧
    Reported 0 "ear" True (overheard (.command 1 (.edit (.stage 9))))
      ((overheard (.command 1 (.edit (.stage 9)))).serveAll 5
        [.command 0 (.edit (.set 5)), .command 0 (.edit .undo)]) := by
  have admits : ∀ {quiet : Prop} (q : Request Nat),
      q ∈ [.command 0 (.edit (.set 5)), .command 0 (.edit .undo)] →
      (hearing 0 "ear" quiet fun _ => False).Admits q := by
    intro quiet q hq
    simp only [List.mem_cons, List.not_mem_nil, or_false] at hq
    rcases hq with rfl | rfl
    all_goals exact .command (.of_plain ⟨fun _ => by simp, fun _ _ => by simp⟩ rfl)
  have writes : (overheard (.command 1 (.edit (.set 9)))).Obeys
      (hearing 0 "ear" False fun _ => False) :=
    overheard_obeys rfl ⟨⟨fun _ => by simp, fun _ _ => by simp⟩, False.elim⟩
  have stages : (overheard (.command 1 (.edit (.stage 9)))).Obeys
      (hearing 0 "ear" True fun _ => False) :=
    overheard_obeys rfl ⟨⟨fun _ => by simp, fun _ _ => by simp⟩,
      fun _ => ⟨fun _ => ⟨rfl, by simp⟩, by simp⟩⟩
  exact ⟨notified_once (overheard_hears _) writes admits 5,
    notified_once (overheard_hears _) stages admits 5⟩

end Hearing

end World

end BoundValues
