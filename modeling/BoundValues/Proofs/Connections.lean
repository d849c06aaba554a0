import BoundValues.Part.Signal
import Mathlib.Data.List.Nodup

namespace BoundValues

variable {M : Type → Type} [SlotMap M] {σ : Type}

namespace Signal

variable (s : Signal σ M) (slot : σ) (id : Ticket)

theorem mem_connections {x : σ} : (id, x) ∈ s.connections ↔ s.slot? id = some x := by
  have live (h : s.slot? id = some x) : id ∈ s.order := (s.live id).mpr (Option.isSome_of_eq_some h)
  simp only [connections, List.mem_filterMap, Option.map_eq_some_iff, Prod.mk.injEq]
  constructor
  · rintro ⟨_, -, _, found, rfl, rfl⟩
    exact found
  · exact fun found => ⟨id, live found, x, found, rfl, rfl⟩

theorem slots_eq : s.slots = s.connections.map Prod.snd := by
  simp [slots, connections, List.map_filterMap, Function.comp_def]

/-- No ticket in the order leads nowhere. -/
theorem order_eq : s.order = s.connections.map Prod.fst := by
  rw [connections, List.map_filterMap]
  refine ((List.filterMap_congr fun id here => ?_).trans s.order.filterMap_some).symm
  obtain ⟨x, hx⟩ := Option.isSome_iff_exists.mp ((s.live id).mp here)
  simp [slot?, hx]

theorem length_slots : s.slots.length = s.count := by
  rw [count, s.counted, s.order_eq, s.slots_eq, List.length_map, List.length_map]

theorem slot?_connect (slot : σ) (id : Ticket) :
    (s.connect slot).1.slot? id = if id = s.next then some slot else s.slot? id :=
  SlotMap.get?_insert ..

theorem slot?_disconnect (other : Ticket) :
    (s.disconnect id).1.slot? other = if other = id then none else s.slot? other := by
  unfold disconnect
  split
  · exact SlotMap.get?_remove ..
  · rename_i missing
    split
    · rename_i same
      exact same ▸ Option.not_isSome_iff_eq_none.mp missing
    · rfl

/-- A new connection comes last, whichever socket it gets. -/
theorem connections_connect :
    (s.connect slot).1.connections = s.connections ++ [(s.next, slot)] := by
  have old : ∀ id ∈ s.order, id ≠ s.next := fun id here same => s.next_notMem (same ▸ here)
  have entered : (s.connect slot).1.order = s.order ++ [s.next] := rfl
  rw [connections, entered, List.filterMap_append]
  congr 1
  · refine List.filterMap_congr fun id here => ?_
    rw [slot?_connect, if_neg (old id here)]
  · simp [slot?_connect]

theorem slots_connect : (s.connect slot).1.slots = s.slots ++ [slot] := by
  simp [slots_eq, connections_connect]

/-- A ticket whose slot is gone disconnects nothing. -/
theorem disconnect_of_missing (missing : s.connected id = false) : s.disconnect id = (s, false) := by
  simp [disconnect, missing]

theorem disconnect_found : (s.disconnect id).2 = s.connected id := by
  unfold disconnect
  split
  · rename_i live
    exact live.symm
  · rename_i missing
    exact (Bool.eq_false_iff.mpr missing).symm

theorem order_disconnect : (s.disconnect id).1.order = s.order.filter fun other => other != id := by
  unfold disconnect
  split
  · rfl
  · rename_i missing
    refine (List.filter_eq_self.mpr fun other here => ?_).symm
    have differ : other ≠ id := fun same => missing (same ▸ (s.live other).mp here)
    simpa using differ

/-- The others keep their places when one is taken out. -/
theorem connections_disconnect :
    (s.disconnect id).1.connections = s.connections.filter fun c => c.1 != id := by
  rw [connections, connections, List.filter_filterMap, order_disconnect, List.filterMap_filter]
  refine List.filterMap_congr fun other _ => ?_
  rw [slot?_disconnect]
  by_cases h : other = id <;> cases s.slot? other <;> simp [h, Option.filter_some]

theorem blocked_disconnect : (s.disconnect id).1.blocked = s.blocked := by
  unfold disconnect
  split <;> rfl

section Tickets

variable {s id}

theorem issued_of_mem {c : Ticket × σ} (h : c ∈ s.connections) : s.Issued c.1 :=
  SlotMap.issued_of_live _ (Option.isSome_of_eq_some ((s.mem_connections c.1).mp h))

/-- No ticket is given again. -/
theorem not_issued_next : ¬s.Issued s.next := SlotMap.not_issued_next _

theorem issued_next : (s.connect slot).1.Issued s.next := SlotMap.issued_next ..

theorem Issued.connect (given : s.Issued id) : (s.connect slot).1.Issued id :=
  SlotMap.issued_insert given slot

theorem Issued.disconnect (given : s.Issued id) (other : Ticket) :
    (s.disconnect other).1.Issued id := by
  unfold Signal.disconnect
  split
  · exact SlotMap.issued_remove given other
  · exact given

theorem Issued.disconnectAll (given : s.Issued id) : s.disconnectAll.Issued id :=
  SlotMap.issued_clear given

end Tickets

/-- What becomes of a signal: the tickets that were given stay so, and none of them leads to anything
that it did not lead to before. -/
structure Onward (s s' : Signal σ M) : Prop where
  issued {id : Ticket} (given : s.Issued id) : s'.Issued id
  same {id : Ticket} (given : s.Issued id) {x : σ} (found : s'.slot? id = some x) :
    s.slot? id = some x

section Onward

variable {s s' s'' : Signal σ M}

theorem Onward.refl (s : Signal σ M) : s.Onward s := ⟨id, fun _ => id⟩

theorem Onward.trans (h : s.Onward s') (h' : s'.Onward s'') : s.Onward s'' where
  issued given := h'.issued (h.issued given)
  same given _ found := h.same given (h'.same (h.issued given) found)

/-- A socket that is used again has a new ticket, so no old one leads there. -/
theorem onward_connect (s : Signal σ M) (slot : σ) : s.Onward (s.connect slot).1 where
  issued := Issued.connect slot
  same {id} given _ found := by
    have old : id ≠ s.next := fun new => not_issued_next (new ▸ given)
    rwa [slot?_connect, if_neg old] at found

theorem onward_disconnect (s : Signal σ M) (id : Ticket) : s.Onward (s.disconnect id).1 where
  issued given := given.disconnect id
  same _ _ found := by
    rw [slot?_disconnect] at found
    split at found
    · cases found
    · exact found

theorem onward_disconnectAll (s : Signal σ M) : s.Onward s.disconnectAll where
  issued := Issued.disconnectAll
  same {id} _ _ found := by
    have cleared : s.disconnectAll.slot? id = none := SlotMap.get?_clear ..
    cases cleared.symm.trans found

end Onward

/-- A signal whose connections are those of a list, the one made first in front. -/
structure Lists (s : Signal σ M) (live : List (Ticket × σ)) : Prop where
  order : s.order = live.map Prod.fst
  distinct : s.order.Nodup
  found (id : Ticket) (x : σ) : s.slot? id = some x ↔ (id, x) ∈ live
  slots : s.slots = live.map Prod.snd
  count : s.count = s.order.length

theorem lists_connections (s : Signal σ M) : s.Lists s.connections where
  order := s.order_eq
  distinct := s.distinct
  found id _ := (s.mem_connections id).symm
  slots := s.slots_eq
  count := s.counted

/-- Whoever is in the list can be disconnected, once. Nobody else is touched. -/
structure Releases (s : Signal σ M) (live : List (Ticket × σ)) (id : Ticket) : Prop where
  told : (s.disconnect id).2 = true ↔ ∃ x, (id, x) ∈ live
  removed : (s.disconnect id).1.Lists (live.filter fun c => c.1 != id)
  others (other : Ticket) (h : other ≠ id) :
    (s.disconnect id).1.slot? other = s.slot? other
  missing (h : ¬∃ x, (id, x) ∈ live) : s.disconnect id = (s, false)

theorem releases_connections (s : Signal σ M) (id : Ticket) : s.Releases s.connections id := by
  have live : s.connected id = true ↔ ∃ x, (id, x) ∈ s.connections := by
    simp only [s.mem_connections, connected, Option.isSome_iff_exists]
  refine ⟨by rw [s.disconnect_found, live], ?_, ?_, ?_⟩
  · rw [← s.connections_disconnect]
    exact lists_connections _
  · intro other h
    rw [slot?_disconnect, if_neg h]
  · intro h
    exact s.disconnect_of_missing id (Bool.eq_false_iff.mpr fun h' => h (live.mp h'))

end Signal

inductive Wiring (σ : Type)
  | connect (slot : σ)
  | connectGuarded (slot : σ)
  | disconnect (id : Ticket)
  | disconnectAll
  | dropGuard (guard : Guard)
  | close

/-- A signal, and beside it who is connected, in the order of connecting, and every ticket that was
given. -/
structure Roster (M : Type → Type) [SlotMap M] (σ : Type) where
  signal : Option (Signal σ M) := some {}
  live : List (Ticket × σ) := []
  given : List Ticket := []

namespace Roster

def enter (r : Roster M σ) (s : Signal σ M) (id : Ticket) (slot : σ) : Roster M σ :=
  { signal := some s, live := r.live ++ [(id, slot)], given := r.given ++ [id] }

def strike (r : Roster M σ) (s : Option (Signal σ M)) (id : Ticket) : Roster M σ :=
  { r with signal := s, live := r.live.filter fun c => c.1 != id }

def wire (r : Roster M σ) (w : Wiring σ) : Roster M σ :=
  match r.signal, w with
  | none, _ => r
  | some s, .connect slot => r.enter (s.connect slot).1 (s.connect slot).2 slot
  | some s, .connectGuarded slot => r.enter (s.connectGuarded slot).1 (s.connectGuarded slot).2.id slot
  | some s, .disconnect id => r.strike (some (s.disconnect id).1) id
  | some s, .disconnectAll => { r with signal := some s.disconnectAll, live := [] }
  | some s, .dropGuard guard => r.strike (guard.drop (some s)) guard.id
  | some _, .close => { r with signal := none, live := [] }

def wireAll (ws : List (Wiring σ)) (r : Roster M σ) : Roster M σ := ws.foldl wire r

/-- The roster is right: it tells who is connected, and which tickets were given. -/
structure Kept (r : Roster M σ) : Prop where
  given : r.given.Nodup
  live : (r.live.map Prod.fst).Sublist r.given
  present (s : Signal σ M) (h : r.signal = some s) : s.connections = r.live
  issued (s : Signal σ M) (h : r.signal = some s) : ∀ id ∈ r.given, s.Issued id
  absent (h : r.signal = none) : r.live = []

def Later (r r' : Roster M σ) : Prop :=
  ∀ s', r'.signal = some s' → ∃ s, r.signal = some s ∧ s.Onward s'

section Steps

variable {r r' r'' : Roster M σ} {s : Signal σ M}

theorem Later.refl (r : Roster M σ) : r.Later r := fun s hs => ⟨s, hs, .refl _⟩

theorem Later.trans (h : r.Later r') (h' : r'.Later r'') : r.Later r'' := by
  intro s'' hs''
  obtain ⟨s', hs', second⟩ := h' s'' hs''
  obtain ⟨s, hs, first⟩ := h s' hs'
  exact ⟨s, hs, first.trans second⟩

theorem kept_new : ({} : Roster M σ).Kept where
  given := List.nodup_nil
  live := .slnil
  present := by
    rintro s ⟨⟩
    rfl
  issued _ _ _ h := nomatch h
  absent h := nomatch h

/-- The ticket of a new slot was never given before. -/
theorem Kept.next_notMem (h : r.Kept) (hs : r.signal = some s) : s.next ∉ r.given :=
  fun given => Signal.not_issued_next (h.issued s hs _ given)

theorem Kept.enter (h : r.Kept) (hs : r.signal = some s) (slot : σ) :
    (r.enter (s.connect slot).1 s.next slot).Kept where
  given := h.given.append (List.nodup_singleton _) (by simpa using h.next_notMem hs)
  live := by
    simp only [Roster.enter, List.map_append]
    exact h.live.append (.refl _)
  present := by
    rintro _ ⟨⟩
    rw [s.connections_connect, h.present s hs]
    rfl
  issued := by
    rintro _ ⟨⟩ id hid
    rcases List.mem_append.mp hid with old | new
    · exact (h.issued s hs id old).connect slot
    · rw [List.mem_singleton.mp new]
      exact Signal.issued_next slot
  absent gone := nomatch gone

/-- Who is struck out keeps its ticket among those given. -/
theorem Kept.strike (h : r.Kept) (hs : r.signal = some s) (id : Ticket) :
    (r.strike (some (s.disconnect id).1) id).Kept where
  given := h.given
  live := (List.filter_sublist.map Prod.fst).trans h.live
  present := by
    rintro _ ⟨⟩
    rw [s.connections_disconnect, h.present s hs]
    rfl
  issued := by
    rintro _ ⟨⟩ other given
    exact (h.issued s hs other given).disconnect id
  absent gone := nomatch gone

/-- One step, whatever it is: the roster stays right, and the signal goes on. -/
theorem Kept.wire (h : r.Kept) (w : Wiring σ) : (r.wire w).Kept ∧ r.Later (r.wire w) := by
  unfold Roster.wire
  cases hs : r.signal with
  | none => exact ⟨h, .refl r⟩
  | some s =>
    have entered (slot : σ) : r.Later (r.enter (s.connect slot).1 s.next slot) := by
      rintro _ ⟨⟩
      exact ⟨s, hs, s.onward_connect slot⟩
    have struck (id : Ticket) : r.Later (r.strike (some (s.disconnect id).1) id) := by
      rintro _ ⟨⟩
      exact ⟨s, hs, s.onward_disconnect id⟩
    cases w with
    | connect slot => exact ⟨h.enter hs slot, entered slot⟩
    | connectGuarded slot => exact ⟨h.enter hs slot, entered slot⟩
    | disconnect id => exact ⟨h.strike hs id, struck id⟩
    | dropGuard guard => exact ⟨h.strike hs guard.id, struck guard.id⟩
    | disconnectAll =>
      refine ⟨⟨h.given, List.nil_sublist _, ?_, ?_, fun gone => nomatch gone⟩, ?_⟩
      · rintro _ ⟨⟩
        rfl
      · rintro _ ⟨⟩ id given
        exact (h.issued s hs id given).disconnectAll
      · rintro _ ⟨⟩
        exact ⟨s, hs, s.onward_disconnectAll⟩
    | close =>
      refine ⟨⟨h.given, List.nil_sublist _, ?_, ?_, fun _ => rfl⟩, ?_⟩
      · rintro _ ⟨⟩
      · rintro _ ⟨⟩
      · rintro _ ⟨⟩

/-- Induction on the run. -/
theorem Kept.wireAll (h : r.Kept) (ws : List (Wiring σ)) :
    (r.wireAll ws).Kept ∧ r.Later (r.wireAll ws) := by
  induction ws generalizing r with
  | nil => exact ⟨h, .refl r⟩
  | cons w ws ih =>
    obtain ⟨kept, first⟩ := h.wire w
    obtain ⟨kept', rest⟩ := ih kept
    exact ⟨kept', first.trans rest⟩

end Steps

/-- What comes of dropping a guard. Its ticket leads to its own slot, if that is still connected. -/
structure Guards (r : Roster M σ) (guard : Guard) (slot : σ) : Prop where
  own (x : σ) (h : (guard.id, x) ∈ r.live) : x = slot
  connected (h : (guard.id, slot) ∈ r.live) : ∃ s, guard.drop r.signal = some s ∧
    s.Lists (r.live.filter fun c => c.1 != guard.id)
  gone (h : (guard.id, slot) ∉ r.live) : guard.drop r.signal = r.signal

/-- The ticket of a slot leads to no other slot, whatever is done later. -/
theorem Kept.own {r r' : Roster M σ} {s : Signal σ M} {slot x : σ} (kept : r'.Kept)
    (later : (r.enter (s.connect slot).1 s.next slot).Later r') (mem : (s.next, x) ∈ r'.live) :
    x = slot := by
  cases hs' : r'.signal with
  | none =>
    rw [kept.absent hs'] at mem
    cases mem
  | some s' =>
    obtain ⟨_, ⟨⟩, onward⟩ := later s' hs'
    rw [← kept.present s' hs', s'.mem_connections] at mem
    have before := onward.same (Signal.issued_next slot) mem
    have there : (s.next, slot) ∈ (s.connect slot).1.connections := by
      simp [s.connections_connect]
    exact Option.some.inj (before.symm.trans (((s.connect slot).1.mem_connections _).mp there))

/-- Dropping a guard disconnects its own slot or nothing. -/
theorem Kept.guards {r : Roster M σ} (kept : r.Kept) {guard : Guard} {slot : σ}
    (own : ∀ x, (guard.id, x) ∈ r.live → x = slot) : r.Guards guard slot where
  own := own
  connected mem := by
    cases hs : r.signal with
    | none =>
      rw [kept.absent hs] at mem
      cases mem
    | some s =>
      exact ⟨_, rfl, kept.present s hs ▸ (s.releases_connections guard.id).removed⟩
  gone unheld := by
    cases hs : r.signal with
    | none => rfl
    | some s =>
      have missing : ¬∃ x, (guard.id, x) ∈ s.connections := by
        rintro ⟨x, mem⟩
        rw [kept.present s hs] at mem
        exact unheld (own x mem ▸ mem)
      exact congrArg (fun d => some d.1) ((s.releases_connections guard.id).missing missing)

/-- **Connections are exact.** Whatever was connected, disconnected and dropped, the signal's order lists
who is connected in the order of connecting, wherever their sockets are. A ticket that is given is a new
one. Disconnecting and dropping a guard take out the one slot that is meant, if it is still there, and
otherwise change nothing. -/
theorem connections_exact (ws : List (Wiring σ)) :
    let r := ({} : Roster M σ).wireAll ws
    r.given.Nodup ∧ (r.live.map Prod.fst).Sublist r.given ∧
      ∀ s, r.signal = some s → s.Lists r.live ∧ (∀ id, s.Releases r.live id) ∧
        ∀ slot, (s.connect slot).2 ∉ r.given ∧
          (s.connect slot).1.Lists (r.live ++ [((s.connect slot).2, slot)]) ∧
          ∀ later, ((r.wire (.connectGuarded slot)).wireAll later).Guards
            (s.connectGuarded slot).2 slot := by
  have start : ({} : Roster M σ).Kept := kept_new
  obtain ⟨kept, -⟩ := start.wireAll ws
  refine ⟨kept.given, kept.live, fun s hs => ?_⟩
  have live := kept.present s hs
  refine ⟨live ▸ s.lists_connections, fun id => live ▸ s.releases_connections id, fun slot => ?_⟩
  refine ⟨kept.next_notMem hs, ?_, fun later => ?_⟩
  · rw [← live]
    exact s.connections_connect slot ▸ (s.connect slot).1.lists_connections
  · obtain ⟨kept', gone⟩ := (kept.enter hs slot).wireAll later
    have entered : (({} : Roster M σ).wireAll ws).wire (.connectGuarded slot) =
        (({} : Roster M σ).wireAll ws).enter (s.connect slot).1 s.next slot := by
      simp only [wire, hs]
      rfl
    rw [entered]
    exact kept'.guards fun x mem => kept'.own gone mem

def reused : Roster Sockets Nat :=
  ({} : Roster Sockets Nat).wireAll [.connectGuarded 10, .connect 20, .disconnect ⟨0, 0⟩, .connect 30]

/-- The new slot comes last, and the guard of the old one leaves it alone. -/
theorem reused_index_comes_last : ∃ s, reused.signal = some s ∧ s.order = [⟨1, 0⟩, ⟨0, 1⟩] ∧
    s.slots = [20, 30] ∧ s.count = 2 ∧ s.disconnect ⟨0, 0⟩ = (s, false) ∧
    Guard.drop ⟨⟨0, 0⟩⟩ reused.signal = reused.signal := by
  obtain ⟨-, -, first⟩ := connections_exact (M := Sockets) (σ := Nat) []
  obtain ⟨-, -, later⟩ := (first _ rfl).2.2 10
  obtain ⟨-, -, last⟩ := connections_exact (M := Sockets) (σ := Nat)
    [.connectGuarded 10, .connect 20, .disconnect ⟨0, 0⟩, .connect 30]
  obtain ⟨lists, releases, -⟩ := last _ rfl
  have stale : ¬∃ x, ((⟨0, 0⟩ : Ticket), x) ∈ reused.live := by
    have live : reused.live = [(⟨1, 0⟩, 20), (⟨0, 1⟩, 30)] := rfl
    simp [live]
  have guards := later [.connect 20, .disconnect ⟨0, 0⟩, .connect 30]
  exact ⟨_, rfl, lists.order, lists.slots, lists.count, (releases ⟨0, 0⟩).missing stale,
    guards.gone fun mem => stale ⟨_, mem⟩⟩

end Roster

end BoundValues
