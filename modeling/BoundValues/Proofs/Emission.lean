import BoundValues.Proofs.Connections
import BoundValues.Switchboard.Run

namespace BoundValues

variable {α : Type}

def SwitchEvent.run? (emission : Nat) : SwitchEvent α → Option (String × α)
  | .ran n slot payload => if n = emission then some (slot, payload) else none
  | .acted .. => none

namespace Switchboard

def runs (b : Switchboard α) (emission : Nat) : List (String × α) :=
  b.log.filterMap (SwitchEvent.run? emission)

/-- Numbers are given on, and nothing is added to what earlier emissions ran. -/
structure Continues (b b' : Switchboard α) : Prop where
  emissions : b.emissions ≤ b'.emissions
  runs (n : Nat) (h : n < b.emissions) : b'.runs n = b.runs n

def Onward (run : Runner α) : Prop := ∀ (c : Contact) (b : Switchboard α), b.Continues (run c b)

def turns (run : Runner α) (n : Nat) (payload : α) (cs : List Contact) (b : Switchboard α) :
    Switchboard α :=
  cs.foldl (fun b c => run c (b.record (.ran n c.name payload))) b

section Continuing

variable {b b' b'' : Switchboard α}

theorem runs_record (b : Switchboard α) (e : SwitchEvent α) (n : Nat) :
    (b.record e).runs n = b.runs n ++ (e.run? n).toList := by
  unfold runs record
  rw [List.filterMap_append]
  cases h : e.run? n <;> simp [h]

theorem Continues.refl (b : Switchboard α) : b.Continues b := ⟨Nat.le_refl _, fun _ _ => rfl⟩

theorem Continues.trans (h : b.Continues b') (h' : b'.Continues b'') : b.Continues b'' where
  emissions := Nat.le_trans h.emissions h'.emissions
  runs n hn := (h'.runs n (Nat.lt_of_lt_of_le hn h.emissions)).trans (h.runs n hn)

/-- Whatever leaves the log and the numbers alone. -/
theorem Continues.of_same (emissions : b'.emissions = b.emissions) (log : b'.log = b.log) :
    b.Continues b' where
  emissions := Nat.le_of_eq emissions.symm
  runs n _ := by rw [Switchboard.runs, Switchboard.runs, log]

theorem Continues.acted (b : Switchboard α) (slot : String) (r : SwitchRequest α)
    (reply : SwitchReply) : b.Continues (b.record (.acted slot r reply)) where
  emissions := Nat.le_refl _
  runs n _ := by
    rw [runs_record]
    exact List.append_nil _

theorem continues_foldl {β : Type} {f : Switchboard α → β → Switchboard α}
    (hf : ∀ (b : Switchboard α) (x : β), b.Continues (f b x)) (xs : List β) (b : Switchboard α) :
    b.Continues (xs.foldl f b) := by
  induction xs generalizing b with
  | nil => exact .refl b
  | cons x xs ih => exact (hf b x).trans (ih (f b x))

theorem dropGuard_continues (b : Switchboard α) (name : String) :
    b.Continues (b.dropGuard name).1 := by
  unfold dropGuard
  split
  · exact .refl b
  · exact .of_same rfl rfl

theorem keepGuard_continues (b : Switchboard α) (name : String) (guard : Guard) :
    b.Continues (b.keepGuard name guard) :=
  (b.dropGuard_continues name).trans (.of_same rfl rfl)

end Continuing

section Turns

variable {run : Runner α} {n : Nat} {b : Switchboard α}

/-- The first turn: it is logged under the number of the emission, and leaves other numbers alone. -/
theorem turn_runs (onward : Onward run) (payload : α) (c : Contact) {k : Nat}
    (hk : k < b.emissions) :
    b.emissions ≤ (run c (b.record (.ran n c.name payload))).emissions ∧
      (run c (b.record (.ran n c.name payload))).runs k =
        b.runs k ++ if n = k then [(c.name, payload)] else [] := by
  have ran := onward c (b.record (.ran n c.name payload))
  refine ⟨ran.emissions, (ran.runs k hk).trans ?_⟩
  rw [runs_record, SwitchEvent.run?]
  split <;> rfl

/-- Induction on the slots. Nested emissions have later numbers, so each turn adds one run to those of
the emission. -/
theorem turns_runs (onward : Onward run) (hn : n < b.emissions) (payload : α) (cs : List Contact) :
    b.emissions ≤ (turns run n payload cs b).emissions ∧
      ∀ k < b.emissions, (turns run n payload cs b).runs k =
        b.runs k ++ if n = k then cs.map fun c => (c.name, payload) else [] := by
  induction cs generalizing b with
  | nil =>
    refine ⟨Nat.le_refl _, fun k _ => ?_⟩
    rw [List.map_nil, ite_self, List.append_nil]
    rfl
  | cons c cs ih =>
    obtain ⟨later, -⟩ := turn_runs onward payload c hn
    obtain ⟨emissions, rest⟩ := ih (Nat.lt_of_lt_of_le hn later)
    refine ⟨Nat.le_trans later emissions, fun k hk => ?_⟩
    have first := (turn_runs (n := n) onward payload c hk).2
    refine (rest k (Nat.lt_of_lt_of_le hk later)).trans ?_
    rw [first, List.append_assoc]
    split <;> rfl

theorem emit_of_blocked {s : Signal Contact} (blocked : s.blocked = true) (payload : α) :
    b.emit run s payload = (b, 0) := if_pos blocked

/-- An open signal runs the slots of the moment under a number of its own. -/
theorem emit_of_unblocked {s : Signal Contact} (unblocked : s.blocked = false) (payload : α) :
    b.emit run s payload =
      (turns run b.emissions payload s.slots { b with emissions := b.emissions + 1 }, s.count) := by
  have snapshot : s.snapshot = s.slots := if_neg (by simp [unblocked])
  have counted : s.slots.length = s.count := s.length_slots
  simp only [Switchboard.emit, Signal.emit, unblocked, snapshot, counted]
  rfl

/-- An emission takes a number that no earlier one had. -/
theorem emit_continues (onward : Onward run) (s : Signal Contact) (payload : α) :
    b.Continues (b.emit run s payload).1 := by
  cases blocked : s.blocked with
  | true =>
    rw [emit_of_blocked blocked]
    exact .refl b
  | false =>
    rw [emit_of_unblocked blocked]
    obtain ⟨later, runs⟩ := turns_runs (b := { b with emissions := b.emissions + 1 }) onward
      (Nat.lt_succ_self b.emissions) payload s.slots
    refine ⟨Nat.le_trans (Nat.le_succ _) later, fun k hk => ?_⟩
    rw [runs k (Nat.lt_succ_of_lt hk), if_neg (Nat.ne_of_gt hk), List.append_nil]
    rfl

theorem execOpen_continues (onward : Onward run) (s : Signal Contact) (r : SwitchRequest α) :
    b.Continues (b.execOpen run s r).1 := by
  cases r with
  | connectGuarded name acts =>
    have plugged (s' : Signal Contact) (id : Ticket) : b.Continues (b.plug s' id name acts) :=
      .of_same rfl rfl
    exact (plugged ..).trans (keepGuard_continues ..)
  | disconnect name =>
    simp only [execOpen]
    split
    · exact .refl b
    · exact .of_same rfl rfl
  | emit payload => exact emit_continues onward s payload
  | _ => exact .of_same rfl rfl

/-- A request adds to the log under its own number only. -/
theorem exec_continues (onward : Onward run) (r : SwitchRequest α) (b : Switchboard α) :
    b.Continues (b.exec run r).1 := by
  cases r with
  | dropGuard name => exact b.dropGuard_continues name
  | close => exact .of_same rfl rfl
  | _ =>
    simp only [exec]
    split
    · exact execOpen_continues onward _ _
    · exact .refl b

theorem takeAct_continues {b' : Switchboard α} {script i : Nat} {r : SwitchRequest α}
    (h : b.takeAct script i = some (r, b')) : b.Continues b' := by
  unfold takeAct at h
  split at h
  · cases h
  · split at h
    · cases h
      exact .of_same rfl rfl
    · cases h

theorem perform_continues (onward : Onward run) (c : Contact) (i : Nat) (b : Switchboard α) :
    b.Continues (b.perform run c i) := by
  unfold perform
  split
  · exact .refl b
  · rename_i r b' taken
    exact (takeAct_continues taken).trans ((exec_continues onward r b').trans (.acted _ _ _ _))

/-- Induction on the depth of nesting. -/
theorem onward_react (depth : Nat) : Onward (react depth : Runner α) := by
  induction depth with
  | zero => exact fun _ b => .refl b
  | succ depth ih =>
    exact fun c b => continues_foldl (fun b i => perform_continues ih c i b) _ b

end Turns

/-- An emission that is not blocked: in its own name it runs the slots connected when it starts, once
each and in order. When the turn of a slot comes, its acts are carried out as they are on the board
then; the emissions that they set off have later numbers. -/
structure Emits (depth : Nat) (s : Signal Contact) (payload : α) (b b' : Switchboard α) : Prop where
  runs : b'.runs b.emissions = b.runs b.emissions ++ s.slots.map fun c => (c.name, payload)
  others (n : Nat) (h : n < b.emissions) : b'.runs n = b.runs n
  numbered : b.emissions < b'.emissions
  turn {pre post : List Contact} {c : Contact} (split : s.slots = pre ++ c :: post) :
    ∃ v : Switchboard α, b.emissions < v.emissions ∧
      v.runs b.emissions = b.runs b.emissions ++ pre.map (fun c => (c.name, payload)) ∧
      b' = turns (react depth) b.emissions payload post
        (react depth c (v.record (.ran b.emissions c.name payload)))

/-- **An emission runs exactly its snapshot.** Whatever slots connect, disconnect, block or emit while it
goes on, to any depth, it runs the slots connected at its start and tells how many there were. While the
signal is blocked, an emission does nothing. -/
theorem emission_runs_snapshot {b : Switchboard α} {s : Signal Contact} (present : b.signal = some s)
    (payload : α) (depth : Nat) :
    (s.blocked = true → b.exec (react depth) (.emit payload) = (b, .number 0)) ∧
      (s.blocked = false → ∃ b', b.exec (react depth) (.emit payload) = (b', .number s.count) ∧
        Emits depth s payload b b') := by
  have exec : b.exec (react depth) (.emit payload) =
      ((b.emit (react depth) s payload).1, .number (b.emit (react depth) s payload).2) := by
    simp only [Switchboard.exec, present]
    rfl
  refine ⟨fun blocked => by rw [exec, emit_of_blocked blocked], fun unblocked => ?_⟩
  have onward := onward_react (α := α) depth
  have own : b.emissions < b.emissions + 1 := Nat.lt_succ_self _
  have start (cs : List Contact) :=
    turns_runs (b := { b with emissions := b.emissions + 1 }) onward own payload cs
  have named (cs : List Contact) := (start cs).2 b.emissions own
  simp only [if_true] at named
  rw [emit_of_unblocked unblocked] at exec
  refine ⟨_, exec, named s.slots, ?_, (start s.slots).1, ?_⟩
  · intro n hn
    have continued := emit_continues (b := b) onward s payload
    rw [emit_of_unblocked unblocked] at continued
    exact continued.runs n hn
  · intro pre post c split
    refine ⟨_, (start pre).1, named pre, ?_⟩
    rw [split]
    exact List.foldl_append

def party : Switchboard Nat :=
  [.connect "first" [(.emit 7, 1), (.disconnect "second", 1), (.connect "third" [], 1),
      (.block true, 1)], .connect "second" []].foldl (fun b r => (b.exec (react 0) r).1) {}

theorem nested_emissions_run_both_slots : ∃ s b', party.signal = some s ∧ s.blocked = false ∧
    party.exec (react 3) (.emit 5) = (b', .number 2) ∧ Emits 3 s 5 party b' ∧
      b'.runs 0 = [("first", 5), ("second", 5)] ∧ b'.runs 1 = [("first", 7), ("second", 7)] := by
  obtain ⟨s, present, unblocked, count⟩ :
      ∃ s, party.signal = some s ∧ s.blocked = false ∧ s.count = 2 := ⟨_, rfl, rfl, rfl⟩
  obtain ⟨b', exec, emits⟩ := (emission_runs_snapshot present 5 3).2 unblocked
  have after : b' = (party.exec (react 3) (.emit 5)).1 := by rw [exec]
  refine ⟨s, b', present, unblocked, count ▸ exec, emits, ?_, ?_⟩
  · rw [after]
    rfl
  · rw [after]
    rfl

end Switchboard

end BoundValues
