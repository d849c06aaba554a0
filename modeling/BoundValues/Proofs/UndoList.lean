import BoundValues.Part.Host
import BoundValues.Proofs.HistoryCursor
import Mathlib.Data.List.DropRight
import Mathlib.Logic.Function.Iterate

namespace BoundValues

variable {α : Type}

namespace History

/-- A history in order: there is room for an entry, the entries fit, and the cursor is on one of them if
there are any. -/
structure Sound (h : History α) : Prop where
  room : 1 ≤ h.capacity
  fits : h.size ≤ h.capacity
  cursor : h.cursor < h.size ∨ h.cursor = 0 ∧ h.size = 0

structure Pushed (h h' : History α) (v : α) : Prop where
  capacity : h'.capacity = h.capacity
  entries : h'.entries = (h.entries.take (h.cursor + 1) ++ [v]).rtake h.capacity
  last : h'.cursor + 1 = h'.size

/-- What a change of the capacity comes to: the last entries that fit, and a cursor that moved along. -/
structure Resized (h h' : History α) (n : Nat) : Prop where
  capacity : h'.capacity = max n 1
  entries : h'.entries = h.entries.rtake (max n 1)
  cursor : h'.cursor = h.cursor - (h.size - h'.size)

def AtEnd (h : History α) : Bool → Prop
  | true => h.size ≤ h.cursor + 1
  | false => h.cursor = 0

def moved (h : History α) : Bool → History α
  | true => { h with cursor := h.cursor + 1 }
  | false => { h with cursor := h.cursor - 1 }

/-- Drops the oldest entry. The cursor stays on its entry, unless that is the one. -/
def dropOldest (h : History α) : History α :=
  { h with entries := h.entries.tail, cursor := h.cursor - 1 }

def before (h : History α) (k : Nat) : List α := (h.entries.take h.cursor).reverse.take k

def after (h : History α) (k : Nat) : List α := (h.entries.drop (h.cursor - k + 1)).take k

section Bounds

variable {h : History α}

/-- The oldest entries leave one by one, as long as there are too many. -/
theorem evict_eq_iterate (h : History α) : h.evict = dropOldest^[h.size - h.capacity] h := by
  have dropped (n : Nat) : ∀ g : History α,
      dropOldest^[n] g = { g with entries := g.entries.drop n, cursor := g.cursor - n } := by
    induction n with
    | zero => exact fun g => rfl
    | succ n ih =>
      intro g
      rw [Function.iterate_succ_apply, ih, dropOldest, List.drop_tail, Nat.sub_sub, Nat.add_comm 1 n]
  exact (dropped _ h).symm

theorem size_evict (h : History α) : h.evict.size = min h.size h.capacity := by
  simp only [size, evict, List.length_drop]
  omega

/-- Eviction makes the entries fit, and the cursor stays with them. -/
theorem evict_sound (room : 1 ≤ h.capacity) (cursor : h.cursor < h.size ∨ h.cursor = 0 ∧ h.size = 0) :
    h.evict.Sound where
  room := room
  fits := h.size_evict ▸ Nat.min_le_right ..
  cursor := by
    have moved : h.evict.cursor = h.cursor - (h.size - h.capacity) := rfl
    rw [size_evict, moved]
    omega

theorem withCapacity_sound (n : Nat) : (withCapacity n : History α).Sound where
  room := Nat.le_max_right n 1
  fits := Nat.zero_le _
  cursor := .inr ⟨rfl, rfl⟩

theorem Sound.push (hs : h.Sound) (v : α) : (h.push v).Sound := by
  refine evict_sound hs.room (.inl ?_)
  simp only [size, List.length_append, List.length_singleton]
  omega

/-- A push is the last entry, and the oldest ones make room. -/
theorem Sound.pushed (hs : h.Sound) (v : α) : h.Pushed (h.push v) v where
  capacity := rfl
  entries := rfl
  last := by
    obtain ⟨kept, -, -, entries, cursor⟩ := push_entries hs.room v
    rw [size, entries, cursor, List.length_append, List.length_singleton]

/-- However small the capacity, there is room for one. -/
theorem Sound.setCapacity (hs : h.Sound) (n : Nat) : (h.setCapacity n).Sound :=
  evict_sound (Nat.le_max_right n 1) hs.cursor

theorem resized (h : History α) (n : Nat) : h.Resized (h.setCapacity n) n where
  capacity := rfl
  entries := rfl
  cursor := by
    have size : (h.setCapacity n).size = min h.size (max n 1) :=
      size_evict { h with capacity := max n 1 }
    have cursor : (h.setCapacity n).cursor = h.cursor - (h.size - max n 1) := rfl
    rw [size, cursor]
    omega

theorem Sound.clear (hs : h.Sound) : h.clear.Sound where
  room := hs.room
  fits := Nat.zero_le _
  cursor := .inr ⟨rfl, rfl⟩

theorem step_of_atEnd {forward : Bool} (ended : h.AtEnd forward) : h.step forward = (h, none) := by
  cases forward with
  | true =>
    have stuck : h.canRedo = false := decide_eq_false (Nat.not_lt.mpr ended)
    simp [step, stuck]
  | false =>
    have stuck : h.canUndo = false := decide_eq_false (Nat.not_lt.mpr (Nat.le_of_eq ended))
    simp [step, stuck]

/-- Away from the end there is an entry to go to. -/
theorem Sound.step (hs : h.Sound) {forward : Bool} (inside : ¬h.AtEnd forward) :
    ∃ v, (h.moved forward).current? = some v ∧ h.step forward = (h.moved forward, some v) := by
  cases forward with
  | true =>
    have next : h.cursor + 1 < h.entries.length := Nat.not_le.mp inside
    have current : (h.moved true).current? = some h.entries[h.cursor + 1] :=
      List.getElem?_eq_getElem next
    exact ⟨_, current, (step_forward (by simpa [canRedo] using next)).trans (congrArg _ current)⟩
  | false =>
    have pos : 0 < h.cursor := Nat.pos_of_ne_zero inside
    have before : h.cursor - 1 < h.entries.length := by
      have := hs.cursor
      rw [size] at this
      omega
    have current : (h.moved false).current? = some h.entries[h.cursor - 1] :=
      List.getElem?_eq_getElem before
    exact ⟨_, current, (step_back (by simpa [canUndo] using pos)).trans (congrArg _ current)⟩

theorem Sound.moved (hs : h.Sound) {forward : Bool} (inside : ¬h.AtEnd forward) :
    (h.moved forward).Sound := by
  refine ⟨by cases forward <;> exact hs.room, by cases forward <;> exact hs.fits, .inl ?_⟩
  cases forward with
  | true => exact Nat.not_le.mp inside
  | false =>
    have pos : h.cursor ≠ 0 := inside
    have := hs.cursor
    change h.cursor - 1 < h.size
    omega

/-- The last entry on the way forward is the one under the cursor. -/
theorem Sound.getLast?_after (hs : h.Sound) {k : Nat} (hk : k ≤ h.cursor) (pos : 0 < k) :
    (h.after k).getLast? = h.current? := by
  have inside : h.cursor < h.entries.length := by
    have := hs.cursor
    rw [size] at this
    omega
  have length : (h.after k).length = k := by
    rw [after, List.length_take, List.length_drop]
    omega
  have place : h.cursor - k + 1 + (k - 1) = h.cursor := by omega
  rw [List.getLast?_eq_getElem?, length, after, List.getElem?_take_of_lt (by omega),
    List.getElem?_drop, place, current?]

end Bounds

section Hosts

variable [BEq α]

structure Stepped (h : History α) (forward : Bool) (host : Host α) : Prop where
  halts (ended : h.AtEnd forward) : h.stepOn forward host = (h, host, none)
  commits (inside : ¬h.AtEnd forward) : ∃ v, (h.moved forward).current? = some v ∧
    h.stepOn forward host = (h.moved forward, host.commit v, some v)

def walk (forward : Bool) : Nat → History α × Host α → List (Option α) × History α × Host α
  | 0, s => ([], s)
  | k + 1, (h, host) =>
    let (h, host, told) := h.stepOn forward host
    let (rest, s) := walk forward k (h, host)
    (told :: rest, s)

/-- What steps back and as many steps forward come to. Each of them commits the entry that it comes to
and tells it, and in the end the history is as before. -/
structure Returns (h : History α) (k : Nat) (host : Host α) : Prop where
  back : walk false k (h, host) =
    ((h.before k).map some, { h with cursor := h.cursor - k }, (h.before k).foldl Host.commit host)
  forth : walk true k (walk false k (h, host)).2 =
    ((h.after k).map some, h, (h.after k).foldl Host.commit ((h.before k).foldl Host.commit host))
  /-- Without any step the host stays where it is. -/
  arrives (stands : 0 < k ∨ h.current? = some host.cell.value) :
    h.current? = some (walk true k (walk false k (h, host)).2).2.2.cell.value

section Walks

variable {h : History α}

theorem Sound.stepped (hs : h.Sound) (forward : Bool) (host : Host α) : h.Stepped forward host where
  halts ended := by rw [stepOn, step_of_atEnd ended]
  commits inside := by
    obtain ⟨v, current, walked⟩ := hs.step inside
    exact ⟨v, current, by rw [stepOn, walked]⟩

/-- A step moves the cursor and nothing else of the history. -/
theorem Sound.stepOn (hs : h.Sound) (forward : Bool) (host : Host α) :
    (h.stepOn forward host).1.Sound := by
  by_cases ended : h.AtEnd forward
  · rw [(hs.stepped forward host).halts ended]
    exact hs
  · obtain ⟨v, -, stepped⟩ := (hs.stepped forward host).commits ended
    rw [stepped]
    exact hs.moved ended

/-- Induction on the number of steps: the first one tells the entry right before the cursor. -/
theorem Sound.walk_back (hs : h.Sound) {k : Nat} (hk : k ≤ h.cursor) (host : Host α) :
    walk false k (h, host) = ((h.before k).map some, { h with cursor := h.cursor - k },
      (h.before k).foldl Host.commit host) := by
  induction k generalizing h host with
  | zero => simp [walk, before]
  | succ k ih =>
    have inside : ¬h.AtEnd false := Nat.ne_of_gt (Nat.zero_lt_of_lt hk)
    obtain ⟨v, current, stepped⟩ := (hs.stepped false host).commits inside
    have rest := ih (hs.moved inside) (Nat.le_sub_one_of_lt hk) (host.commit v)
    have split : h.before (k + 1) = v :: (h.moved false).before k := by
      have here : h.cursor = h.cursor - 1 + 1 := by omega
      have taken : h.entries.take h.cursor = h.entries.take (h.cursor - 1) ++ [v] := by
        rw [here, List.take_add_one, Nat.add_sub_cancel]
        exact congrArg (_ ++ Option.toList ·) current
      simp [before, History.moved, taken]
    have arrived : h.cursor - 1 - k = h.cursor - (k + 1) := by omega
    simp only [walk, stepped, rest, split, List.map_cons, List.foldl_cons]
    simp only [History.moved, arrived]

/-- Induction on the number of steps: the first one tells the entry right after the cursor. -/
theorem Sound.walk_forth (hs : h.Sound) {k : Nat} (hk : h.cursor + k < h.size) (host : Host α) :
    let ahead := (h.entries.drop (h.cursor + 1)).take k
    walk true k (h, host) =
      (ahead.map some, { h with cursor := h.cursor + k }, ahead.foldl Host.commit host) := by
  induction k generalizing h host with
  | zero => simp [walk]
  | succ k ih =>
    have inside : ¬h.AtEnd true := Nat.not_le.mpr (by omega)
    obtain ⟨v, current, stepped⟩ := (hs.stepped true host).commits inside
    have within : (h.moved true).cursor + k < (h.moved true).size := by
      change h.cursor + 1 + k < h.size
      omega
    have rest := ih (hs.moved inside) within (host.commit v)
    have split : (h.entries.drop (h.cursor + 1)).take (k + 1) =
        v :: (h.entries.drop (h.cursor + 1 + 1)).take k := by
      obtain ⟨next, found⟩ : ∃ next : h.cursor + 1 < h.entries.length, h.entries[h.cursor + 1] = v :=
        List.getElem?_eq_some_iff.mp current
      rw [List.drop_eq_getElem_cons next, List.take_succ_cons]
      exact congrArg (· :: _) found
    have arrived : h.cursor + 1 + k = h.cursor + (k + 1) := by omega
    simp only [walk, stepped, rest, split, List.map_cons, List.foldl_cons]
    simp only [History.moved, arrived]

theorem value_foldl_commit (vs : List α) (host : Host α) :
    (vs.foldl Host.commit host).cell.value = vs.getLast?.getD host.cell.value := by
  cases h : vs.getLast? with
  | none => simp [List.getLast?_eq_none_iff.mp h]
  | some v =>
    obtain ⟨vs, rfl⟩ := List.getLast?_eq_some_iff.mp h
    rw [List.foldl_append]
    rfl

/-- Steps back and as many forward visit the same entries in the opposite order. -/
theorem Sound.returns (hs : h.Sound) {k : Nat} (hk : k ≤ h.cursor) (host : Host α) :
    h.Returns k host := by
  have back := hs.walk_back hk host
  have forth : walk true k (walk false k (h, host)).2 = ((h.after k).map some, h,
      (h.after k).foldl Host.commit ((h.before k).foldl Host.commit host)) := by
    rcases Nat.eq_zero_or_pos k with rfl | pos
    · simp [walk, before, after]
    · have inside := hs.cursor
      have there : Sound { h with cursor := h.cursor - k } :=
        ⟨hs.room, hs.fits, .inl (show h.cursor - k < h.size by omega)⟩
      have within : h.cursor - k + k < h.size := by omega
      have returned : h.cursor - k + k = h.cursor := Nat.sub_add_cancel hk
      rw [back, there.walk_forth within]
      simp only [returned]
      rfl
  refine ⟨back, forth, fun stands => ?_⟩
  rw [forth, value_foldl_commit]
  rcases Nat.eq_zero_or_pos k with rfl | pos
  · exact stands.resolve_left (Nat.lt_irrefl 0)
  · rw [hs.getLast?_after hk pos]
    obtain ⟨v, current⟩ : ∃ v, h.current? = some v := by
      have := hs.cursor
      exact ⟨_, List.getElem?_eq_getElem (show h.cursor < h.size by omega)⟩
    rw [current]
    rfl

end Walks

inductive Turn (α : Type)
  | push (v : α)
  | undo
  | redo
  | clear
  | setCapacity (n : Nat)

def turn (s : History α × Host α) : Turn α → History α × Host α
  | .push v => (s.1.push v, s.2)
  | .undo => ((s.1.stepOn false s.2).1, (s.1.stepOn false s.2).2.1)
  | .redo => ((s.1.stepOn true s.2).1, (s.1.stepOn true s.2).2.1)
  | .clear => (s.1.clear, s.2)
  | .setCapacity n => (s.1.setCapacity n, s.2)

theorem Sound.turn {s : History α × Host α} (hs : s.1.Sound) (t : Turn α) :
    (History.turn s t).1.Sound := by
  cases t with
  | push v => exact hs.push v
  | undo => exact hs.stepOn false s.2
  | redo => exact hs.stepOn true s.2
  | clear => exact hs.clear
  | setCapacity n => exact hs.setCapacity n

theorem Sound.turns {s : History α × Host α} (hs : s.1.Sound) (ts : List (Turn α)) :
    (ts.foldl History.turn s).1.Sound := by
  induction ts generalizing s with
  | nil => exact hs
  | cons t ts ih => exact ih (hs.turn t)

/-- **A bounded undo list.** Whatever was done about a history, it is in order, and so is whatever is done
next: a push and a change of the capacity keep the last entries that fit, a step goes to the next entry
unless the cursor is at the end, and steps back and as many forward return, on any host. -/
theorem bounded_undo_list (n : Nat) (host : Host α) (ts : List (Turn α)) :
    let h := (ts.foldl turn (withCapacity n, host)).1
    h.Sound ∧ (∀ v, h.Pushed (h.push v) v) ∧ (∀ m, h.Resized (h.setCapacity m) m) ∧
      (∀ forward g, h.Stepped forward g) ∧ ∀ k ≤ h.cursor, ∀ g, h.Returns k g := by
  have sound := (withCapacity_sound n).turns (s := (withCapacity n, host)) ts
  exact ⟨sound, sound.pushed, resized _, sound.stepped, fun k hk g => sound.returns hk g⟩

/-- Three values in a list with room for two: the cursor is on the last, and a step back and one forward
lead along both entries that are left. -/
theorem full_list_returns :
    let host : Host Nat := { cell := { value := 3 } }
    let h := (([.push 1, .push 2, .push 3] : List (Turn Nat)).foldl turn (withCapacity 2, host)).1
    1 ≤ h.cursor ∧ h.entries = [2, 3] ∧ h.before 1 = [2] ∧ h.after 1 = [3] ∧ h.Returns 1 host := by
  intro host h
  have inside : 1 ≤ h.cursor := by decide
  have returns : h.Returns 1 host :=
    (bounded_undo_list 2 host [.push 1, .push 2, .push 3]).2.2.2.2 1 inside host
  exact ⟨inside, by decide, by decide, by decide, returns⟩

/-- A smaller capacity drops entries before the cursor and under it. -/
example : ([.push 1, .push 2, .push 3, .undo, .setCapacity 1] : List (Turn Nat)).foldl turn
    (withCapacity 3, { cell := { value := 3 } }) =
      (⟨[3], 0, 1⟩, Host.commit { cell := { value := 3 } } 2) := rfl

end Hosts

end History

end BoundValues
