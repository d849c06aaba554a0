namespace BoundValues

/-- Where an element is: the socket, and how often that was freed before. -/
structure Ticket where
  socket : Nat
  turn : Nat
deriving DecidableEq, Repr

/-- What signals ask of the map in which they keep their slots. Which socket an element gets is left
open; a ticket that was `Issued` is not given again. -/
class SlotMap (M : Type → Type) where
  empty {σ : Type} : M σ
  /-- The element under a ticket, unless it was taken out. -/
  get? {σ : Type} : M σ → Ticket → Option σ
  /-- The ticket of the element that is put in next. -/
  next {σ : Type} : M σ → Ticket
  insert {σ : Type} : M σ → σ → M σ
  remove {σ : Type} : M σ → Ticket → M σ
  clear {σ : Type} : M σ → M σ
  size {σ : Type} : M σ → Nat
  Issued {σ : Type} : M σ → Ticket → Prop
  get?_empty {σ : Type} (id : Ticket) : get? (empty : M σ) id = none
  get?_insert {σ : Type} (t : M σ) (x : σ) (id : Ticket) :
    get? (insert t x) id = if id = next t then some x else get? t id
  get?_remove {σ : Type} (t : M σ) (id other : Ticket) :
    get? (remove t id) other = if other = id then none else get? t other
  get?_clear {σ : Type} (t : M σ) (id : Ticket) : get? (clear t) id = none
  size_empty {σ : Type} : size (empty : M σ) = 0
  size_insert {σ : Type} (t : M σ) (x : σ) : size (insert t x) = size t + 1
  size_remove {σ : Type} (t : M σ) (id : Ticket) (live : (get? t id).isSome) :
    size (remove t id) = size t - 1
  size_clear {σ : Type} (t : M σ) : size (clear t) = 0
  issued_of_live {σ : Type} (t : M σ) {id : Ticket} (live : (get? t id).isSome) : Issued t id
  not_issued_next {σ : Type} (t : M σ) : ¬Issued t (next t)
  issued_insert {σ : Type} {t : M σ} {id : Ticket} (given : Issued t id) (x : σ) :
    Issued (insert t x) id
  issued_remove {σ : Type} {t : M σ} {id : Ticket} (given : Issued t id) (other : Ticket) :
    Issued (remove t other) id
  issued_clear {σ : Type} {t : M σ} {id : Ticket} (given : Issued t id) : Issued (clear t) id

namespace SlotMap

attribute [simp] get?_empty get?_clear size_empty size_clear

variable {M : Type → Type} [SlotMap M] {σ : Type} (t : M σ)

theorem live_empty (id : Ticket) :
    id ∈ ([] : List Ticket) ↔ (get? (empty : M σ) id).isSome = true := by
  simp

/-- The next ticket leads nowhere yet. -/
theorem get?_next : get? t (next t) = none := by
  cases h : get? t (next t) with
  | none => rfl
  | some x => exact absurd (issued_of_live t (by simp [h])) (not_issued_next t)

theorem issued_next (x : σ) : Issued (insert t x) (next t) :=
  issued_of_live _ (by simp [get?_insert])

end SlotMap

structure Socket (σ : Type) where
  turn : Nat := 0
  held : Option σ := none

structure Sockets (σ : Type) where
  all : List (Socket σ) := []

namespace Sockets

variable {σ : Type}

def get? (t : Sockets σ) (id : Ticket) : Option σ :=
  t.all[id.socket]?.bind fun s => if s.turn = id.turn then s.held else none

/-- The first free socket, or the one behind the last. -/
def vacancy (t : Sockets σ) : Nat := t.all.findIdx fun s => s.held.isNone

def next (t : Sockets σ) : Ticket := ⟨t.vacancy, t.all[t.vacancy]?.elim 0 Socket.turn⟩

def insert (t : Sockets σ) (x : σ) : Sockets σ :=
  if t.vacancy < t.all.length then ⟨t.all.set t.vacancy ⟨t.next.turn, some x⟩⟩
  else ⟨t.all ++ [⟨0, some x⟩]⟩

/-- Takes out what is under a ticket, and counts the turn. -/
def remove (t : Sockets σ) (id : Ticket) : Sockets σ :=
  if (t.get? id).isSome then ⟨t.all.set id.socket ⟨id.turn + 1, none⟩⟩ else t

def clear (t : Sockets σ) : Sockets σ :=
  ⟨t.all.map fun s => if s.held.isSome then ⟨s.turn + 1, none⟩ else s⟩

def size (t : Sockets σ) : Nat := t.all.countP fun s => s.held.isSome

/-- A ticket that was given: its turn is over, or it is the present one. -/
def Issued (t : Sockets σ) (id : Ticket) : Prop :=
  ∃ s, t.all[id.socket]? = some s ∧ (id.turn < s.turn ∨ id.turn = s.turn ∧ s.held.isSome)

section Lookup

variable (t : Sockets σ) (x : σ) (id other : Ticket)

/-- The socket that is filled next holds nothing, if it is there. -/
theorem held_vacancy {s : Socket σ} (h : t.all[t.vacancy]? = some s) : s.held = none := by
  obtain ⟨hlt, rfl⟩ := List.getElem?_eq_some_iff.mp h
  exact Option.isNone_iff_eq_none.mp (List.findIdx_getElem (w := hlt))

/-- A ticket of the vacant socket leads nowhere, whatever its turn. -/
theorem get?_of_vacant (h : id.socket = t.vacancy) : t.get? id = none := by
  unfold get?
  rw [h]
  cases hs : t.all[t.vacancy]? with
  | none => rfl
  | some s => simp [t.held_vacancy hs]

/-- Only the vacant socket is filled. -/
theorem insert_all (j : Nat) : (t.insert x).all[j]? =
    if j = t.vacancy then some ⟨t.next.turn, some x⟩ else t.all[j]? := by
  unfold insert
  split
  · rename_i hlt
    rw [List.getElem?_set, if_pos hlt]
    simp only [eq_comm]
  · rename_i hge
    have last : t.vacancy = t.all.length := Nat.le_antisymm List.findIdx_le_length (Nat.not_lt.mp hge)
    have first : t.next.turn = 0 := by simp [next, last]
    rw [List.getElem?_append, last, first]
    rcases Nat.lt_trichotomy j t.all.length with hj | rfl | hj
    · rw [if_pos hj, if_neg (Nat.ne_of_lt hj)]
    · simp
    · rw [if_neg (by omega), if_neg (by omega), List.getElem?_eq_none (by simp; omega),
        List.getElem?_eq_none (by omega)]

/-- What is put in is found under its ticket; nothing else is disturbed. -/
theorem get?_insert : (t.insert x).get? id = if id = t.next then some x else t.get? id := by
  by_cases here : id.socket = t.vacancy
  · have same : id = t.next ↔ t.next.turn = id.turn := by
      obtain ⟨socket, turn⟩ := id
      simp only [next, Ticket.mk.injEq] at here ⊢
      simp [here, eq_comm]
    rw [get?, insert_all, if_pos here, Option.bind_some, t.get?_of_vacant id here]
    simp only [same]
  · have other : id ≠ t.next := fun same => here (congrArg Ticket.socket same)
    rw [get?, insert_all, if_neg here, if_neg other]
    rfl

/-- A ticket that leads somewhere is of its socket's present turn. -/
theorem socket_of_live (live : (t.get? id).isSome) :
    ∃ s, t.all[id.socket]? = some s ∧ s.turn = id.turn ∧ s.held.isSome := by
  obtain ⟨x, hx⟩ := Option.isSome_iff_exists.mp live
  obtain ⟨s, hs, held⟩ := Option.bind_eq_some_iff.mp hx
  split at held
  · rename_i turn
    exact ⟨s, hs, turn, by simp [held]⟩
  · cases held

/-- The socket is free again, and its turn is counted. -/
theorem remove_all (live : (t.get? id).isSome) (j : Nat) : (t.remove id).all[j]? =
    if j = id.socket then some ⟨id.turn + 1, none⟩ else t.all[j]? := by
  obtain ⟨s, hs, -, -⟩ := t.socket_of_live id live
  have hlt := (List.getElem?_eq_some_iff.mp hs).1
  unfold remove
  rw [if_pos live, List.getElem?_set, if_pos hlt]
  simp only [eq_comm]

/-- What is taken out is gone; nothing else is disturbed, whatever is in its socket later. -/
theorem get?_remove :
    (t.remove id).get? other = if other = id then none else t.get? other := by
  by_cases live : (t.get? id).isSome
  · by_cases here : other.socket = id.socket
    · obtain ⟨s, hs, turn, -⟩ := t.socket_of_live id live
      have gone : other ≠ id → t.get? other = none := by
        intro differ
        have stale : s.turn ≠ other.turn := by
          rintro same
          obtain ⟨socket, turn'⟩ := other
          obtain ⟨socket', turn''⟩ := id
          simp only at here turn same
          exact differ (by rw [here, ← same, turn])
        simp [get?, here, hs, stale]
      rw [get?, t.remove_all id live, if_pos here]
      split
      · simp
      · rename_i differ
        simp [gone differ]
    · have differ : other ≠ id := fun same => here (congrArg Ticket.socket same)
      rw [get?, t.remove_all id live, if_neg here, if_neg differ]
      rfl
  · rw [remove, if_neg live]
    split
    · rename_i same
      rw [same]
      exact Option.not_isSome_iff_eq_none.mp live
    · rfl

theorem get?_clear : t.clear.get? id = none := by
  unfold get? clear
  rw [List.getElem?_map]
  cases t.all[id.socket]? with
  | none => rfl
  | some s =>
    cases hs : s.held with
    | none => simp [hs]
    | some y => simp [hs]

end Lookup

section Size

variable (t : Sockets σ) (x : σ) (id : Ticket)

theorem size_insert : (t.insert x).size = t.size + 1 := by
  unfold insert size
  split
  · rename_i hlt
    have vacant : t.all[t.vacancy].held = none := t.held_vacancy (List.getElem?_eq_getElem hlt)
    simp [List.countP_set hlt, vacant]
  · simp

theorem size_remove (live : (t.get? id).isSome) : (t.remove id).size = t.size - 1 := by
  obtain ⟨s, hs, -, held⟩ := t.socket_of_live id live
  obtain ⟨hlt, rfl⟩ := List.getElem?_eq_some_iff.mp hs
  simp [remove, live, size, List.countP_set hlt, held]

theorem size_clear : t.clear.size = 0 := by
  simp only [size, clear, List.countP_eq_zero, List.mem_map]
  rintro _ ⟨s, -, rfl⟩
  cases hs : s.held <;> simp [hs]

end Size

section Tickets

variable (t : Sockets σ) (x : σ) {id : Ticket}

/-- Whatever leads somewhere was given. -/
theorem issued_of_live (live : (t.get? id).isSome) : t.Issued id := by
  obtain ⟨s, hs, turn, held⟩ := t.socket_of_live id live
  exact ⟨s, hs, .inr ⟨turn.symm, held⟩⟩

/-- The next ticket was never given before. -/
theorem not_issued_next : ¬ t.Issued t.next := by
  rintro ⟨s, hs, earlier | ⟨-, held⟩⟩
  · have here : t.all[t.vacancy]? = some s := hs
    simp [next, here] at earlier
  · simp [t.held_vacancy hs] at held

variable {t}

theorem Issued.insert (h : t.Issued id) : (t.insert x).Issued id := by
  obtain ⟨s, hs, given⟩ := h
  by_cases here : id.socket = t.vacancy
  · rw [here] at hs
    have earlier : id.turn < t.next.turn := by
      rcases given with earlier | ⟨-, held⟩
      · simpa [next, hs] using earlier
      · simp [t.held_vacancy hs] at held
    exact ⟨_, by rw [insert_all, if_pos here], .inl earlier⟩
  · exact ⟨s, by rw [insert_all, if_neg here, hs], given⟩

/-- A ticket that was given stays so when its element is taken out. -/
theorem Issued.remove (h : t.Issued id) (other : Ticket) : (t.remove other).Issued id := by
  by_cases live : (t.get? other).isSome
  · obtain ⟨s, hs, given⟩ := h
    by_cases here : id.socket = other.socket
    · obtain ⟨s', hs', turn, -⟩ := t.socket_of_live other live
      rw [here, hs'] at hs
      cases hs
      refine ⟨_, by rw [t.remove_all other live, if_pos here], .inl ?_⟩
      show id.turn < other.turn + 1
      omega
    · exact ⟨s, by rw [t.remove_all other live, if_neg here, hs], given⟩
  · rw [Sockets.remove, if_neg live]
    exact h

theorem Issued.clear (h : t.Issued id) : t.clear.Issued id := by
  obtain ⟨s, hs, given⟩ := h
  refine ⟨_, by rw [Sockets.clear, List.getElem?_map, hs]; rfl, ?_⟩
  cases held : s.held with
  | none => simpa [held] using given
  | some y =>
    refine .inl ?_
    simp only [held, Option.isSome_some, if_true]
    omega

end Tickets

instance : SlotMap Sockets where
  empty := {}
  get? := get?
  next := next
  insert := insert
  remove := remove
  clear := clear
  size := size
  Issued := Issued
  get?_empty _ := rfl
  get?_insert := get?_insert
  get?_remove := get?_remove
  get?_clear := get?_clear
  size_empty := rfl
  size_insert := size_insert
  size_remove := size_remove
  size_clear := size_clear
  issued_of_live t _ := t.issued_of_live
  not_issued_next := not_issued_next
  issued_insert given x := given.insert x
  issued_remove given := given.remove
  issued_clear given := given.clear

end Sockets

end BoundValues
