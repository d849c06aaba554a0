import BoundValues.Part.Sockets
import BoundValues.Text.Numeral
import BoundValues.Text.Record

namespace BoundValues

/-- Slots in a map, and the tickets of those that are connected, in order. -/
structure Signal (σ : Type) (M : Type → Type := Sockets) [SlotMap M] where
  sockets : M σ := SlotMap.empty
  order : List Ticket := []
  blocked : Bool := false
  distinct : order.Nodup := by exact List.nodup_nil
  live (id : Ticket) : id ∈ order ↔ (SlotMap.get? sockets id).isSome := by exact SlotMap.live_empty
  counted : SlotMap.size sockets = order.length := by exact SlotMap.size_empty

/-- Keeps a slot connected until it is dropped. It does not keep the signal. -/
structure Guard where
  id : Ticket
deriving DecidableEq, Repr

namespace Signal

variable {M : Type → Type} [SlotMap M] {σ ω : Type}

/-- The ticket of the slot that is connected next. -/
def next (s : Signal σ M) : Ticket := SlotMap.next s.sockets

def slot? (s : Signal σ M) (id : Ticket) : Option σ := SlotMap.get? s.sockets id

def connected (s : Signal σ M) (id : Ticket) : Bool := (s.slot? id).isSome

/-- A ticket that was given to a slot, whether or not that is still connected. -/
def Issued (s : Signal σ M) (id : Ticket) : Prop := SlotMap.Issued s.sockets id

/-- The ticket of a new slot is none of those in the order. -/
theorem next_notMem (s : Signal σ M) : s.next ∉ s.order := by
  rw [s.live, next, SlotMap.get?_next]
  exact Bool.false_ne_true

def connect (s : Signal σ M) (slot : σ) : Signal σ M × Ticket :=
  ({ s with
      sockets := SlotMap.insert s.sockets slot, order := s.order ++ [s.next]
      distinct := by
        refine List.nodup_append.mpr ⟨s.distinct, List.pairwise_singleton .., ?_⟩
        intro id old _ last same
        exact s.next_notMem (List.mem_singleton.mp last ▸ same ▸ old)
      live id := by
        rw [List.mem_append, List.mem_singleton, SlotMap.get?_insert, s.live]
        by_cases h : id = SlotMap.next s.sockets <;> simp [next, h]
      counted := by
        rw [SlotMap.size_insert, s.counted, List.length_append, List.length_singleton] }, s.next)

/-- Connects a slot that stays as long as its guard. -/
def connectGuarded (s : Signal σ M) (slot : σ) : Signal σ M × Guard :=
  ((s.connect slot).1, ⟨(s.connect slot).2⟩)

/-- Removes one slot; tells whether it was there. -/
def disconnect (s : Signal σ M) (id : Ticket) : Signal σ M × Bool :=
  if here : s.connected id then
    ({ s with
        sockets := SlotMap.remove s.sockets id, order := s.order.filter fun other => other != id
        distinct := s.distinct.filter _
        live other := by
          rw [List.mem_filter, SlotMap.get?_remove, s.live]
          by_cases h : other = id <;> simp [h]
        counted := by
          rw [SlotMap.size_remove _ _ here, s.counted, ← s.distinct.erase_eq_filter,
            List.length_erase_of_mem ((s.live id).mpr here)] }, true)
  else (s, false)

def disconnectAll (s : Signal σ M) : Signal σ M :=
  { s with
    sockets := SlotMap.clear s.sockets, order := [], distinct := List.nodup_nil
    live := by simp
    counted := by simp }

def count (s : Signal σ M) : Nat := SlotMap.size s.sockets

def slots (s : Signal σ M) : List σ := s.order.filterMap s.slot?

/-- The connected slots with their tickets, in order. -/
def connections (s : Signal σ M) : List (Ticket × σ) :=
  s.order.filterMap fun id => (s.slot? id).map (id, ·)

def setBlocked (s : Signal σ M) (blocked : Bool) : Signal σ M := { s with blocked := blocked }

/-- The slots that an emission runs when it starts now. -/
def snapshot (s : Signal σ M) : List σ := if s.blocked then [] else s.slots

/-- Runs the present slots in order on a state; tells how many ran. The state may hold the signal
itself, and a slot may change it there. -/
def emit (run : σ → ω → ω) (s : Signal σ M) (w : ω) : ω × Nat :=
  (s.snapshot.foldl (fun w slot => run slot w) w, s.snapshot.length)

def describe (s : Signal σ M) : String :=
  Text.record "Signal"
    [("slots", String.ofList (Text.natText s.count)), ("blocked", Text.flagText s.blocked)]

end Signal

/-- Disconnects the slot of a guard, if the signal is still there. -/
def Guard.drop {M : Type → Type} [SlotMap M] {σ : Type} (g : Guard) (s : Option (Signal σ M)) :
    Option (Signal σ M) :=
  s.map fun s => (s.disconnect g.id).1

end BoundValues
