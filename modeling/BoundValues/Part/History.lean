namespace BoundValues

/-- A bounded list of values and a cursor into it. -/
structure History (α : Type) where
  entries : List α := []
  cursor : Nat := 0
  capacity : Nat := 100
deriving DecidableEq, Repr

namespace History

variable {α : Type}

def withCapacity (n : Nat) : History α := { capacity := max n 1 }

/-- Drops the oldest entries beyond the capacity. The cursor stays on its entry, or goes to the
oldest one when its entry is dropped. -/
def evict (h : History α) : History α :=
  let excess := h.entries.length - h.capacity
  { h with entries := h.entries.drop excess, cursor := h.cursor - excess }

/-- Appends a value behind the cursor; the entries that could be redone are lost. -/
def push (h : History α) (v : α) : History α :=
  let kept := h.entries.take (h.cursor + 1)
  evict { h with entries := kept ++ [v], cursor := kept.length }

def canUndo (h : History α) : Bool := 0 < h.cursor

def canRedo (h : History α) : Bool := h.cursor + 1 < h.entries.length

def current? (h : History α) : Option α := h.entries[h.cursor]?

/-- Moves the cursor one entry back or forward, and tells the entry there. -/
def step (h : History α) (forward : Bool) : History α × Option α :=
  if forward then
    if h.canRedo then
      let h := { h with cursor := h.cursor + 1 }
      (h, h.current?)
    else (h, none)
  else
    if h.canUndo then
      let h := { h with cursor := h.cursor - 1 }
      (h, h.current?)
    else (h, none)

def clear (h : History α) : History α := { h with entries := [], cursor := 0 }

/-- Changes the capacity, to at least one. -/
def setCapacity (h : History α) (n : Nat) : History α := evict { h with capacity := max n 1 }

def size (h : History α) : Nat := h.entries.length

end History

end BoundValues
