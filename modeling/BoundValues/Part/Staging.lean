namespace BoundValues

/-- A staged edit, and whether one was staged since the last apply or revert. -/
structure Staging (α : Type) where
  pending : Option α := none
  dirty : Bool := false
deriving DecidableEq, Repr

namespace Staging

variable {α : Type}

def stage (_ : Staging α) (v : α) : Staging α := ⟨some v, true⟩

def revert (_ : Staging α) : Staging α := ⟨none, false⟩

def difference? [BEq α] (s : Staging α) (committed : α) : Option α :=
  s.pending.filter fun p => p != committed

def hasChanges [BEq α] (s : Staging α) (committed : α) : Bool := (s.difference? committed).isSome

/-- Hands out the staged value when it differs from the committed one. -/
def take? [BEq α] (s : Staging α) (committed : α) : Option (α × Staging α) :=
  (s.difference? committed).map fun p => (p, s.revert)

def effective (s : Staging α) (committed : α) : α := s.pending.getD committed

/-- Opens the staged value for changes in place: a copy of the committed value when there is none.
The mark for a staged edit stays as it is. -/
def withPending (s : Staging α) (v : α) : Staging α := { s with pending := some v }

end Staging

end BoundValues
