import BoundValues.Control.BindingError
import BoundValues.Part.Cell

namespace BoundValues

/-- The outcome of an operation: the state after it, its reply, the commit that others are told of,
and the candidate that a validator ran on. -/
structure Step (σ α ρ : Type) where
  state : σ
  reply : ρ
  change : Option (Change α) := none
  checked : Option α := none

abbrev Outcome := Except BindingError

namespace Step

variable {σ τ α ρ π : Type}

def map (f : σ → τ) (g : ρ → π) (s : Step σ α ρ) : Step τ α π :=
  { state := f s.state, reply := g s.reply, change := s.change, checked := s.checked }

@[simp] theorem state_map (f : σ → τ) (g : ρ → π) (s : Step σ α ρ) :
    (s.map f g).state = f s.state := rfl

@[simp] theorem reply_map (f : σ → τ) (g : ρ → π) (s : Step σ α ρ) :
    (s.map f g).reply = g s.reply := rfl

@[simp] theorem change_map (f : σ → τ) (g : ρ → π) (s : Step σ α ρ) :
    (s.map f g).change = s.change := rfl

end Step

end BoundValues
