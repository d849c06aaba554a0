namespace BoundValues

/-- An optional behaviour of a bound value. -/
inductive Capability
  | deferred | external | validation | history | visibility | string | text | callbacks | immediate
deriving DecidableEq, Repr

namespace Capability

def all : List Capability :=
  [deferred, external, validation, history, visibility, string, text, callbacks, immediate]

def bit : Capability → Nat
  | deferred => 0 | external => 1 | validation => 2 | history => 3 | visibility => 4
  | string => 5 | text => 6 | callbacks => 7 | immediate => 8

def name : Capability → String
  | deferred => "deferred" | external => "external" | validation => "validation"
  | history => "history" | visibility => "visibility" | string => "string" | text => "text"
  | callbacks => "callbacks" | immediate => "immediate"

def flag : Capability → String
  | deferred => "DEFERRED_UPDATE"
  | external => "EXTERNAL_SYNC"
  | validation => "VALIDATION"
  | history => "HISTORY"
  | visibility => "VISIBILITY"
  | string => "STRING_CONVERSION"
  | text => "TEXT_REPRESENTATION"
  | callbacks => "CUSTOM_CALLBACKS"
  | immediate => "IMMEDIATE_APPLY"

end Capability

/-- A descriptor: a set of capabilities as bits. -/
structure Capabilities where
  bits : Nat
deriving DecidableEq, Repr

namespace Capabilities

/-- The descriptor with the known ones of some bits. -/
def ofBits (bits : Nat) : Capabilities := ⟨bits % (1 <<< Capability.all.length)⟩

def ofList (cs : List Capability) : Capabilities := ⟨cs.foldl (fun bits c => bits ||| 1 <<< c.bit) 0⟩

def declares (s : Capabilities) (c : Capability) : Bool := s.bits.testBit c.bit

def declaresAll (s : Capabilities) (cs : List Capability) : Bool := cs.all s.declares

def toList (s : Capabilities) : List Capability := Capability.all.filter s.declares

/-- The names of the declared capabilities in bit order. -/
def flags (s : Capabilities) : List String := s.toList.map Capability.flag

end Capabilities

/-- What a control lets others ask of it: the concrete type it is, the capabilities it declares, and
the capability it hands out when asked for one. -/
structure Interface where
  concrete : String
  declared : Capabilities
  offer : Capability → Option Capability

namespace Interface

def plain (concrete : String) (declared : Capabilities) : Interface :=
  ⟨concrete, declared, fun c => if declared.declares c then some c else none⟩

/-- A query succeeds when the capability is declared and the control hands out just that one. -/
def answers (i : Interface) (c : Capability) : Bool := i.declared.declares c && i.offer c == some c

/-- An interface that hands out what it declares answers for just that. -/
@[simp] theorem answers_plain (concrete : String) (declared : Capabilities) (c : Capability) :
    (plain concrete declared).answers c = declared.declares c := by
  cases h : declared.declares c <;> simp [answers, plain, h]

def is (i : Interface) (concrete : String) : Bool := i.concrete == concrete

end Interface

end BoundValues
