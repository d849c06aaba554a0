import BoundValues.Control.Capability

namespace BoundValues

/-- A kind of bound value. A captioned value is a monitored one with its text shown beside it. -/
inductive Kind
  | plain | monitored | captioned | config | full
deriving DecidableEq, Repr

namespace Kind

def capabilities : Kind → Capabilities
  | plain => .ofList []
  | monitored => .ofList [.external]
  | captioned => .ofList [.external, .text]
  | config => .ofList [.deferred, .validation, .visibility, .string, .immediate]
  | full => .ofList Capability.all

def path : Kind → String
  | plain => "horizon_databind_core::compose::simple::SimpleValue"
  | monitored => "horizon_databind_core::compose::monitored::MonitoredValue"
  | captioned => "horizon_databind_core::compose::monitored::MonitoredValueWithText"
  | config => "horizon_databind_core::compose::config::ConfigValue"
  | full => "horizon_databind_core::compose::full::FullValue"

end Kind

/-- A concrete type: a kind over a value type, which its name stands for. -/
structure Concrete where
  kind : Kind
  type : String
deriving DecidableEq, Repr

def Concrete.name (c : Concrete) : String := c.kind.path ++ "<" ++ c.type ++ ">"

end BoundValues
