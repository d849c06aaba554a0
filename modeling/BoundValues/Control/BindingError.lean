import BoundValues.Control.Capability

namespace BoundValues

inductive BindingError
  | notFound (id : String)
  | typeMismatch (id expected actual : String)
  | valueDropped
  | unreadable (text type : String)
  | refused (message : String)
  | capabilityMissing (id : String) (capability : Capability)
deriving DecidableEq, Repr

def BindingError.message : BindingError → String
  | .notFound id => "No value registered under id '" ++ id ++ "'"
  | .typeMismatch id expected actual =>
    "Value '" ++ id ++ "' has type " ++ actual ++ ", not " ++ expected
  | .valueDropped => "The bound value has been dropped"
  | .unreadable text type => "Cannot parse '" ++ text ++ "' as " ++ type
  | .refused message => "Validation failed: " ++ message
  | .capabilityMissing id capability =>
    "Value '" ++ id ++ "' does not support Capabilities(" ++ capability.flag ++ ")"

end BoundValues
