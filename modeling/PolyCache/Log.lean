-- Diagnostic events.
namespace PolyCache

inductive Level where
  | debug
  | info
  | warn
  | error
deriving DecidableEq, Repr

structure LogEvent where
  level : Level
  message : String
  fields : List (String × String)
deriving DecidableEq

def Level.name : Level → String
  | .debug => "debug"
  | .info => "info"
  | .warn => "warn"
  | .error => "error"

end PolyCache
