/-
**Log lines.** What passes and evaluation report along the way, as data.
-/

set_option autoImplicit false

namespace FixedNet

/-- How much a log line matters. -/
inductive Level where
  | trace
  | debug
  | info
  | warn
deriving DecidableEq

instance : ToString Level where
  toString
    | .trace => "TRACE"
    | .debug => "DEBUG"
    | .info => "INFO"
    | .warn => "WARN"

/-- A line of a log. -/
structure LogLine where
  level : Level
  text : String
deriving DecidableEq

instance : ToString LogLine := ⟨fun l => s!"{l.level} {l.text}"⟩

end FixedNet
