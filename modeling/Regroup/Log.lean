set_option autoImplicit false

namespace Regroup

inductive Level where
  | trace
  | debug
  | info
  | warn
deriving DecidableEq, Repr

def Level.label : Level → String
  | .trace => "TRACE"
  | .debug => "DEBUG"
  | .info => "INFO"
  | .warn => "WARN"

structure LogLine where
  level : Level
  text : String
deriving DecidableEq, Repr

def LogLine.render (line : LogLine) : String := s!"{line.level.label} {line.text}"

end Regroup
