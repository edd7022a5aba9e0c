/-!
# Log entries
-/

namespace PriceBoard

inductive Level
  | trace | debug | info | warn | error
deriving DecidableEq, Repr

def Level.name : Level → String
  | .trace => "TRACE"
  | .debug => "DEBUG"
  | .info => "INFO"
  | .warn => "WARN"
  | .error => "ERROR"

structure LogEntry where
  level : Level
  message : String
  fields : List (String × String) := []
deriving DecidableEq, Repr

namespace LogEntry

def field? (e : LogEntry) (name : String) : Option String :=
  (e.fields.find? (·.1 == name)).map (·.2)

/-- Entries by level and message with their numbers, in order of first appearance. -/
def tally (entries : List LogEntry) : List (String × Nat) :=
  let titles := entries.map fun e => s!"{e.level.name} {e.message}"
  titles.eraseDups.map fun t => (t, titles.count t)

end LogEntry

end PriceBoard
