import PriceBoard.Board.Basic
import PriceBoard.Log
import PriceBoard.Notifier

/-!
# Logging changes

Rows, pulses and the status line are worth a log entry; highlight steps and
ages change too often.
-/

namespace PriceBoard

def Change.entry? : Change → Option LogEntry
  | .rowAdded i key => some ⟨.debug, "Row added", [("index", toString i), ("instrument", key)]⟩
  | .pulseStarted i direction =>
    some ⟨.debug, "Pulse started", [("index", toString i), ("direction", direction.name)]⟩
  | .statusText => some ⟨.debug, "Status text changed", []⟩
  | .rowUpdated .. | .highlightChanged _ | .ageRefreshed _ => none

inductive Watcher
  | recorder
  | changeLog
deriving DecidableEq, Repr

namespace Notifier

def recorded (calls : List (Listener Watcher × Change)) : List Change :=
  calls.filterMap fun (l, c) => if l.tag = .recorder then some c else none

def logged (calls : List (Listener Watcher × Change)) : List LogEntry :=
  calls.filterMap fun (l, c) => if l.tag = .changeLog then c.entry? else none

end Notifier

end PriceBoard
