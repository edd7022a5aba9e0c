import PriceBoard.Hub.Calls
import PriceBoard.Task.Loop
import PriceBoard.Task.Process

/-!
# The monitor

The monitor logs the size of the hub once in every interval, for the first time
after one whole interval.
-/

namespace PriceBoard

open Time (Nanos)

structure Monitor where
  interval : Nanos
  phase : LoopPhase := .unstarted
  isCancelled : Bool := false

namespace Monitor

def cancelledEntry : LogEntry := ⟨.debug, "Snapshot monitor cancelled", []⟩

def begin (now : Nanos) (m : Monitor) : Monitor :=
  match m.phase with
  | .unstarted => { m with phase := .begin m.interval m.interval now }
  | _ => m

def beat (now : Nanos) (m : Monitor) (s : Shared) : Monitor × Shared :=
  match m.phase with
  | .running due =>
    if m.isCancelled then ({ m with phase := .ended .completed }, s.write cancelledEntry)
    else if due ≤ now then ({ m with phase := .running (now + m.interval) }, (s.call .check).2)
    else (m, s)
  | _ => (m, s)

def settle (now : Nanos) (m : Monitor) (s : Shared) : Monitor × Shared :=
  (m.begin now).beat now s

def cancel (m : Monitor) : Monitor := { m with isCancelled := true }

def abort (m : Monitor) : Monitor := { m with phase := m.phase.abort }

def component : String := "snapshot_monitor"

def task : Task (Monitor × Shared) where
  settle now := fun (m, s) => m.settle now s
  due? := fun (m, _) => m.phase.due?
  component := component
  cancel := fun (m, s) => (m.cancel, s)
  abort := fun (m, s) => (m.abort, s)
  ending? := fun (m, _) => m.phase.ending?
  write e := fun (m, s) => (m, s.write e)

end Monitor

end PriceBoard
