import PriceBoard.Feed.Tick
import PriceBoard.Hub.Calls

/-!
# Rehearsals

An outlet that follows a script, one cue for each publish, and keeps what it
accepted. Rates are checked by themselves or by a hub.
-/

namespace PriceBoard

inductive Cue
  | accept
  | reject
  | fail (payload : Payload)
  | cancel
deriving DecidableEq, Repr

structure Rehearsal where
  script : List Cue := []
  usesHub : Bool := false
  calls : Nat := 0
  cancelled : Bool := false
  accepted : Array (Rate Float) := #[]
  shared : Shared := {}

namespace Rehearsal

def judge (s : Rehearsal) (r : Rate Float) : Verdict × Rehearsal :=
  if s.usesHub then
    match s.shared.publish r with
    | (.ok _, shared) => (.accepted, { s with accepted := s.accepted.push r, shared := shared })
    | (.error fault, shared) => (.rejected fault, { s with shared := shared })
  else
    match r.fault? with
    | none => (.accepted, { s with accepted := s.accepted.push r })
    | some fault => (.rejected fault, s)

def publish (r : Rate Float) (s : Rehearsal) : Verdict × Rehearsal :=
  let cue := s.script.headD .accept
  let s := { s with script := s.script.tail, calls := s.calls + 1 }
  match cue with
  | .accept => s.judge r
  | .reject => (.rejected .emptyKey, s)
  | .fail payload => (.failed payload, s)
  | .cancel => { s with cancelled := true }.judge r

def outlet : Outlet Rehearsal where
  isCancelled s := s.cancelled
  publish := publish
  write e s := { s with shared := s.shared.write e }

end Rehearsal

/-! ## Rehearsed ticks -/

/-- A rehearsed tick: its summary, the number of publishes, the rates that were
accepted and what was logged. -/
structure RehearsedTick where
  summary : TickSummary
  calls : Nat
  accepted : List (Rate Float)
  entries : List LogEntry

namespace Feed

def rehearseTick (f : Feed) (now : Time.Timestamp) (s : Rehearsal) :
    RehearsedTick × Feed × Rehearsal :=
  let (t, f, after) := f.tick Rehearsal.outlet now s
  ({ summary := t
     calls := after.calls - s.calls
     accepted := after.accepted.toList.drop s.accepted.size
     entries := after.shared.log.toList.drop s.shared.log.size }, f, after)

def rehearse (f : Feed) (now : Time.Timestamp) : (ticks : Nat) → Rehearsal →
    List RehearsedTick × Feed × Rehearsal
  | 0, s => ([], f, s)
  | n + 1, s =>
    let (t, f, s) := f.rehearseTick now s
    let (ts, f, s) := f.rehearse now n s
    (t :: ts, f, s)

end Feed

end PriceBoard
