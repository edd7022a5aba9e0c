import PriceBoard.Task.Ending

/-!
# Loops

A loop works at regular times until it is cancelled. Its clock counts seconds in
63 bits, so a first time too far away cannot be told.
-/

namespace PriceBoard

open Time (Nanos)

/-- What the clock shows when virtual time begins. -/
def clockOffset : Nanos := Time.ofSeconds 1000000

/-- The first instant that the clock cannot show. -/
def clockEnd : Nanos := Time.ofSeconds (Nat.pow 2 63)

/-- The instant a while after `now`, if the clock can show it. -/
def after? (now span : Nanos) : Option Nanos :=
  if clockOffset + now + span < clockEnd then some (now + span) else none

inductive LoopPhase
  | unstarted
  | running (due : Nanos)
  | ended (e : TaskEnd)
deriving DecidableEq, Repr

namespace LoopPhase

/-- The phase of a loop that starts now and first works after `delay`. -/
def begin (delay period now : Nanos) : LoopPhase :=
  match after? now delay with
  | none => .ended (.failed (.text "overflow when adding duration to instant"))
  | some due =>
    if period = 0 then .ended (.failed (.text "`period` must be non-zero."))
    else .running due

def ending? : LoopPhase → Option TaskEnd
  | .ended e => some e
  | _ => none

def isFinished (p : LoopPhase) : Bool := p.ending?.isSome

def due? : LoopPhase → Option Nanos
  | .running due => some due
  | _ => none

/-- The phase of an aborted loop. One that has ended stays as it ended. -/
def abort : LoopPhase → LoopPhase
  | .ended e => .ended e
  | _ => .ended .aborted

end LoopPhase

end PriceBoard
