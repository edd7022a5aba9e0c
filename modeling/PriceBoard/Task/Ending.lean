import PriceBoard.Subscription.Failure
import PriceBoard.Text.Quoted
import PriceBoard.Time.Span

/-!
# How tasks end

A task ends by itself, fails, or is aborted. Whoever stops it and waits learns of
everything but the first, or that it did not end in time.
-/

namespace PriceBoard

inductive TaskEnd
  | completed
  | failed (payload : Payload)
  | aborted
deriving DecidableEq, Repr

/-- What went wrong, if something did. Tasks are not told apart: each is task N. -/
def TaskEnd.detail? : TaskEnd → Option String
  | .completed => none
  | .failed (.text s) => some ("task N panicked with message " ++ Text.quoted s)
  | .failed .other => some "task N panicked"
  | .aborted => some "task N was cancelled"

inductive StopFault
  | graceElapsed (component : String) (grace : Time.Nanos)
  | taskFailed (component detail : String)
deriving DecidableEq, Repr

def StopFault.message : StopFault → String
  | .graceElapsed component grace => s!"{component} did not stop within {Time.spanText grace}"
  | .taskFailed component detail => s!"{component} failed: {detail}"

end PriceBoard
