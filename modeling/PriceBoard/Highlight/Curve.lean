import PriceBoard.Scalar
import PriceBoard.Time.Span

/-!
# The fade curve

A highlight fades in a number of equal steps over a duration, fast at first and
slow at the end.
-/

namespace PriceBoard

structure Curve where
  steps : Nat
  duration : Time.Nanos
  steps_pos : 0 < steps
deriving DecidableEq, Repr

namespace Curve

def ofSteps (steps : Nat) (duration : Time.Nanos) : Curve := ⟨max steps 1, duration, by omega⟩

def standard : Curve := ofSteps 50 (Time.ofMillis 500)

instance : Inhabited Curve := ⟨standard⟩

/-- The time of one step, in whole nanoseconds. -/
def interval (c : Curve) : Time.Nanos := c.duration / c.steps

def intensityAt {π : Type} [Scalar π] (c : Curve) (start : π) (step : Nat) : π :=
  if c.steps ≤ step then 0
  else
    let progress : π := Scalar.ofNat step / Scalar.ofNat c.steps
    let eased : π := 1 - (1 - progress) * (1 - progress)
    start * (1 - eased)

end Curve

end PriceBoard
