import PriceBoard.Decimal.Binary

/-!
# Scalars

The numbers that prices and highlight intensities are made of, with the
operations the board performs on them. Doubles are the scalars that run;
anything that rounds like them, or not at all, may stand in for them.
-/

namespace PriceBoard

class Scalar (π : Type) extends Add π, Sub π, Mul π, Div π, LT π, LE π, BEq π where
  ofNat : Nat → π
  decLt : DecidableLT π
  decLe : DecidableLE π
  finite : π → Bool
  /-- Two such numbers have a finite sum. -/
  moderate : π → Bool
  /-- The nearest natural number up to a bound, a half going up; negative
  numbers and NaN count as zero. -/
  nearest : Nat → π → Nat

namespace Scalar

variable {π : Type} [Scalar π]

instance (priority := low) decidableLT : DecidableLT π := Scalar.decLt

instance (priority := low) decidableLE : DecidableLE π := Scalar.decLe

instance (priority := low) instOfNat (n : Nat) : OfNat π n := ⟨Scalar.ofNat n⟩

/-- The midpoint of two prices, halved before adding where the sum could overflow. -/
def midpoint (a b : π) : π :=
  if moderate a ∧ moderate b then (a + b) / 2 else a / 2 + b / 2

/-- Holds `x` between zero and one; NaN stays. -/
def clampUnit (x : π) : π := if x < 0 then 0 else if 1 < x then 1 else x

end Scalar

def halfLargest : Float := Float.ofBits 0x7FDFFFFFFFFFFFFF

instance : Scalar Float where
  ofNat := Float.ofNat
  decLt := inferInstance
  decLe := inferInstance
  finite := Float.isFinite
  moderate x := -halfLargest ≤ x && x ≤ halfLargest
  nearest := Decimal.nearest

end PriceBoard
