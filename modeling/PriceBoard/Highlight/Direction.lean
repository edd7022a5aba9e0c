import PriceBoard.Scalar

/-!
# Highlight directions and colours
-/

namespace PriceBoard

/-- A colour with an alpha channel; each channel is a byte. -/
structure Colour where
  red : Nat
  green : Nat
  blue : Nat
  alpha : Nat
deriving DecidableEq, Repr

namespace Colour

def transparent : Colour := ⟨0, 0, 0, 0⟩

/-- The colour at an intensity between zero and one: alpha in proportion, a
half rounded up. -/
def faded {π : Type} [Scalar π] (c : Colour) (intensity : π) : Colour :=
  { c with alpha := Scalar.nearest 255 (Scalar.ofNat c.alpha * Scalar.clampUnit intensity) }

end Colour

inductive Direction
  | up
  | down
  | flat
deriving DecidableEq, Repr, Inhabited

namespace Direction

/-- Where a price went; prices that do not compare did not move. -/
def ofMove {π : Type} [Scalar π] (old new : π) : Direction :=
  if old < new then .up else if new < old then .down else .flat

def colour : Direction → Colour
  | .up => ⟨0, 255, 0, 180⟩
  | .down => ⟨255, 0, 0, 180⟩
  | .flat => ⟨128, 128, 128, 100⟩

def arrow : Direction → String
  | .up => "▲"
  | .down => "▼"
  | .flat => "■"

def name : Direction → String
  | .up => "up"
  | .down => "down"
  | .flat => "flat"

def standard : Direction := .flat

end Direction

end PriceBoard
