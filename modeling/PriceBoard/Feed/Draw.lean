import PriceBoard.Feed.Quote

/-!
# Random choices

A tick draws some instruments of the universe without repetition, and a
variation and a spread for each. The numbers come from a 64-bit mixing
generator.
-/

namespace PriceBoard

/-- How many of `size` instruments a tick draws: the fraction rounded up, at
least one and at most all of them, none of none. -/
def selectionSize (size : Nat) (fraction : Float) : Nat :=
  if size = 0 then 0
  else min size (max 1 (Decimal.ceiling (Nat.pow 2 64 - 1) (Float.ofNat size * fraction)))

structure Rng where
  state : UInt64
deriving DecidableEq, Repr

namespace Rng

/-- The generator of a seed; without one, any will do. -/
def ofSeed (seed : Option Nat) : Rng := ⟨(seed.getD 0x5EED).toUInt64⟩

def next (g : Rng) : UInt64 × Rng :=
  let state := g.state + 0x9E3779B97F4A7C15
  let z := (state ^^^ (state >>> 30)) * 0xBF58476D1CE4E5B9
  let z := (z ^^^ (z >>> 27)) * 0x94D049BB133111EB
  (z ^^^ (z >>> 31), ⟨state⟩)

def below (g : Rng) (bound : Nat) : Nat × Rng :=
  let (x, g) := g.next
  (x.toNat % bound, g)

/-- A number from `low` up to but not including `high`. -/
def between (g : Rng) (low high : Float) : Float × Rng :=
  let (x, g) := g.next
  (low + (high - low) * (Float.ofNat (x.toNat / Nat.pow 2 11) / Float.ofNat (Nat.pow 2 53)), g)

/-- Brings `count` elements of an array to its front, in random order, beginning
at a position. -/
def shuffle (g : Rng) (pool : Array Nat) (position : Nat) : (count : Nat) → Array Nat × Rng
  | 0 => (pool, g)
  | count + 1 =>
    let (offset, g) := g.below (pool.size - position)
    g.shuffle (pool.swapIfInBounds position (position + offset)) (position + 1) count

/-- Different indices below `size`, `count` of them if there are as many. -/
def sample (g : Rng) (size count : Nat) : List Nat × Rng :=
  let (pool, g) := g.shuffle (Array.range size) 0 (min count size)
  (pool.toList.take count, g)

end Rng

/-- One drawn instrument, by its place in the universe, and how it is quoted. -/
structure Draw where
  index : Nat
  variation : Float
  spread : Float

namespace Rng

def draw (g : Rng) : List Nat → List Draw × Rng
  | [] => ([], g)
  | i :: indices =>
    let (variation, g) := g.between (-widestVariation) widestVariation
    let (spread, g) := g.between narrowestSpread widestSpread
    let (draws, g) := g.draw indices
    (⟨i, variation, spread⟩ :: draws, g)

def draws (g : Rng) (size : Nat) (fraction : Float) : List Draw × Rng :=
  let (indices, g) := g.sample size (selectionSize size fraction)
  g.draw indices

end Rng

end PriceBoard
