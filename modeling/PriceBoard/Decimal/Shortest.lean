import PriceBoard.Decimal.Binary

/-!
# The fewest digits that read back

A double stands for all reals that round to it: the interval between the
midpoints to its two neighbours, ends included when its significand is even.
`shortest` finds the decimal with the fewest digits in that interval. It tries
the grids of one to seventeen significant digits, coarsest first; on each only
the two neighbours of the value can be in the interval, and the nearer wins.
-/

namespace PriceBoard.Decimal

/-- The decimal `digits * 10 ^ exponent`. -/
structure Digits where
  digits : Nat
  exponent : Int
deriving DecidableEq, Repr

def tenNum (e : Int) : Nat := Nat.pow 10 e.toNat

def tenDen (e : Int) : Nat := Nat.pow 10 (-e).toNat

namespace Binary

/-- Whether `d * 10 ^ e` rounds to the value. -/
def readsBack (b : Binary) (d : Nat) (e : Int) : Bool :=
  -- all three sides over the common denominator `4 * b.den * tenDen e`
  let x := 4 * d * tenNum e * b.den
  let unit := Nat.pow 2 b.q.toNat * tenDen e
  let above := (4 * b.m + 2) * unit
  let below := (4 * b.m - (if b.narrowBelow then 1 else 2)) * unit
  if b.m % 2 = 0 then below ≤ x && x ≤ above else below < x && x < above

/-- The least `k` with value below `10 ^ k`. -/
def scale (b : Binary) : Int :=
  let guess := ((b.m.log2 : Int) + b.q) * 30103 / 100000
  let fits (k : Int) : Bool := b.num * tenDen k < tenNum k * b.den
  if fits (guess - 1) then guess - 1
  else if fits guess then guess
  else if fits (guess + 1) then guess + 1
  else guess + 2

/-- The candidate on the grid of `10 ^ e`, if one of the value's neighbours reads back. -/
def onGrid (b : Binary) (tie : Tie) (e : Int) : Option Digits :=
  let num := b.num * tenDen e
  let den := b.den * tenNum e
  let low := num / den
  match b.readsBack low e, b.readsBack (low + 1) e with
  | true, true => some ⟨roundDiv num den tie, e⟩
  | true, false => some ⟨low, e⟩
  | false, true => some ⟨low + 1, e⟩
  | false, false => none

end Binary

/-- Moves factors of ten from the digits into the exponent. -/
def stripZeros : Nat → Digits → Digits
  | 0, d => d
  | fuel + 1, d =>
    if d.digits ≠ 0 ∧ d.digits % 10 = 0 then stripZeros fuel ⟨d.digits / 10, d.exponent + 1⟩ else d

/-- The exact decimal value, used when no grid of seventeen digits has a hit. -/
def exact (b : Binary) : Digits :=
  if 0 ≤ b.q then ⟨b.num, 0⟩ else ⟨b.m * Nat.pow 5 (-b.q).toNat, b.q⟩

def shortest (tie : Tie) (b : Binary) : Digits :=
  if b.m = 0 then ⟨0, 0⟩
  else
    let k := b.scale
    let found := (List.range 17).findSome? fun n : Nat => b.onGrid tie (k - (n + 1))
    let d := found.getD (exact b)
    stripZeros (d.digits.log2 + 1) d

end PriceBoard.Decimal
