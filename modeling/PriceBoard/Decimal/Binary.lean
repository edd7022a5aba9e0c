/-!
# Doubles as exact binary fractions

`split` takes a double apart: NaN, an infinity, or a signed magnitude
`m * 2 ^ q`. Everything else about number text is exact arithmetic on `m`
and `q`.
-/

namespace PriceBoard.Decimal

/-- A magnitude `m * 2 ^ q`. -/
structure Binary where
  m : Nat
  q : Int
  /-- The gap to the next smaller double is half the gap to the next larger one. -/
  narrowBelow : Bool
deriving DecidableEq, Repr

namespace Binary

def num (b : Binary) : Nat := b.m * Nat.pow 2 b.q.toNat

def den (b : Binary) : Nat := Nat.pow 2 (-b.q).toNat

theorem den_pos (b : Binary) : 0 < b.den := Nat.pow_pos (by decide)

end Binary

inductive Parts
  | nan
  | infinite (negative : Bool)
  | finite (negative : Bool) (magnitude : Binary)
deriving DecidableEq, Repr

def split (x : Float) : Parts :=
  let bits := x.toBits.toNat
  let negative := bits / Nat.pow 2 63 == 1
  let exponent := bits / Nat.pow 2 52 % Nat.pow 2 11
  let fraction := bits % Nat.pow 2 52
  if exponent = 2047 then
    if fraction = 0 then .infinite negative else .nan
  else if exponent = 0 then
    .finite negative ⟨fraction, -1074, false⟩
  else
    .finite negative ⟨Nat.pow 2 52 + fraction, Int.ofNat exponent - 1075, fraction == 0 && exponent != 1⟩

inductive Tie
  | toEven
  | up
deriving DecidableEq, Repr

/-- The natural number nearest to `num / den`. -/
def roundDiv (num den : Nat) (tie : Tie) : Nat :=
  let floor := num / den
  match compare (2 * (num % den)) den, tie with
  | .lt, _ => floor
  | .gt, _ => floor + 1
  | .eq, .up => floor + 1
  | .eq, .toEven => if floor % 2 = 0 then floor else floor + 1

/-- The natural number nearest to `x`, a half going up; negative numbers and
NaN count as zero, and infinity as `top`. -/
def nearest (top : Nat) (x : Float) : Nat :=
  match split x with
  | .finite false b => min top (roundDiv b.num b.den .up)
  | .infinite false => top
  | _ => 0

/-- The least natural number not below `x`, with the same bounds as `nearest`. -/
def ceiling (top : Nat) (x : Float) : Nat :=
  match split x with
  | .finite false b => min top ((b.num + b.den - 1) / b.den)
  | .infinite false => top
  | _ => 0

end PriceBoard.Decimal
