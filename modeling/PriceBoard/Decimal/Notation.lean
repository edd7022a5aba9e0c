import PriceBoard.Decimal.Shortest

/-!
# Layout of numbers

A `Layout` holds the decisions of one number format. `plain` is the format of
messages and of the board; `wire` is the format of rates on the wire.
-/

namespace PriceBoard.Decimal

structure Layout where
  tie : Tie
  /-- Leading-digit exponents below this use the scientific form; none do if absent. -/
  plainFrom : Option Int
  /-- Leading-digit exponents from this on use the scientific form; none do if absent. -/
  plainBelow : Option Int
  /-- Whole numbers end in a point and a zero. -/
  pointZero : Bool

def digitChars (n : Nat) : List Char := Nat.toDigits 10 n

def padZeros (width : Nat) (digits : List Char) : List Char :=
  List.replicate (width - digits.length) '0' ++ digits

namespace Layout

def positional (l : Layout) (d : Digits) : List Char :=
  let ds := digitChars d.digits
  if 0 ≤ d.exponent then
    ds ++ List.replicate d.exponent.toNat '0' ++ (if l.pointZero then ['.', '0'] else [])
  else
    let places := (-d.exponent).toNat
    let ds := padZeros (places + 1) ds
    ds.take (ds.length - places) ++ '.' :: ds.drop (ds.length - places)

def scientific (d : Digits) : List Char :=
  let ds := digitChars d.digits
  let e := d.exponent + (ds.length - 1 : Nat)
  let significand :=
    match ds with
    | first :: rest@(_ :: _) => first :: '.' :: rest
    | short => short
  significand ++ 'e' :: (if e < 0 then '-' else '+') :: digitChars e.natAbs

def magnitude (l : Layout) (b : Binary) : List Char :=
  let d := shortest l.tie b
  let lead := d.exponent + ((digitChars d.digits).length - 1 : Nat)
  let isPositional := d.digits = 0 ∨ (l.plainFrom.all (· ≤ lead) ∧ l.plainBelow.all (lead < ·))
  if isPositional then l.positional d else scientific d

def finite (l : Layout) (negative : Bool) (b : Binary) : List Char :=
  (if negative then ['-'] else []) ++ l.magnitude b

end Layout

/-- The shortest digits, always positional, a whole number without a point. -/
def plain : Layout where
  tie := .up
  plainFrom := none
  plainBelow := none
  pointZero := false

/-- The shortest digits, positional from `10 ^ -5` up to `10 ^ 16`. -/
def wire : Layout where
  tie := .toEven
  plainFrom := some (-5)
  plainBelow := some 16
  pointZero := true

def infinityText (negative : Bool) : List Char :=
  if negative then ['-', 'i', 'n', 'f'] else ['i', 'n', 'f']

def nanText : List Char := ['N', 'a', 'N']

def plainText (x : Float) : String :=
  String.ofList <| match split x with
    | .nan => nanText
    | .infinite negative => infinityText negative
    | .finite negative b => plain.finite negative b

end PriceBoard.Decimal
