import PriceBoard.Decimal.Notation

/-!
# A fixed number of places

The exact binary value is rounded to the grid of `10 ^ -places`, an exact half
going to the even neighbour. The sign of a negative number stays even if all
digits are zero.
-/

namespace PriceBoard.Decimal

def fixedMagnitude (places : Nat) (b : Binary) : List Char :=
  let n := roundDiv (b.num * Nat.pow 10 places) b.den .toEven
  let ds := padZeros (places + 1) (digitChars n)
  let whole := ds.take (ds.length - places)
  if places = 0 then whole else whole ++ '.' :: ds.drop (ds.length - places)

def fixed (places : Nat) (x : Float) : String :=
  String.ofList <| match split x with
    | .nan => nanText
    | .infinite negative => infinityText negative
    | .finite negative b => (if negative then ['-'] else []) ++ fixedMagnitude places b

end PriceBoard.Decimal
