import PriceBoard.Decimal.Notation

/-!
# Lengths of time

A length of time is a number of nanoseconds. Its text uses the largest of s,
ms, µs and ns in which it is at least one, with an exact fraction.
-/

namespace PriceBoard.Time

abbrev Nanos := Nat

def ofMillis (ms : Nat) : Nanos := ms * 1000000

def ofSeconds (s : Nat) : Nanos := s * 1000000000

/-- The end of the millisecond that an instant lies in. -/
def upToMillis (n : Nanos) : Nanos := ofMillis ((n + 999999) / 1000000)

/-- `n / 10 ^ places` without trailing zeros. -/
def fractionText (n places : Nat) : List Char :=
  let whole := Decimal.digitChars (n / Nat.pow 10 places)
  let part := Decimal.padZeros places (Decimal.digitChars (n % Nat.pow 10 places))
  let part := (part.reverse.dropWhile (· == '0')).reverse
  if n % Nat.pow 10 places = 0 then whole else whole ++ '.' :: part

def spanText (n : Nanos) : String :=
  if 1000000000 ≤ n then String.ofList (fractionText n 9) ++ "s"
  else if 1000000 ≤ n then String.ofList (fractionText n 6) ++ "ms"
  else if 1000 ≤ n then String.ofList (fractionText n 3) ++ "µs"
  else String.ofList (fractionText n 0) ++ "ns"

end PriceBoard.Time
