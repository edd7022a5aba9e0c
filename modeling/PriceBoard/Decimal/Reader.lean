import PriceBoard.Decimal.Binary

/-!
# Reading decimals

`ofDecimal` is the double nearest to `m * 10 ^ e`. `read?` accepts the number
text of settings: an optional sign, then digits with an optional point and an
optional exponent, or the name of infinity or NaN in any case.
-/

namespace PriceBoard.Decimal

/-- Beyond these exponents the value is zero or infinite whatever the digits. -/
def ofDecimal (m : Nat) (e : Int) : Float :=
  if m = 0 then 0
  else
    let lead := e + (Nat.toDigits 10 m).length
    if lead < -400 then 0
    else if 400 < lead then Float.ofScientific 1 false 400
    else Float.ofScientific m (e < 0) e.natAbs

def signed (negative : Bool) (x : Float) : Float := if negative then -x else x

def isDigit (c : Char) : Bool := '0' ≤ c && c ≤ '9'

def digitValue (c : Char) : Nat := c.toNat - '0'.toNat

def natOfDigits (cs : List Char) : Nat :=
  cs.foldl (fun n c => 10 * n + digitValue c) 0

/-- Splits off an optional sign; `true` for a minus. -/
def takeSign : List Char → Bool × List Char
  | '-' :: cs => (true, cs)
  | '+' :: cs => (false, cs)
  | cs => (false, cs)

/-- The rows of digits before and after an optional point, and what follows. -/
def takeSignificand (cs : List Char) : List Char × List Char × List Char :=
  let whole := cs.takeWhile isDigit
  match cs.dropWhile isDigit with
  | '.' :: rest => (whole, rest.takeWhile isDigit, rest.dropWhile isDigit)
  | rest => (whole, [], rest)

/-- An exponent that must take up the whole text. -/
def readExponent? : List Char → Option Int
  | [] => some 0
  | c :: cs =>
    if c = 'e' ∨ c = 'E' then
      let (negative, ds) := takeSign cs
      if ds ≠ [] ∧ ds.all isDigit then
        let n := natOfDigits ds
        some (if negative then -(n : Int) else n)
      else none
    else none

def named? (cs : List Char) : Option Float :=
  let name := cs.map Char.toLower
  if name = "inf".toList ∨ name = "infinity".toList then some (1 / 0)
  else if name = "nan".toList then some (0 / 0)
  else none

def read? (text : List Char) : Option Float :=
  let (negative, cs) := takeSign text
  let value? := match takeSignificand cs with
    | ([], [], _) => named? cs
    | (whole, places, rest) =>
      (readExponent? rest).map fun e =>
        ofDecimal (natOfDigits (whole ++ places)) (e - places.length)
  value?.map (signed negative)

end PriceBoard.Decimal
