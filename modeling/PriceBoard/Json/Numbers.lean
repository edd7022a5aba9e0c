import PriceBoard.Decimal.Reader
import PriceBoard.Json.Fault

/-!
# JSON numbers

`takeNumber` reads a number for its value, `skipNumber` only checks its form.
-/

namespace PriceBoard.Json

open Decimal (isDigit natOfDigits ofDecimal signed)

/-- The fault of a missing digit: nothing is left, or something else stands there. -/
def digitFault : List Char → Fault
  | [] => .ended
  | _ => .grammar

def takeDigits (cs : List Char) : Except Fault (List Char × List Char) :=
  let digits := cs.takeWhile isDigit
  if digits = [] then .error (digitFault cs) else .ok (digits, cs.dropWhile isDigit)

/-- A whole part: a zero alone, or digits that do not start with one. -/
def takeWhole (cs : List Char) : Except Fault (List Char × List Char) :=
  match takeDigits cs with
  | .error e => .error e
  | .ok (digits, rest) =>
    if digits.head? = some '0' ∧ 1 < digits.length then .error .grammar else .ok (digits, rest)

def takePlaces : List Char → Except Fault (List Char × List Char)
  | '.' :: cs => takeDigits cs
  | cs => .ok ([], cs)

def takeExponent : List Char → Except Fault (Option Int × List Char)
  | c :: cs =>
    if c = 'e' ∨ c = 'E' then
      let (negative, cs) := Decimal.takeSign cs
      match takeDigits cs with
      | .error e => .error e
      | .ok (digits, rest) =>
        let n : Int := natOfDigits digits
        .ok (some (if negative then -n else n), rest)
    else .ok (none, c :: cs)
  | [] => .ok (none, [])

/-- The number with these parts; one too large for a double is an error. -/
def assemble (negative : Bool) (whole places : List Char) (exponent : Option Int) :
    Except Fault Number :=
  let n := natOfDigits whole
  if places = [] ∧ exponent = none ∧ negative = false ∧ n < Nat.pow 2 64 then .ok (.whole n)
  else if places = [] ∧ exponent = none ∧ negative = true ∧ 0 < n ∧ n ≤ Nat.pow 2 63 then
    .ok (.whole (-(n : Int)))
  else
    let x := ofDecimal (natOfDigits (whole ++ places)) (exponent.getD 0 - places.length)
    if x.isFinite then .ok (.real (signed negative x)) else .error .grammar

/-- A number that starts here with a digit or a minus sign. -/
def takeNumber (cs : List Char) : Except Fault (Number × List Char) := do
  let (negative, cs) := match cs with
    | '-' :: rest => (true, rest)
    | cs => (false, cs)
  let (whole, cs) ← takeWhole cs
  let (places, cs) ← takePlaces cs
  let (exponent, cs) ← takeExponent cs
  return (← assemble negative whole places exponent, cs)

/-- Passes over a number; a missing digit breaks the grammar wherever it is. -/
def skipNumber (cs : List Char) : Except Fault (List Char) := do
  let cs := match cs with
    | '-' :: rest => rest
    | cs => cs
  let strict {α : Type} : Except Fault α → Except Fault α
    | .ok a => .ok a
    | .error _ => .error .grammar
  let (_, cs) ← strict (takeWhole cs)
  let (_, cs) ← strict (takePlaces cs)
  let (_, cs) ← strict (takeExponent cs)
  return cs

def Number.toFloat : Number → Float
  | .whole n => signed (n < 0) (ofDecimal n.natAbs 0)
  | .real x => x

end PriceBoard.Json
