import PriceBoard.Decimal.Notation
import PriceBoard.Decimal.Reader
import PriceBoard.Text.Blank
import PriceBoard.Time.Timestamp

/-!
# RFC 3339 times

Times are written in UTC with 0, 3, 6 or 9 fraction digits, the fewest that are
exact. The reader is more liberal: blanks may stand around every part, numbers
may be short, a year may have a sign, and any offset is converted to UTC.
-/

namespace PriceBoard.Time

open Decimal (digitChars padZeros natOfDigits isDigit)
open Text (dropBlanks)

/-! ## Writing -/

/-- Four digits for the years 0 to 9999; other years have a sign. -/
def yearText (year : Int) : List Char :=
  let digits := padZeros 4 (digitChars year.natAbs)
  if 0 ≤ year ∧ year ≤ 9999 then digits
  else (if year < 0 then '-' else '+') :: digits

def secondFraction (nanos : Nat) : List Char :=
  if nanos = 0 then []
  else if nanos % 1000000 = 0 then '.' :: padZeros 3 (digitChars (nanos / 1000000))
  else if nanos % 1000 = 0 then '.' :: padZeros 6 (digitChars (nanos / 1000))
  else '.' :: padZeros 9 (digitChars nanos)

def Date.text (d : Date) : List Char :=
  yearText d.year ++ '-' :: twoDigits d.month ++ '-' :: twoDigits d.day

def Timestamp.wire (t : Timestamp) : List Char :=
  (Date.ofDays t.day).text ++ 'T' :: (TimeOfDay.ofSeconds t.secondOfDay).clock t.isLeap ++
    secondFraction (t.nanos % nanosPerSecond) ++ ['Z']

/-! ## Reading -/

/-- One to `most` digits, with blanks before them skipped. -/
def takeNumber? (most : Nat) (text : List Char) : Option (Nat × List Char) :=
  let cs := dropBlanks text
  let digits := (cs.take most).takeWhile isDigit
  if digits = [] then none else some (natOfDigits digits, cs.drop digits.length)

/-- A year: up to four digits, or a sign and any number of digits. -/
def takeYear? (text : List Char) : Option (Int × List Char) :=
  let signed? (cs : List Char) : Option (Nat × List Char) :=
    let digits := cs.takeWhile isDigit
    if digits = [] then none else some (natOfDigits digits, cs.drop digits.length)
  match dropBlanks text with
  | '-' :: cs => (signed? cs).map fun (n, rest) => (-(n : Int), rest)
  | '+' :: cs => (signed? cs).map fun (n, rest) => ((n : Int), rest)
  | cs => (takeNumber? 4 cs).map fun (n, rest) => ((n : Int), rest)

/-- A fixed character after optional blanks. -/
def takeMark? (mark : Char) (text : List Char) : Option (List Char) :=
  match dropBlanks text with
  | c :: rest => if c = mark then some rest else none
  | [] => none

/-- An optional fraction of a second in nanoseconds; digits after the ninth are
ignored. -/
def takeFraction? : List Char → Option (Nat × List Char)
  | '.' :: cs =>
    let digits := cs.takeWhile isDigit
    if digits = [] then none
    else
      let kept := digits.take 9
      some (natOfDigits kept * Nat.pow 10 (9 - kept.length), cs.dropWhile isDigit)
  | cs => some (0, cs)

def twoDigitNumber? : List Char → Option (Nat × List Char)
  | a :: b :: rest => if isDigit a ∧ isDigit b then some (natOfDigits [a, b], rest) else none
  | _ => none

/-- Hours and minutes of an offset, in seconds. -/
def takeOffsetDigits? (cs : List Char) : Option (Nat × List Char) := do
  let (hours, rest) ← twoDigitNumber? cs
  let (minutes, rest) ← twoDigitNumber? (rest.dropWhile fun c => c == ':' || Text.isBlank c)
  if minutes < 60 then some (hours * 3600 + minutes * 60, rest) else none

def takeOffset? (text : List Char) : Option (Int × List Char) :=
  let cs := dropBlanks text
  if (cs.take 3).map Char.toUpper = ['U', 'T', 'C'] then some (0, cs.drop 3)
  else
    match cs with
    | c :: rest =>
      if c = 'Z' ∨ c = 'z' then some (0, rest)
      else if c = '+' then (takeOffsetDigits? rest).map fun (n, rest) => ((n : Int), rest)
      else if c = '-' ∨ c = '−' then
        (takeOffsetDigits? rest).map fun (n, rest) => (-(n : Int), rest)
      else none
    | [] => none

/-- The UTC time of a local date and time, if it is one. -/
def Timestamp.ofLocal? (d : Date) (t : TimeOfDay) (nanos : Nat) (offset : Int) : Option Timestamp :=
  let inRange := firstYear ≤ d.year ∧ d.year ≤ lastYear ∧ d.IsValid ∧
    t.hour < 24 ∧ t.minute < 60 ∧ t.second ≤ 60 ∧ offset.natAbs < secondsPerDay
  if inRange then
    let leap := t.second = 60
    let t := if leap then { t with second := 59 } else t
    let nanos := if leap then nanos + nanosPerSecond else nanos
    let utc : Timestamp := ⟨d.toDays * secondsPerDay + t.toSeconds - offset, nanos⟩
    let year := (Date.ofDays utc.day).year
    if firstYear ≤ year ∧ year ≤ lastYear then some utc else none
  else none

def Timestamp.read? (text : List Char) : Option Timestamp := do
  let (year, rest) ← takeYear? text
  let (month, rest) ← takeNumber? 2 (← takeMark? '-' rest)
  let (day, rest) ← takeNumber? 2 (← takeMark? '-' rest)
  match rest with
  | [] => none
  | c :: rest =>
    if c = 'T' ∨ c = 't' ∨ c = ' ' then
      let (hour, rest) ← takeNumber? 2 rest
      let (minute, rest) ← takeNumber? 2 (← takeMark? ':' rest)
      let (second, rest) ← takeNumber? 2 (← takeMark? ':' rest)
      let (nanos, rest) ← takeFraction? rest
      let (offset, rest) ← takeOffset? rest
      if dropBlanks rest = [] then
        Timestamp.ofLocal? ⟨year, month, day⟩ ⟨hour, minute, second⟩ nanos offset
      else none
    else none

end PriceBoard.Time
