import PriceBoard.Time.Calendar

/-!
# Points in time

Whole seconds since 1970-01-01 in UTC plus nanoseconds. Nanoseconds from
`10 ^ 9` on are those of a leap second, which follows the 59th second of a
minute.
-/

namespace PriceBoard.Time

structure Timestamp where
  seconds : Int
  nanos : Nat
deriving DecidableEq, Repr, Inhabited

def nanosPerSecond : Nat := 1000000000

def secondsPerDay : Nat := 86400

structure TimeOfDay where
  hour : Nat
  minute : Nat
  second : Nat
deriving DecidableEq, Repr

namespace TimeOfDay

/-- The time of day of a number of seconds below one day. -/
def ofSeconds (s : Nat) : TimeOfDay := ⟨s / 3600, s / 60 % 60, s % 60⟩

def toSeconds (t : TimeOfDay) : Nat := t.hour * 3600 + t.minute * 60 + t.second

end TimeOfDay

namespace Timestamp

def ofNanos (n : Nat) : Timestamp := ⟨n / nanosPerSecond, n % nanosPerSecond⟩

def day (t : Timestamp) : Int := t.seconds.fdiv secondsPerDay

def secondOfDay (t : Timestamp) : Nat := (t.seconds.fmod secondsPerDay).toNat

def isLeap (t : Timestamp) : Bool := nanosPerSecond ≤ t.nanos

/-- The nanoseconds from `earlier` to `later`. A leap second lasts one second:
it counts when it lies before the later time of day, and the time inside one is
past its 59th second. -/
def since (later earlier : Timestamp) : Int :=
  let leaps : Int :=
    if later.secondOfDay > earlier.secondOfDay ∧ earlier.isLeap then 1
    else if later.secondOfDay < earlier.secondOfDay ∧ later.isLeap then -1
    else 0
  (later.seconds - earlier.seconds + leaps) * nanosPerSecond + (later.nanos - earlier.nanos : Int)

def millisSince (later earlier : Timestamp) : Int := (later.since earlier).tdiv 1000000

end Timestamp

def twoDigits (n : Nat) : List Char := [Nat.digitChar (n / 10 % 10), Nat.digitChar (n % 10)]

/-- Hours, minutes and seconds; a leap second is the 60th. -/
def TimeOfDay.clock (t : TimeOfDay) (leap : Bool) : List Char :=
  twoDigits t.hour ++ ':' :: twoDigits t.minute ++ ':' ::
    twoDigits (t.second + if leap then 1 else 0)

/-- The clock of a time zone `offset` seconds east of UTC. -/
def Timestamp.clockAt (t : Timestamp) (offset : Int) : String :=
  let second := ((t.seconds + offset).fmod secondsPerDay).toNat
  String.ofList ((TimeOfDay.ofSeconds second).clock t.isLeap)

end PriceBoard.Time
