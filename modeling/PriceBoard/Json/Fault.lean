import PriceBoard.Decimal.Notation
import PriceBoard.Text.Quoted

/-!
# Why a text is not the JSON that was asked for

A text can end early, break the grammar, or hold a value of the wrong shape.
-/

namespace PriceBoard.Json

/-- A number as the reader found it; whole numbers outside 64 bits, and a
negative zero, are reals. -/
inductive Number
  | whole (n : Int)
  | real (x : Float)

inductive Found
  | null
  | boolean (b : Bool)
  | number (n : Number)
  | string (s : String)
  | sequence
  | object

inductive Mismatch
  | wrongKind (found : Found) (expected : String)
  | wrongLength (length : Nat) (expected : String)
  | missing (field : String)
  | repeated (field : String)
  | invalid

inductive Fault
  | ended
  | grammar
  | shape (cause : Mismatch)

/-- The reals of the wire, null for those without a value. -/
def realText (x : Float) : List Char :=
  match Decimal.split x with
  | .finite negative b => Decimal.wire.finite negative b
  | _ => ['n', 'u', 'l', 'l']

def Number.describe : Number → String
  | .whole n => s!"integer `{n}`"
  | .real x => "floating point `" ++ String.ofList (realText x) ++ "`"

def Found.describe : Found → String
  | .null => "null"
  | .boolean b => s!"boolean `{b}`"
  | .number n => n.describe
  | .string s => "string " ++ Text.quoted s
  | .sequence => "sequence"
  | .object => "map"

/-- What is wrong with the value, where there is more to say than that it is not valid. -/
def Mismatch.message? : Mismatch → Option String
  | .wrongKind found expected => some s!"invalid type: {found.describe}, expected {expected}"
  | .wrongLength n expected => some s!"invalid length {n}, expected {expected}"
  | .missing field => some s!"missing field `{field}`"
  | .repeated field => some s!"duplicate field `{field}`"
  | .invalid => none

end PriceBoard.Json
