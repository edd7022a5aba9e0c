import PriceBoard.Json.Reader
import PriceBoard.Rate.Basic
import PriceBoard.Time.Rfc3339

/-!
# Rates on the wire

A rate is written as a JSON object of nine members in a fixed order. The reader
takes the members in any order, passes over others, and takes an array of the
nine values as well.
-/

namespace PriceBoard

open Time (Timestamp)
open Json (Fault)

/-! ## Fields -/

inductive RateField
  | key | bid | ask | mid | source | asOf | lastUpdated | lastUpdatedBy | isActive
deriving DecidableEq, Repr

namespace RateField

def all : List RateField :=
  [.key, .bid, .ask, .mid, .source, .asOf, .lastUpdated, .lastUpdatedBy, .isActive]

def name : RateField → String
  | .key => "instrument_key"
  | .bid => "bid"
  | .ask => "ask"
  | .mid => "mid"
  | .source => "source"
  | .asOf => "as_of"
  | .lastUpdated => "last_updated"
  | .lastUpdatedBy => "last_updated_by"
  | .isActive => "is_active"

def ofName? (name : List Char) : Option RateField :=
  all.find? fun f => f.name.toList == name

end RateField

/-! ## Writing -/

def RateField.valueText (r : Rate Float) : RateField → List Char
  | .key => Json.encode r.key.toList
  | .bid => Json.realText r.bid
  | .ask => Json.realText r.ask
  | .mid => Json.realText r.mid
  | .source => Json.encode r.source.toList
  | .asOf => '"' :: r.asOf.wire ++ ['"']
  | .lastUpdated => '"' :: r.lastUpdated.wire ++ ['"']
  | .lastUpdatedBy => Json.encode r.lastUpdatedBy.toList
  | .isActive => (if r.isActive then "true" else "false").toList

def RateField.memberText (r : Rate Float) (f : RateField) : List Char :=
  '"' :: f.name.toList ++ '"' :: ':' :: f.valueText r

def Rate.wire (r : Rate Float) : List Char :=
  let members := RateField.all.map (·.memberText r)
  '\x7b' :: (List.intersperse [','] members).flatten ++ ['\x7d']

/-! ## Reading -/

structure RateDraft where
  key : Option String := none
  bid : Option Float := none
  ask : Option Float := none
  mid : Option Float := none
  source : Option String := none
  asOf : Option Timestamp := none
  lastUpdated : Option Timestamp := none
  lastUpdatedBy : Option String := none
  isActive : Option Bool := none

def takeText (cs : List Char) : Except Fault (String × List Char) :=
  (Json.takeString "a string" cs).map fun (s, rest) => (String.ofList s, rest)

def takeTime (cs : List Char) : Except Fault (Timestamp × List Char) :=
  match Json.takeString "an RFC 3339 formatted date and time string" cs with
  | .error e => .error e
  | .ok (s, rest) =>
    match Timestamp.read? s with
    | some t => .ok (t, rest)
    | none => .error (.shape .invalid)

namespace RateDraft

def has (d : RateDraft) : RateField → Bool
  | .key => d.key.isSome
  | .bid => d.bid.isSome
  | .ask => d.ask.isSome
  | .mid => d.mid.isSome
  | .source => d.source.isSome
  | .asOf => d.asOf.isSome
  | .lastUpdated => d.lastUpdated.isSome
  | .lastUpdatedBy => d.lastUpdatedBy.isSome
  | .isActive => d.isActive.isSome

def take (d : RateDraft) (cs : List Char) : RateField → Except Fault (RateDraft × List Char)
  | .key => (takeText cs).map fun (v, rest) => ({ d with key := some v }, rest)
  | .bid => (Json.takeReal cs).map fun (v, rest) => ({ d with bid := some v }, rest)
  | .ask => (Json.takeReal cs).map fun (v, rest) => ({ d with ask := some v }, rest)
  | .mid => (Json.takeReal cs).map fun (v, rest) => ({ d with mid := some v }, rest)
  | .source => (takeText cs).map fun (v, rest) => ({ d with source := some v }, rest)
  | .asOf => (takeTime cs).map fun (v, rest) => ({ d with asOf := some v }, rest)
  | .lastUpdated => (takeTime cs).map fun (v, rest) => ({ d with lastUpdated := some v }, rest)
  | .lastUpdatedBy => (takeText cs).map fun (v, rest) => ({ d with lastUpdatedBy := some v }, rest)
  | .isActive => (Json.takeBoolean cs).map fun (v, rest) => ({ d with isActive := some v }, rest)

def need {α : Type} (f : RateField) : Option α → Except Fault α
  | some a => .ok a
  | none => .error (.shape (.missing f.name))

/-- The rate, if every field has been read; otherwise the first missing one. -/
def finish (d : RateDraft) : Except Fault (Rate Float) := do
  return {
    key := ← need .key d.key
    bid := ← need .bid d.bid
    ask := ← need .ask d.ask
    mid := ← need .mid d.mid
    source := ← need .source d.source
    asOf := ← need .asOf d.asOf
    lastUpdated := ← need .lastUpdated d.lastUpdated
    lastUpdatedBy := ← need .lastUpdatedBy d.lastUpdatedBy
    isActive := ← need .isActive d.isActive
  }

/-- Reads members up to the closing brace of the object. -/
def takeMembers : (fuel : Nat) → (first : Bool) → RateDraft → List Char →
    Except Fault (RateDraft × List Char)
  | 0, _, _, _ => .error .ended
  | fuel + 1, first, d, cs => do
    match ← Json.nextMember first cs with
    | .inr rest => return (d, rest)
    | .inl (name, rest) =>
      match RateField.ofName? name with
      | some f =>
        if d.has f then .error (.shape (.repeated f.name))
        else
          let (d, rest) ← d.take (← Json.takeColon rest) f
          takeMembers fuel false d rest
      | none => takeMembers fuel false d (← Json.skipValue (← Json.takeColon rest))

def takeItems : (taken : Nat) → List RateField → RateDraft → List Char →
    Except Fault (RateDraft × List Char)
  | _, [], d, cs => .ok (d, cs)
  | taken, f :: fields, d, cs => do
    match ← Json.nextItem (taken == 0) cs with
    | none => .error (.shape (.wrongLength taken "struct Rate with 9 elements"))
    | some cs =>
      let (d, rest) ← d.take cs f
      takeItems (taken + 1) fields d rest

end RateDraft

def Rate.takeObject (cs : List Char) : Except Fault (Rate Float × List Char) := do
  let (d, rest) ← RateDraft.takeMembers (cs.length + 1) true {} cs
  let r ← d.finish
  return (r, ← Json.takeClosing '\x7d' rest)

def Rate.takeArray (cs : List Char) : Except Fault (Rate Float × List Char) := do
  let (d, rest) ← RateDraft.takeItems 0 RateField.all {} cs
  let r ← d.finish
  return (r, ← Json.takeClosing ']' rest)

def Rate.ofWire (text : List Char) : Except Fault (Rate Float) := do
  let (r, rest) ← match Json.skipSpace text with
    | '\x7b' :: cs => Rate.takeObject cs
    | '[' :: cs => Rate.takeArray cs
    | cs => Json.wrongKind "struct Rate" cs
  Json.takeEnd rest
  return r

end PriceBoard
