import PriceBoard.Rate.Basic
import PriceBoard.Text.Quoted

/-!
# The screen's mailbox

Everything that changes the board reaches it as a message, and messages are
handled one at a time in the order in which they were posted. A closed mailbox
refuses messages.
-/

namespace PriceBoard

inductive Errand
  | setStatus (text : String)
  /-- Shows the board to whoever holds the ticket. -/
  | report (ticket : Nat)
  | fail (text : String)
deriving DecidableEq, Repr

inductive Message
  | rateUpdated (r : Rate Float)
  | decayStep (key : String) (generation step : Nat)
  | refreshStatus
  | invoke (errand : Errand)
  | shutdown

/-- The messages accepted so far, of which the first `handled` have been taken. -/
structure Mailbox where
  accepted : Array Message := #[]
  handled : Nat := 0
  isOpen : Bool := true

namespace Mailbox

instance : Inhabited Mailbox := ⟨{}⟩

def closed : Mailbox := { isOpen := false }

/-- Adds a message at the end, unless the mailbox is closed; answers whether it was
accepted. -/
def post (b : Mailbox) (m : Message) : Bool × Mailbox :=
  if b.isOpen then (true, { b with accepted := b.accepted.push m }) else (false, b)

def next? (b : Mailbox) : Option Message := b.accepted[b.handled]?

def pending (b : Mailbox) : Nat := b.accepted.size - b.handled

def take (b : Mailbox) : Mailbox := { b with handled := b.handled + 1 }

def close (b : Mailbox) : Mailbox := { b with isOpen := false }

end Mailbox

def closedText : String := "UI context is closed"

def Message.describe : Message → String
  | .rateUpdated r => "RateUpdated(" ++ Text.quoted r.key ++ ")"
  | .decayStep key generation step =>
    "DecayStep \x7b key: " ++ Text.quoted key ++ s!", generation: {generation}, step: {step} \x7d"
  | .refreshStatus => "RefreshStatus"
  | .invoke _ => "Invoke(..)"
  | .shutdown => "Shutdown"

end PriceBoard
