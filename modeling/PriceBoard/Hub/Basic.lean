import PriceBoard.Hub.Handler
import PriceBoard.Ledger
import PriceBoard.Log
import PriceBoard.Rate.Table
import PriceBoard.Screen.Mailbox

/-!
# The hub

The hub holds the table of latest rates and the registry of subscribers, and
counts accepted rates. Around it lies what its work leaves behind and all
threads share: deliveries, notes, the screen's mailbox, the ledger and the log.
-/

namespace PriceBoard

structure Delivery where
  id : SubscriptionId
  rate : Rate Float

structure Hub where
  table : RateTable Float := ∅
  registry : Registry Handler := ∅
  publishes : Nat := 0
  deliveries : Array Delivery := #[]

/-- What a handler writes down: the rates it was given and what its uses of the
hub answered. -/
inductive Note
  | received (name key : String) (mid : Float)
  | unsubscribed (name : String) (removed : Bool)
  | subscribed (name : String) (id : SubscriptionId)
  | read (name : String) (mid : Option Float) (publishes : Nat)
  | cleared (name : String) (removed : Nat)

structure Shared where
  hub : Hub := {}
  mailbox : Mailbox := {}
  ledger : Ledger := {}
  log : Array LogEntry := #[]
  notes : Array Note := #[]

/-- How many subscribers a rate was delivered to, and how many of them failed. -/
structure Report where
  delivered : Nat := 0
  failed : Nat := 0
deriving DecidableEq, Repr

namespace Hub

instance : Inhabited Hub := ⟨{}⟩

def deliveriesTo (h : Hub) (id : SubscriptionId) : List (Rate Float) :=
  h.deliveries.toList.filterMap fun d => if d.id = id then some d.rate else none

inductive Finding
  | table (t : RateTable Float)
  | rate (r : Option (Rate Float))
  | stats (s : SubscriptionStats)
  | count (n : Nat)

def look (h : Hub) : Question → Finding
  | .snapshot => .table h.table
  | .rate key => .rate (h.table.get? key)
  | .stats => .stats h.registry.stats
  | .instruments => .count h.table.size
  | .subscribers => .count h.registry.size
  | .publishes => .count h.publishes

def forwarders (h : Hub) : Nat := h.registry.entries.countP (·.subscriber.forwards)

def describe (h : Hub) : String :=
  s!"MarketHub \x7b instruments: {h.table.size}, subscribers: {h.registry.size}, " ++
  s!"publish_count: {h.publishes}, .. \x7d"

end Hub

namespace Shared

instance : Inhabited Shared := ⟨{}⟩

def write (s : Shared) (e : LogEntry) : Shared := { s with log := s.log.push e }

def note (s : Shared) (n : Note) : Shared := { s with notes := s.notes.push n }

def record (s : Shared) (f : Ledger → Ledger) : Shared := { s with ledger := f s.ledger }

end Shared

/-! ## Log entries -/

namespace Hub

open Decimal (plainText)

def rejectedEntry (key : String) (f : RateFault Float) : LogEntry :=
  ⟨.warn, "Rejected rate", [("instrument", key), ("error", f.message)]⟩

def publishedEntry (r : Rate Float) (report : Report) : LogEntry :=
  ⟨.trace, "Published rate",
    [("instrument", r.key), ("mid", plainText r.mid), ("delivered", toString report.delivered),
      ("failed", toString report.failed)]⟩

def failedEntry (key : String) (f : SubscriberFailure) : LogEntry :=
  ⟨.error, "Subscriber handler failed",
    [("subscriber", f.subscriber), ("instrument", key), ("error", f.text)]⟩

def registeredEntry (id : SubscriptionId) (name : String) : LogEntry :=
  ⟨.info, "Subscriber registered", [("subscription_id", toString id), ("subscriber", name)]⟩

def replayedEntry (id : SubscriptionId) (replayed : Nat) : LogEntry :=
  ⟨.debug, "Replayed snapshot to new subscriber",
    [("subscription_id", toString id), ("replayed", toString replayed)]⟩

def removedEntry (id : SubscriptionId) : LogEntry :=
  ⟨.info, "Subscriber removed", [("subscription_id", toString id)]⟩

def unknownEntry (id : SubscriptionId) : LogEntry :=
  ⟨.debug, "Unsubscribe for unknown handle ignored", [("subscription_id", toString id)]⟩

def clearedEntry (removed : Nat) : LogEntry :=
  ⟨.info, "Market hub subscribers cleared", [("removed", toString removed)]⟩

def droppedEntry (name key : String) : LogEntry :=
  ⟨.debug, "Dropped rate for stopped UI context",
    [("subscriber", name), ("instrument", key), ("error", closedText)]⟩

def snapshotEntry (instruments subscribers publishes : Nat) : LogEntry :=
  ⟨.info, "Market snapshot",
    [("instruments", toString instruments), ("subscribers", toString subscribers),
      ("publishes", toString publishes)]⟩

end Hub

end PriceBoard
