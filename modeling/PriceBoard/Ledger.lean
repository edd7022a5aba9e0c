import PriceBoard.Decimal.Notation
import PriceBoard.Rate.Validity

/-!
# The ledger

Counts of what the hub and the screen did. A counter that was never raised and a
gauge that was never set do not appear among the samples.
-/

namespace PriceBoard

structure Ledger where
  /-- Accepted rates per instrument, in order of first appearance. -/
  published : List (String × Nat) := []
  rejected : List (RejectReason × Nat) := []
  publishTimings : Nat := 0
  subscriberFailures : Nat := 0
  subscribers : Option Nat := none
  instruments : Option Nat := none
  droppedPosts : Nat := 0
  pulseRestarts : Nat := 0
deriving DecidableEq, Repr, Inhabited

def raise {κ : Type} [DecidableEq κ] (key : κ) : List (κ × Nat) → List (κ × Nat)
  | [] => [(key, 1)]
  | (k, n) :: rest => if k = key then (k, n + 1) :: rest else (k, n) :: raise key rest

def countOf {κ : Type} [DecidableEq κ] (key : κ) : List (κ × Nat) → Nat
  | [] => 0
  | (k, n) :: rest => if k = key then n else countOf key rest

theorem countOf_raise {κ : Type} [DecidableEq κ] (key k : κ) (counts : List (κ × Nat)) :
    countOf k (raise key counts) = countOf k counts + if k = key then 1 else 0 := by
  induction counts with
  | nil => simp [raise, countOf, eq_comm]
  | cons p rest ih =>
    obtain ⟨j, n⟩ := p
    simp only [raise]
    split <;> simp only [countOf] <;> split <;> grind

namespace Ledger

def publishedOf (l : Ledger) (key : String) : Nat := countOf key l.published

def rejectedFor (l : Ledger) (reason : RejectReason) : Nat := countOf reason l.rejected

def recordPublished (l : Ledger) (key : String) (instruments : Nat) : Ledger :=
  { l with
    published := raise key l.published
    instruments := some instruments
    publishTimings := l.publishTimings + 1 }

def recordRejected (l : Ledger) (reason : RejectReason) : Ledger :=
  { l with rejected := raise reason l.rejected }

def recordFailure (l : Ledger) : Ledger := { l with subscriberFailures := l.subscriberFailures + 1 }

def setSubscribers (l : Ledger) (n : Nat) : Ledger := { l with subscribers := some n }

def recordDrop (l : Ledger) : Ledger := { l with droppedPosts := l.droppedPosts + 1 }

def recordPulse (l : Ledger) : Ledger := { l with pulseRestarts := l.pulseRestarts + 1 }

end Ledger

/-! ## Samples -/

inductive MetricKind
  | counter
  | gauge
  | histogram
deriving DecidableEq, Repr

inductive Metric
  | instruments | publishSeconds | pulseRestarts | published | rejected | failures
  | subscribers | droppedPosts
deriving DecidableEq, Repr

namespace Metric

def all : List Metric :=
  [.instruments, .publishSeconds, .pulseRestarts, .published, .rejected, .failures,
    .subscribers, .droppedPosts]

def name : Metric → String
  | .instruments => "fx_board_instruments"
  | .publishSeconds => "fx_board_publish_seconds"
  | .pulseRestarts => "fx_board_pulse_restarts_total"
  | .published => "fx_board_rates_published_total"
  | .rejected => "fx_board_rates_rejected_total"
  | .failures => "fx_board_subscriber_failures_total"
  | .subscribers => "fx_board_subscribers"
  | .droppedPosts => "fx_board_ui_dispatch_dropped_total"

def kind : Metric → MetricKind
  | .instruments | .subscribers => .gauge
  | .publishSeconds => .histogram
  | .pulseRestarts | .published | .rejected | .failures | .droppedPosts => .counter

def help : Metric → String
  | .instruments => "Instruments in the hub table"
  | .publishSeconds => "Time to store a rate and deliver it to all subscribers"
  | .pulseRestarts => "Highlight pulses started or restarted"
  | .published => "Rates accepted by the market hub"
  | .rejected => "Rates rejected by validation, by reason"
  | .failures => "Subscriber handlers that panicked during delivery"
  | .subscribers => "Registered hub subscribers"
  | .droppedPosts => "Updates dropped because the UI context had stopped"

/-- The name of a kind in the exposition text, where a histogram is shown as a
summary. -/
def exposedKind (m : Metric) : String :=
  match m.kind with
  | .counter => "counter"
  | .gauge => "gauge"
  | .histogram => "summary"

/-- The comment lines of the exposition text once every metric was recorded. -/
def helpLines : List String :=
  let lines (m : Metric) := [s!"# HELP {m.name} {m.help}", s!"# TYPE {m.name} {m.exposedKind}"]
  (all.flatMap lines).mergeSort fun a b => a ≤ b

end Metric

structure Sample where
  metric : Metric
  label : Option (String × String)
  value : Nat
deriving DecidableEq, Repr

namespace Ledger

def samplesOf (l : Ledger) (m : Metric) : List Sample :=
  let counter (n : Nat) : List Sample := if n = 0 then [] else [⟨m, none, n⟩]
  let gauge (n : Option Nat) : List Sample := (n.map fun n => ⟨m, none, n⟩).toList
  let labelled (name : String) (counts : List (String × Nat)) : List Sample :=
    (counts.mergeSort fun a b => a.1 ≤ b.1).map fun (v, n) => ⟨m, some (name, v), n⟩
  match m with
  | .instruments => gauge l.instruments
  | .publishSeconds => counter l.publishTimings
  | .pulseRestarts => counter l.pulseRestarts
  | .published => labelled "instrument" l.published
  | .rejected => labelled "reason" (l.rejected.map fun (r, n) => (r.label, n))
  | .failures => counter l.subscriberFailures
  | .subscribers => gauge l.subscribers
  | .droppedPosts => counter l.droppedPosts

/-- What has been recorded, by metric name and then by label value. -/
def samples (l : Ledger) : List Sample := Metric.all.flatMap l.samplesOf

end Ledger

end PriceBoard
