import PriceBoard.Feed.Config
import PriceBoard.Feed.Draw
import PriceBoard.Log
import PriceBoard.Rate.Validity
import PriceBoard.Subscription.Failure
import PriceBoard.Text.Quoted

/-!
# Ticks

A tick publishes a quote for each drawn instrument in turn, until the feed is
cancelled. Every publish counts as published, rejected or failed.
-/

namespace PriceBoard

open Time (Timestamp)

inductive Verdict
  | accepted
  | rejected (fault : RateFault Float)
  | failed (payload : Payload)

/-- Where a feed publishes to, in terms of a state: publishing may change it, and
may cancel the feed. -/
structure Outlet (σ : Type) where
  isCancelled : σ → Bool
  publish : Rate Float → σ → Verdict × σ
  write : LogEntry → σ → σ

structure TickSummary where
  published : Nat := 0
  rejected : Nat := 0
  failed : Nat := 0
  cancelled : Bool := false
deriving DecidableEq, Repr

namespace TickSummary

def calls (t : TickSummary) : Nat := t.published + t.rejected + t.failed

def count (t : TickSummary) : Verdict → TickSummary
  | .accepted => { t with published := t.published + 1 }
  | .rejected _ => { t with rejected := t.rejected + 1 }
  | .failed _ => { t with failed := t.failed + 1 }

end TickSummary

def Verdict.entry? (key : String) : Verdict → Option LogEntry
  | .accepted => none
  | .rejected fault =>
    some ⟨.warn, "Generated rate rejected", [("instrument", key), ("error", fault.message)]⟩
  | .failed payload =>
    some ⟨.error, "Publishing generated rate failed",
      [("instrument", key), ("error", payload.message)]⟩

structure Feed where
  config : FeedConfig
  instruments : List (Instrument Float)
  rng : Rng

namespace Feed

def ofConfig (config : FeedConfig) (instruments : List (Instrument Float)) : Feed :=
  ⟨config, instruments, .ofSeed config.seed⟩

def rateOf (f : Feed) (now : Timestamp) (d : Draw) : Option (Rate Float) :=
  f.instruments[d.index]?.map fun i =>
    i.quote d.variation d.spread now f.config.source f.config.updatedBy

variable {σ : Type}

def publishOne (out : Outlet σ) (r : Rate Float) (t : TickSummary) (s : σ) : TickSummary × σ :=
  let (v, s) := out.publish r s
  (t.count v, (v.entry? r.key).elim s (out.write · s))

/-- Publishes rates in turn, looking before each whether the feed is cancelled. -/
def publishAll (out : Outlet σ) : List (Rate Float) → TickSummary → σ → TickSummary × σ
  | [], t, s => (t, s)
  | r :: rates, t, s =>
    if out.isCancelled s then ({ t with cancelled := true }, s)
    else
      let (t, s) := publishOne out r t s
      publishAll out rates t s

def tickWith (f : Feed) (out : Outlet σ) (now : Timestamp) (draws : List Draw) (s : σ) :
    TickSummary × σ :=
  publishAll out (draws.filterMap (f.rateOf now)) {} s

def tick (f : Feed) (out : Outlet σ) (now : Timestamp) (s : σ) : TickSummary × Feed × σ :=
  let (draws, rng) := f.rng.draws f.instruments.length f.config.fraction
  let (t, s) := f.tickWith out now draws s
  (t, { f with rng := rng }, s)

def describe (f : Feed) : String :=
  let c := f.config
  let seed := match c.seed with
    | some n => s!"Some({n})"
    | none => "None"
  s!"RateGenerator \x7b universe: {f.instruments.length}, config: GeneratorConfig \x7b interval: " ++
  Time.spanText c.interval ++ ", update_fraction: " ++ String.ofList (fractionText c.fraction) ++
  ", source: " ++ Text.quoted c.source ++ ", updated_by: " ++ Text.quoted c.updatedBy ++
  ", seed: " ++ seed ++ " \x7d, .. \x7d"
where
  fractionText (x : Float) : List Char :=
    match Decimal.split x with
    | .nan => Decimal.nanText
    | .infinite negative => Decimal.infinityText negative
    | .finite negative b => Decimal.wire.finite negative b

end Feed

end PriceBoard
