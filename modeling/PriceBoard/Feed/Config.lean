import PriceBoard.Time.Span

/-!
# Feed configuration
-/

namespace PriceBoard

/-- How the simulated feed quotes: how often, which share of the instruments
each time, under which names, and from which seed. -/
structure FeedConfig where
  interval : Time.Nanos := Time.ofMillis 250
  fraction : Float := 0.2
  source : String := "MARKET_SIMULATOR"
  updatedBy : String := "MarketDataUpdater"
  seed : Option Nat := none

end PriceBoard
