import PriceBoard.Feed.Quote

/-!
# Surveys

Facts about a number of quotes that hold whatever was drawn.
-/

namespace PriceBoard

structure QuoteSurvey where
  keys : List String
  allPlausible : Bool
  sameTime : Bool
  /-- The source and author of each quote, in order of first appearance. -/
  tags : List (String × String)

namespace QuoteSurvey

def ofRates (instruments : List (Instrument Float)) (rates : List (Rate Float)) : QuoteSurvey where
  keys := (rates.map (·.key)).eraseDups.mergeSort fun a b => a ≤ b
  allPlausible := rates.all (·.isPlausibleIn instruments)
  sameTime := rates.all fun r => rates.head?.any (·.asOf == r.asOf)
  tags := (rates.map fun r => (r.source, r.lastUpdatedBy)).eraseDups

end QuoteSurvey

/-- How far the mids lie from their base prices, as fractions of them. -/
def driftsOf (instruments : List (Instrument Float)) (rates : List (Rate Float)) : List Float :=
  rates.filterMap fun r =>
    (instruments.find? (·.key == r.key)).map fun i => r.mid / i.base - 1

end PriceBoard
