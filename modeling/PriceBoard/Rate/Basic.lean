import PriceBoard.Scalar
import PriceBoard.Time.Timestamp

/-!
# Rates

A rate is one instrument's two-sided price at a point in time, with its
provenance.
-/

namespace PriceBoard

open Time (Timestamp)

structure Rate (π : Type) where
  key : String
  bid : π
  ask : π
  mid : π
  source : String
  asOf : Timestamp
  lastUpdated : Timestamp
  lastUpdatedBy : String
  isActive : Bool

namespace Rate

variable {π : Type} [Scalar π]

/-- The rate of a bid and an ask, with their midpoint, as of `now`. -/
def ofQuote (key : String) (bid ask : π) (source : String) (now : Timestamp) : Rate π where
  key := key
  bid := bid
  ask := ask
  mid := Scalar.midpoint bid ask
  source := source
  asOf := now
  lastUpdated := now
  lastUpdatedBy := ""
  isActive := true

def spread (r : Rate π) : π := r.ask - r.bid

/-- Equality with prices compared as numbers, so that NaN differs from itself. -/
def same (r s : Rate π) : Bool :=
  r.key == s.key && r.bid == s.bid && r.ask == s.ask && r.mid == s.mid &&
  r.source == s.source && r.asOf == s.asOf && r.lastUpdated == s.lastUpdated &&
  r.lastUpdatedBy == s.lastUpdatedBy && r.isActive == s.isActive

instance : BEq (Rate π) := ⟨same⟩

end Rate

end PriceBoard
