import PriceBoard.Rate.Basic

/-!
# Simulated quotes

A quote varies an instrument's base price and puts half of a spread on either
side.
-/

namespace PriceBoard

open Time (Timestamp)

structure Instrument (π : Type) where
  key : String
  base : π

variable {π : Type} [Scalar π]

/-- The rate at a variation of the base price, with a spread as a fraction of it. -/
def Instrument.quote (i : Instrument π) (variation spread : π) (now : Timestamp)
    (source updatedBy : String) : Rate π :=
  let target := i.base * (1 + variation)
  let half := i.base * spread / 2
  { Rate.ofQuote i.key (target - half) (target + half) source now with lastUpdatedBy := updatedBy }

def standardUniverse : List (Instrument Float) :=
  [⟨"EURUSD", 1.0850⟩, ⟨"GBPUSD", 1.2650⟩, ⟨"USDJPY", 149.50⟩, ⟨"USDCHF", 0.8750⟩,
    ⟨"USDCAD", 1.3450⟩, ⟨"AUDUSD", 0.6550⟩, ⟨"NZDUSD", 0.6150⟩, ⟨"EURGBP", 0.8580⟩,
    ⟨"EURJPY", 162.20⟩, ⟨"GBPJPY", 189.10⟩]

/-- Half the width of the band that variations are drawn from. -/
def widestVariation : Float := 0.005

def narrowestSpread : Float := 0.001

def widestSpread : Float := 0.003

/-- Whether a rate can be a quote of an instrument with this base price, up to
rounding. -/
def Rate.isPlausible (r : Rate Float) (base : Float) : Bool :=
  let most := base * (1 + 1e-9)
  let least := base * (1 - 1e-9)
  (r.mid - base).abs ≤ widestVariation * most &&
  narrowestSpread * least ≤ r.spread && r.spread ≤ widestSpread * most &&
  r.isActive && r.asOf == r.lastUpdated

def Rate.isPlausibleIn (r : Rate Float) (instruments : List (Instrument Float)) : Bool :=
  instruments.any fun i => i.key == r.key && r.isPlausible i.base

end PriceBoard
