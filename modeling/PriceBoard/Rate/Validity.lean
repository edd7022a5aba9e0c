import PriceBoard.Decimal.Notation
import PriceBoard.Rate.Basic
import PriceBoard.Text.Blank

/-!
# Valid rates

A rate can be published if its key is not blank, its prices are finite and its
mid lies between bid and ask. The first condition that fails is reported.
-/

namespace PriceBoard

inductive RateFault (π : Type)
  | emptyKey
  | nonFinite (key : String)
  | crossedBook (key : String) (bid ask : π)
  | midOutsideBook (key : String) (bid mid ask : π)

namespace Rate

variable {π : Type} [Scalar π]

def fault? (r : Rate π) : Option (RateFault π) :=
  if Text.isBlankText r.key then some .emptyKey
  else if ¬ (Scalar.finite r.bid ∧ Scalar.finite r.ask ∧ Scalar.finite r.mid) then
    some (.nonFinite r.key)
  else if r.ask < r.bid then some (.crossedBook r.key r.bid r.ask)
  else if r.mid < r.bid ∨ r.ask < r.mid then
    some (.midOutsideBook r.key r.bid r.mid r.ask)
  else none

def IsValid (r : Rate π) : Prop := r.fault?.isNone

instance (r : Rate π) : Decidable r.IsValid := by unfold IsValid; infer_instance

end Rate

/-- The kinds of fault, by which rejected rates are counted. -/
inductive RejectReason
  | emptyKey
  | nonFinite
  | crossedBook
  | midOutsideBook
deriving DecidableEq, Repr

def RejectReason.label : RejectReason → String
  | .emptyKey => "empty_key"
  | .nonFinite => "non_finite"
  | .crossedBook => "crossed_book"
  | .midOutsideBook => "mid_outside_book"

namespace RateFault

def reason {π : Type} : RateFault π → RejectReason
  | .emptyKey => .emptyKey
  | .nonFinite _ => .nonFinite
  | .crossedBook .. => .crossedBook
  | .midOutsideBook .. => .midOutsideBook

open Decimal (plainText)

def message : RateFault Float → String
  | .emptyKey => "rate has an empty instrument key"
  | .nonFinite key => s!"rate for {key} has a non-finite price"
  | .crossedBook key bid ask =>
    s!"crossed book for {key}: bid {plainText bid} > ask {plainText ask}"
  | .midOutsideBook key bid mid ask =>
    s!"mid {plainText mid} for {key} is outside book [{plainText bid}, {plainText ask}]"

end RateFault

end PriceBoard
