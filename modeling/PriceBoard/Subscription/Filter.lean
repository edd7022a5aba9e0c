/-!
# Subscription filters

A filter admits every instrument or only the named ones. An empty list of names
admits none.
-/

namespace PriceBoard

inductive Filter
  | all
  | only (keys : List String)
deriving Repr, Inhabited

namespace Filter

def admits (f : Filter) (key : String) : Bool :=
  match f with
  | .all => true
  | .only keys => keys.contains key

def isAll : Filter → Bool
  | .all => true
  | .only _ => false

/-- The filter of a subscription that asks for nothing in particular. -/
def standard : Filter := .all

end Filter

end PriceBoard
