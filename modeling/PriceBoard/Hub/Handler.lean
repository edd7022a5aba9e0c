import PriceBoard.Rate.Basic
import PriceBoard.Subscription.Failure
import PriceBoard.Subscription.Registry
import PriceBoard.Text.Quoted

/-!
# Handlers

What a subscriber does with a rate: a list of actions, and then it returns or
fails. Actions may use the hub again, except for publishing and loading. A
handler need not do the same each time; what it does can depend on the rate and
on how far the hub has come.
-/

namespace PriceBoard

inductive Hub.Question
  | snapshot
  | rate (key : String)
  | stats
  | instruments
  | subscribers
  | publishes
deriving DecidableEq, Repr

inductive Action (η : Type)
  | note
  | forward
  | unsubscribe (id : SubscriptionId)
  | subscribe (handler : η) (filter : Filter)
  | read (key : String)
  | ask (q : Hub.Question)
  | check
  | shutdown

def Action.isForward {η : Type} : Action η → Bool
  | .forward => true
  | _ => false

/-- How a handler ends: it returns, or fails with a payload that may name the
rate's instrument. -/
inductive Ending
  | returns
  | fails (payload : Payload)
  | failsOnKey (text : String)
deriving DecidableEq, Repr

structure Conduct (η : Type) where
  actions : List (Action η) := []
  ending : Ending := .returns

structure Handler where
  name : String
  forwards : Bool := false
  /-- What it does with a rate, after so many deliveries of the hub. -/
  conduct : Nat → Rate Float → Conduct Handler

namespace Handler

def steady (name : String) (actions : List (Action Handler)) (ending : Ending) : Handler where
  name := name
  forwards := actions.any (·.isForward)
  conduct _ _ := ⟨actions, ending⟩

instance : Inhabited Handler := ⟨steady "" [] .returns⟩

def screen (name : String) : Handler := steady name [.forward] .returns

/-- The actions on a rate. A handler that cannot post to the screen posts nothing. -/
def actionsOn (h : Handler) (turn : Nat) (r : Rate Float) : List (Action Handler) :=
  (h.conduct turn r).actions.filter fun a => h.forwards || !a.isForward

def endingOn (h : Handler) (turn : Nat) (r : Rate Float) : Ending := (h.conduct turn r).ending

def describe (h : Handler) : String :=
  "FnSubscriber \x7b description: " ++ Text.quoted h.name ++ ", .. \x7d"

end Handler

/-- The payload a handler fails with on a rate for `key`, if it fails. -/
def Ending.payload? (e : Ending) (key : String) : Option Payload :=
  match e with
  | .returns => none
  | .fails p => some p
  | .failsOnKey text => some (.text s!"{text} on {key}")

end PriceBoard
