/-!
# Failures of subscribers

A handler that fails does so with a text or with some other value; only a text
can be reported.
-/

namespace PriceBoard

inductive Payload
  | text (s : String)
  | other
deriving DecidableEq, Repr

def Payload.message : Payload → String
  | .text s => s
  | .other => "handler panicked"

structure SubscriberFailure where
  subscriber : String
  message : String
deriving DecidableEq, Repr

namespace SubscriberFailure

def ofPayload (subscriber : String) (p : Payload) : SubscriberFailure := ⟨subscriber, p.message⟩

def text (f : SubscriberFailure) : String := s!"subscriber '{f.subscriber}' failed: {f.message}"

end SubscriberFailure

end PriceBoard
