import PriceBoard.Highlight.Curve
import PriceBoard.Screen.Mailbox

/-!
# Timers

A timer posts the steps of one pulse to the mailbox, one in every interval of the
curve. If the interval is empty, it posts the last step alone and at once, and
nothing stops it.
-/

namespace PriceBoard

open Time (Nanos)

structure Timer where
  key : String
  generation : Nat
  curve : Curve
  start : Nanos
  next : Nat
  isCancelled : Bool := false

namespace Timer

def ofPulse (key : String) (generation : Nat) (curve : Curve) (start : Nanos) : Timer where
  key := key
  generation := generation
  curve := curve
  start := start
  next := if curve.interval = 0 then curve.steps else 1

def cancel (t : Timer) : Timer := { t with isCancelled := true }

def due (t : Timer) : Nanos := t.start + t.next * t.curve.interval

def heedsCancel (t : Timer) : Bool := t.curve.interval != 0

def message (t : Timer) : Message := .decayStep t.key t.generation t.next

/-- Posts the next step. The timer is done after the last step, and when it is
refused. -/
def post (t : Timer) (b : Mailbox) : Option Timer × Mailbox :=
  let (accepted, b) := b.post t.message
  (if accepted ∧ t.next < t.curve.steps then some { t with next := t.next + 1 } else none, b)

def stepsAfter (t : Timer) : Nat := t.curve.steps - t.next

theorem stepsAfter_lt_of_post {t u : Timer} {b c : Mailbox} (h : t.post b = (some u, c)) :
    u.stepsAfter < t.stepsAfter := by
  simp only [post, Prod.mk.injEq] at h
  split at h
  · cases h.1
    simp only [stepsAfter]
    omega
  · cases h.1

/-- Posts every step that is due. A timer that finds itself cancelled is done. -/
def wake (now : Nanos) (t : Timer) (b : Mailbox) : Option Timer × Mailbox :=
  if t.isCancelled ∧ t.heedsCancel then (none, b)
  else if t.due ≤ now then
    match _ : t.post b with
    | (none, b) => (none, b)
    | (some u, b) => wake now u b
  else (some t, b)
termination_by t.stepsAfter
decreasing_by exact stepsAfter_lt_of_post ‹_›

/-- Wakes timers one after the other; answers those that are not done. -/
def wakeAll (now : Nanos) : List Timer → Mailbox → List Timer × Mailbox
  | [], b => ([], b)
  | t :: timers, b =>
    let (t?, b) := t.wake now b
    let (left, b) := wakeAll now timers b
    (t?.toList ++ left, b)

end Timer

end PriceBoard
