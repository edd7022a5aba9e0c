import PriceBoard.Screen.Run

/-!
# Observing a screen

An observer posts messages, asks for the board, lets time pass, and waits for the
screen's end, which can be learned only once.
-/

namespace PriceBoard

open Time (Nanos)

structure Observer where
  now : Nanos := 0
  display : Display
  /-- Whether the screen was started and its end is still to be learned. -/
  isWaiting : Bool := false

inductive Posting
  | posted
  | closed
  | released
deriving DecidableEq, Repr

inductive Showing
  | shown (b : Board Float)
  | closed
  | released
  | notStarted

inductive Outcome
  | ended (b : Board Float)
  | failed (detail : String)
  | stillRunning
  | notRunning

namespace Observer

def patience : Nanos := Time.ofSeconds 30

def isHolding (o : Observer) : Bool := o.display.screen.isHeld

def on (o : Observer) (f : Display → Display) : Observer := { o with display := f o.display }

def post (o : Observer) (m : Message) : Posting × Observer :=
  if o.isHolding then
    let (accepted, d) := o.display.post m
    (if accepted then .posted else .closed, { o with display := d })
  else (.released, o)

def start (o : Observer) : Observer :=
  { o.on Display.start with isWaiting := o.isWaiting || o.display.screen.phase = .created }

def advance (o : Observer) (span : Nanos) : Observer :=
  { o with
    now := o.now + span
    display := Display.process.advance o.now (o.now + span) o.display }

def query (o : Observer) : Showing × Observer :=
  if o.isHolding then
    if o.display.screen.phase = .created then (.notStarted, o)
    else
      let (ticket, d) := o.display.request
      let d := d.settle o.now
      ((d.report? ticket).elim .closed .shown, { o with display := d })
  else (.released, o)

def join (o : Observer) : Outcome × Observer :=
  if o.isWaiting then
    let (ending, now, d) := Display.process.await (·.screen.ending?) o.now (o.now + patience) o.display
    match ending with
    | none => (.stillRunning, { o with now := now, display := d })
    | some e =>
      (e.detail?.elim (.ended d.screen.board) .failed, { now := now, display := d, isWaiting := false })
  else (.notRunning, o)

end Observer

end PriceBoard
