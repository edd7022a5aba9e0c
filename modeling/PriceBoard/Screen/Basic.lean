import PriceBoard.Board.Basic
import PriceBoard.Hub.Calls
import PriceBoard.Screen.Timer
import PriceBoard.Task.Ending

/-!
# The screen

The screen alone holds the board. It changes the board by handling messages, and
starts a timer for every pulse. A pulse that begins when nobody is left who could
post its steps is settled at once.
-/

namespace PriceBoard

open Time (Nanos)

inductive ScreenPhase
  | created
  | started
  | running (refreshDue : Nanos)
  | ended (e : TaskEnd)
  | dropped
deriving DecidableEq, Repr

structure Screen where
  board : Board Float
  refreshEvery : Nanos
  phase : ScreenPhase := .created
  isCancelled : Bool := false
  /-- Whether somebody outside can post messages. -/
  isHeld : Bool := true
  /-- The generation of each instrument's timer in flight. -/
  inFlight : List (String × Nat) := []
  /-- The timers that are not done, in the order in which they were started. -/
  timers : List Timer := []
  changes : Array Change := #[]
  reports : List (Nat × Board Float) := []

namespace Screen

def shortestRefresh : Nanos := Time.ofMillis 1

def ofCurve (curve : Curve) (refreshEvery : Nanos) : Screen where
  board := .ofCurve curve
  refreshEvery := max refreshEvery shortestRefresh

def ending? (s : Screen) : Option TaskEnd :=
  match s.phase with
  | .ended e => some e
  | _ => none

def change (s : Screen) (b : Board Float) (changes : List Change) : Screen :=
  { s with board := b, changes := s.changes ++ changes }

def generationOf? (s : Screen) (key : String) : Option Nat := s.inFlight.lookup key

def cancelTimer (s : Screen) (key : String) : Screen :=
  match s.generationOf? key with
  | none => s
  | some generation =>
    { s with
      inFlight := s.inFlight.filter (·.1 != key)
      timers := s.timers.map fun t =>
        if t.key = key ∧ t.generation = generation then t.cancel else t }

def startTimer (s : Screen) (key : String) (generation : Nat) (now : Nanos) : Screen :=
  { s with
    inFlight := (key, generation) :: s.inFlight
    timers := s.timers ++ [.ofPulse key generation s.board.curve now] }

/-- Takes a decay step; after the last one the timer is no longer in flight. -/
def decay (s : Screen) (key : String) (generation step : Nat) : Screen :=
  let a := s.board.advance key generation step
  let s := s.change a.board a.changes
  match a.progress with
  | .finished =>
    if s.generationOf? key = some generation then
      { s with inFlight := s.inFlight.filter (·.1 != key) }
    else s
  | .stale | .running _ => s

def refresh (s : Screen) (now : Nanos) : Screen :=
  let (b, changes) := s.board.refresh ((Time.Timestamp.ofNanos now).clockAt 0)
  s.change b changes

def stop (s : Screen) : Screen :=
  { s with
    phase := .ended .completed
    isCancelled := true
    inFlight := []
    timers := s.timers.map Timer.cancel }

end Screen

structure Display where
  shared : Shared := {}
  screen : Screen

namespace Display

open Hub

def startedEntry (s : Screen) : LogEntry :=
  ⟨.debug, "UI context started", [("status_interval_ms", toString (s.refreshEvery / 1000000))]⟩

def cancelledEntry : LogEntry := ⟨.debug, "UI context cancelled", []⟩

def stoppedEntry (b : Board Float) : LogEntry :=
  ⟨.info, "UI context stopped", [("rows", toString b.size), ("updates", toString b.updates)]⟩

def write (d : Display) (e : LogEntry) : Display := { d with shared := d.shared.write e }

/-- Whether anybody is left who can post a message: somebody outside, a subscriber
that forwards, or a timer. -/
def hasSender (d : Display) : Bool :=
  d.screen.isHeld || d.shared.hub.forwarders != 0 || !d.screen.timers.isEmpty

def post (d : Display) (m : Message) : Bool × Display :=
  let (accepted, b) := d.shared.mailbox.post m
  (accepted, { d with shared := { d.shared with mailbox := b } })

def closeMailbox (d : Display) : Display :=
  { d with shared := { d.shared with mailbox := d.shared.mailbox.close } }

/-! ## Messages -/

def restartTimer (d : Display) (now : Nanos) (key : String) (generation : Nat) : Display :=
  let d := { d with
    shared := d.shared.record (·.recordPulse)
    screen := d.screen.cancelTimer key }
  if d.hasSender then { d with screen := d.screen.startTimer key generation now }
  else
    let a := d.screen.board.advance key generation d.screen.board.curve.steps
    { d with screen := d.screen.change a.board a.changes }

def applyRate (d : Display) (now : Nanos) (r : Rate Float) : Display :=
  let a := d.screen.board.apply r
  let d := { d with screen := d.screen.change a.board a.changes }
  match a.outcome with
  | .updated _ (some generation) => d.restartTimer now r.key generation
  | .updated _ none | .added _ => d

/-- The end of a screen by a failed errand. Its timers go on. -/
def fail (d : Display) (text : String) : Display :=
  { d with screen := { d.screen with phase := .ended (.failed (.text text)) } }.closeMailbox

def run (d : Display) : Errand → Display
  | .setStatus text =>
    let (b, changes) := d.screen.board.setStatus text
    { d with screen := d.screen.change b changes }
  | .report ticket =>
    { d with screen := { d.screen with
        reports := d.screen.reports ++ [(ticket, d.screen.board)] } }
  | .fail text => d.fail text

def stop (d : Display) : Display :=
  { d with screen := d.screen.stop }.closeMailbox.write (stoppedEntry d.screen.board)

def handle (d : Display) (now : Nanos) : Message → Display
  | .rateUpdated r => d.applyRate now r
  | .decayStep key generation step =>
    { d with screen := d.screen.decay key generation step }
  | .refreshStatus => { d with screen := d.screen.refresh now }
  | .invoke errand => d.run errand
  | .shutdown => d.stop

end Display

end PriceBoard
