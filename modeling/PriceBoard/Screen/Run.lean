import PriceBoard.Screen.Basic
import PriceBoard.Task.Process

/-!
# Running the screen

A running screen first looks whether it was cancelled, then handles the next
message, and refreshes the status line when there is none. It ends when it is
told to, when it is cancelled, and when nobody is left who could tell it
anything.
-/

namespace PriceBoard

open Time (Nanos)

namespace Display

/-- The end of the interval after a refresh. Missed refreshes are skipped. -/
def nextRefresh (every due now : Nanos) : Nanos := due + ((now - due) / every + 1) * every

inductive Act
  | wait
  | begin
  | heedCancel
  | take (m : Message)
  | leave
  | refresh (due : Nanos)

def act (d : Display) (now : Nanos) : Act :=
  match d.screen.phase with
  | .created | .ended _ | .dropped => .wait
  | .started => .begin
  | .running due =>
    if d.screen.isCancelled then .heedCancel
    else
      match d.shared.mailbox.next? with
      | some m => .take m
      | none => if !d.hasSender then .leave else if due ≤ now then .refresh due else .wait

def setPhase (d : Display) (phase : ScreenPhase) : Display :=
  { d with screen := { d.screen with phase := phase } }

def step (d : Display) (now : Nanos) : Act → Display
  | .wait => d
  | .begin => (d.write (startedEntry d.screen)).setPhase (.running (now + d.screen.refreshEvery))
  | .heedCancel => (d.write cancelledEntry).stop
  | .take m => { d with shared := { d.shared with mailbox := d.shared.mailbox.take } }.handle now m
  | .leave => d.stop
  | .refresh due =>
    { d with screen := d.screen.refresh now }.setPhase
      (.running (nextRefresh d.screen.refreshEvery due now))

def steps (now : Nanos) : Nat → Display → Display
  | 0, d => d
  | n + 1, d =>
    match d.act now with
    | .wait => d
    | a => (d.step now a).steps now n

/-- Lets the screen do all it can. Only three steps take no message: the first,
the last and a refresh. -/
def work (d : Display) (now : Nanos) : Display := d.steps now (d.shared.mailbox.pending + 3)

def wakeTimers (d : Display) (now : Nanos) : Display :=
  let (timers, b) := Timer.wakeAll now d.screen.timers d.shared.mailbox
  { shared := { d.shared with mailbox := b }
    screen := { d.screen with timers := timers } }

/-- The screen works, then the timers, and the screen again on what they posted. -/
def settle (now : Nanos) (d : Display) : Display := ((d.work now).wakeTimers now).work now

def due? (d : Display) : Option Nanos :=
  let refresh := match d.screen.phase with
    | .running due => some due
    | _ => none
  (d.screen.timers.filter (!·.isCancelled)).foldl (fun t? t => earlier? t? (some t.due)) refresh

def process : Process Display where
  settle := settle
  due? := due?

/-! ## From outside -/

/-- Starts a screen that was not started or given up before. -/
def start (d : Display) : Display :=
  if d.screen.phase = .created then d.setPhase .started else d

def cancel (d : Display) : Display := { d with screen := { d.screen with isCancelled := true } }

def release (d : Display) : Display := { d with screen := { d.screen with isHeld := false } }

def drop (d : Display) : Display :=
  if d.screen.phase = .created then
    (d.setPhase .dropped).closeMailbox
  else d

def abort (d : Display) : Display :=
  match d.screen.ending? with
  | some _ => d
  | none => (d.setPhase (.ended .aborted)).closeMailbox

def component : String := "ui_context"

/-- Asks for the board; answers the ticket under which it is going to be shown. -/
def request (d : Display) : Nat × Display :=
  let ticket := d.shared.mailbox.accepted.size
  (ticket, (d.post (.invoke (.report ticket))).2)

def report? (d : Display) (ticket : Nat) : Option (Board Float) := d.screen.reports.lookup ticket

end Display

end PriceBoard
