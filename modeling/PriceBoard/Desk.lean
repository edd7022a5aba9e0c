import PriceBoard.Feed.Loop
import PriceBoard.Hub.Monitor
import PriceBoard.Screen.Run
import PriceBoard.Settings

/-!
# The desk

A desk is a whole board at work: the hub, the screen, the feed and the monitor.
It is closed in order: first the feed and the monitor, then every subscription,
then the screen, which hands over the board.
-/

namespace PriceBoard

open Time (Nanos)

structure Desk where
  display : Display
  feed : FeedLoop
  monitor : Monitor
  subscription : SubscriptionId
  isClosing : Bool := false
  grace : Nanos

namespace Desk

def startedEntry (s : Settings) : LogEntry :=
  ⟨.info, "Rate board started",
    [("tick_interval_ms", toString (s.tickInterval / 1000000)),
      ("pulse_steps", toString s.pulseSteps),
      ("pulse_duration_ms", toString (s.pulseDuration / 1000000))]⟩

def closingEntry : LogEntry := ⟨.info, "Shutting down rate board", []⟩

def unclearEntry (f : StopFault) (component : String) : LogEntry :=
  ⟨.warn, "Producer did not stop cleanly", [("component", component), ("error", f.message)]⟩

def goneEntry : LogEntry := ⟨.debug, "UI context already stopped", []⟩

def closedEntry (b : Board Float) (publishes : Nat) : LogEntry :=
  ⟨.info, "Rate board stopped",
    [("rows", toString b.size), ("updates", toString b.updates),
      ("publishes", toString publishes)]⟩

def screenName : String := "rate_board_ui"

def shared (d : Desk) : Shared := d.display.shared

def hub (d : Desk) : Hub := d.shared.hub

def board (d : Desk) : Board Float := d.display.screen.board

def setShared (d : Desk) (s : Shared) : Desk := { d with display := { d.display with shared := s } }

def write (e : LogEntry) (d : Desk) : Desk := d.setShared (d.shared.write e)

/-- Sets a desk up. Nothing runs yet; the board may already have a status line. -/
def start (s : Settings) (instruments : List (Instrument Float)) (status : Option String) : Desk :=
  let screen := Screen.ofCurve s.curve s.statusInterval
  let board := status.elim screen.board fun text => (screen.board.setStatus text).1
  let display := ({ screen := { screen with board := board } : Display }).start
  let (reply, shared) := display.shared.call (.subscribeAndLoad (.screen screenName) .all)
  let id := match reply with
    | some (.registered id) => id
    | _ => 0
  { display := { display with shared := shared.write (startedEntry s) }
    feed := ⟨.ofConfig s.feed instruments, .unstarted⟩
    monitor := { interval := s.monitorInterval }
    subscription := id
    grace := s.grace }

/-! ## Running -/

def outlet (isClosing : Bool) : Outlet Shared where
  isCancelled _ := isClosing
  publish r s :=
    match s.publish r with
    | (.ok _, s) => (.accepted, s)
    | (.error fault, s) => (.rejected fault, s)
  write e s := s.write e

def settleScreen (now : Nanos) (d : Desk) : Desk := { d with display := d.display.settle now }

def settleFeed (now : Nanos) (d : Desk) : Desk :=
  let (feed, s) := d.feed.settle (outlet d.isClosing) now d.shared
  { d with feed := feed }.setShared s

def settleMonitor (now : Nanos) (d : Desk) : Desk :=
  let (monitor, s) := d.monitor.settle now d.shared
  { d with monitor := monitor }.setShared s

/-- The screen, the feed and the monitor in turn, and the screen again on what the
feed published. -/
def settle (now : Nanos) (d : Desk) : Desk :=
  settleScreen now (settleMonitor now (settleFeed now (settleScreen now d)))

def process : Process Desk where
  settle := settle
  due? d := earlier? d.display.due? (earlier? d.feed.phase.due? d.monitor.phase.due?)

def query (now : Nanos) (d : Desk) : Option (Board Float) × Desk :=
  let (ticket, display) := d.display.request
  let d := settle now { d with display := display }
  (d.display.report? ticket, d)

/-! ## Closing -/

def cancel (d : Desk) : Desk := { d with isClosing := true, monitor := d.monitor.cancel }

def feedTask : Task Desk where
  toProcess := process
  component := FeedLoop.component
  cancel := cancel
  abort d := { d with feed := { d.feed with phase := d.feed.phase.abort } }
  ending? d := d.feed.phase.ending?
  write := write

def monitorTask : Task Desk where
  toProcess := process
  component := Monitor.component
  cancel := cancel
  abort d := { d with monitor := d.monitor.abort }
  ending? d := d.monitor.phase.ending?
  write := write

/-- Stops the feed or the monitor; a fault is only logged. -/
def stopProducer (t : Task Desk) (now : Nanos) (d : Desk) : Nanos × Desk :=
  let (result, now, d) := t.shutdown d.grace now d
  match result with
  | .ok () => (now, d)
  | .error fault => (now, write (unclearEntry fault t.component) d)

def unsubscribe (d : Desk) : Desk :=
  let (_, s) := d.shared.call (.unsubscribe d.subscription)
  d.setShared (s.call .shutdown).2

def tellScreen (d : Desk) : Desk :=
  let (accepted, display) := d.display.post .shutdown
  let d := { d with display := display }
  if accepted then d else write goneEntry d

def awaitScreen (now : Nanos) (d : Desk) : Except StopFault (Board Float) × Nanos × Desk :=
  let (ending, now, d) := process.await (·.display.screen.ending?) now (now + d.grace) d
  match ending with
  | none =>
    (.error (.graceElapsed Display.component d.grace), now, { d with display := d.display.abort })
  | some e =>
    match e.detail? with
    | some detail => (.error (.taskFailed Display.component detail), now, d)
    | none => (.ok d.board, now, write (closedEntry d.board d.hub.publishes) d)

/-- Closes the desk: the board as it ended, or why there is none. -/
def close (now : Nanos) (d : Desk) : Except StopFault (Board Float) × Nanos × Desk :=
  let d := (write closingEntry d).cancel
  let (now, d) := stopProducer feedTask now d
  let (now, d) := stopProducer monitorTask now d
  awaitScreen now d.unsubscribe.tellScreen

end Desk

end PriceBoard
