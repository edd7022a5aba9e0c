import PriceBoard.Feed.Tick
import PriceBoard.Task.Loop
import PriceBoard.Task.Process

/-!
# The feed's loop

The feed ticks as soon as it starts and then once in every interval. It looks
before and after each tick whether it was cancelled.
-/

namespace PriceBoard

open Time (Nanos)

structure FeedLoop where
  feed : Feed
  phase : LoopPhase := .unstarted

namespace FeedLoop

def startedEntry (f : Feed) : LogEntry :=
  ⟨.info, "Rate generator started",
    [("instruments", toString f.instruments.length),
      ("interval_ms", toString (f.config.interval / 1000000)),
      ("update_fraction", Decimal.plainText f.config.fraction)]⟩

def tickEntry (t : TickSummary) : LogEntry :=
  ⟨.trace, "Generator tick",
    [("published", toString t.published), ("rejected", toString t.rejected),
      ("failed", toString t.failed)]⟩

def cancelledEntry : LogEntry := ⟨.debug, "Rate generator cancelled", []⟩

def stoppedEntry : LogEntry := ⟨.info, "Rate generator stopped", []⟩

variable {σ : Type} (out : Outlet σ)

def begin (now : Nanos) (l : FeedLoop) (s : σ) : FeedLoop × σ :=
  match l.phase with
  | .unstarted =>
    let phase := LoopPhase.begin 0 l.feed.config.interval now
    ({ l with phase := phase },
      if phase.isFinished then s else out.write (startedEntry l.feed) s)
  | _ => (l, s)

def heed (l : FeedLoop) (s : σ) : FeedLoop × σ :=
  match l.phase with
  | .running _ =>
    if out.isCancelled s then
      ({ l with phase := .ended .completed }, out.write stoppedEntry (out.write cancelledEntry s))
    else (l, s)
  | _ => (l, s)

def beat (now : Nanos) (l : FeedLoop) (s : σ) : FeedLoop × σ :=
  match l.phase with
  | .running due =>
    if due ≤ now then
      let (t, feed, s) := l.feed.tick out (.ofNanos now) s
      (⟨feed, .running (now + feed.config.interval)⟩, out.write (tickEntry t) s)
    else (l, s)
  | _ => (l, s)

def settle (now : Nanos) (l : FeedLoop) (s : σ) : FeedLoop × σ :=
  let (l, s) := l.begin out now s
  let (l, s) := l.heed out s
  let (l, s) := l.beat out now s
  l.heed out s

def component : String := "rate_generator"

/-- The loop as a task, where cancelling it is something done to the outlet. -/
def task (cancel : σ → σ) : Task (FeedLoop × σ) where
  settle now := fun (l, s) => l.settle out now s
  due? := fun (l, _) => l.phase.due?
  component := component
  cancel := fun (l, s) => (l, cancel s)
  abort := fun (l, s) => ({ l with phase := l.phase.abort }, s)
  ending? := fun (l, _) => l.phase.ending?
  write e := fun (l, s) => (l, out.write e s)

end FeedLoop

end PriceBoard
