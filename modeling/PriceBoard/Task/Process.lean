import PriceBoard.Log
import PriceBoard.Task.Ending

/-!
# Tasks in virtual time

A process does all there is to do at an instant at once; then nothing happens
until something is due again. Time passes in whole milliseconds: what falls due
within one is done at its end. A task is a process that can be cancelled and
comes to an end.
-/

namespace PriceBoard

open Time (Nanos)

structure Process (σ : Type) where
  /-- Does all there is to do at an instant. -/
  settle : Nanos → σ → σ
  /-- The next instant at which there is something to do. -/
  due? : σ → Option Nanos

/-- The earlier of two instants, either of which may never come. -/
def earlier? : Option Nanos → Option Nanos → Option Nanos
  | none, t => t
  | t, none => t
  | some t, some u => some (min t u)

namespace Process

variable {σ : Type}

def next? (p : Process σ) (s : σ) : Option Nanos := (p.due? s).map Time.upToMillis

/-- Lets time pass until `stop`; what is due at `stop` itself is left undone. -/
def advance (p : Process σ) (now stop : Nanos) (s : σ) : σ :=
  let s := p.settle now s
  match p.next? s with
  | none => s
  | some t => if now < t ∧ t < stop then p.advance t stop s else s
termination_by (stop - now : Nat)
decreasing_by rename_i h; exact Nat.sub_lt_sub_left (Nat.lt_trans h.1 h.2) h.1

/-- Lets time pass until a result is there or `stop` has come. Answers the result
and when it was there. -/
def await {ρ : Type} (p : Process σ) (result? : σ → Option ρ) (now stop : Nanos) (s : σ) :
    Option ρ × Nanos × σ :=
  match result? s with
  | some r => (some r, now, s)
  | none =>
    if now < stop then
      let s := p.settle now s
      match result? s, p.next? s with
      | some r, _ => (some r, now, s)
      | none, some t =>
        if now < t ∧ t < stop then p.await result? t stop s else (none, stop, s)
      | none, none => (none, stop, s)
    else (none, now, s)
termination_by (stop - now : Nat)
decreasing_by rename_i h; exact Nat.sub_lt_sub_left (Nat.lt_trans h.1 h.2) h.1

end Process

structure Task (σ : Type) extends Process σ where
  component : String
  cancel : σ → σ
  abort : σ → σ
  ending? : σ → Option TaskEnd
  write : LogEntry → σ → σ

namespace Task

variable {σ : Type}

def stoppedEntry (component : String) : LogEntry :=
  ⟨.debug, "Task stopped", [("component", component)]⟩

/-- Cancels a task and waits for its end. After the grace period it is aborted;
with none, only a task that has ended already is in time. -/
def shutdown (t : Task σ) (grace now : Nanos) (s : σ) : Except StopFault Unit × Nanos × σ :=
  let (ending, now, s) := t.await t.ending? now (now + grace) (t.cancel s)
  match ending with
  | none => (.error (.graceElapsed t.component grace), now, t.abort s)
  | some e =>
    match e.detail? with
    | none => (.ok (), now, t.write (stoppedEntry t.component) s)
    | some detail => (.error (.taskFailed t.component detail), now, s)

end Task

end PriceBoard
