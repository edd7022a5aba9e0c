import PriceBoard.Hub.Calls

/-!
# Threads

Any number of threads share one hub. At each step one thread makes the next move
of its agenda; a thread that wants the publishing lock waits while another one
holds it.
-/

namespace PriceBoard

structure Machine where
  shared : Shared := {}
  holder : Option Nat := none
  threads : List Thread := []

namespace Machine

def ofPrograms (s : Shared) (programs : List (List Call)) : Machine where
  shared := s
  threads := programs.map fun calls => { agenda := calls.flatMap Call.moves }

/-- A step of thread `i`, if it has a move to make and does not wait. -/
def step? (m : Machine) (i : Nat) : Option Machine := do
  let t ← m.threads[i]?
  let next :: rest := t.agenda | none
  let t := { t with agenda := rest }
  match next with
  | .lockPublishing =>
    if m.holder = none then some { m with holder := some i, threads := m.threads.set i t } else none
  | .unlockPublishing => some { m with holder := none, threads := m.threads.set i t }
  | next =>
    let (s, t, more) := next.make m.shared t
    some { m with shared := s, threads := m.threads.set i { t with agenda := more ++ t.agenda } }

/-- Steps of the threads in the order of a schedule; one that cannot step is passed over. -/
def follow (m : Machine) (schedule : List Nat) : Machine :=
  schedule.foldl (fun m i => (m.step? i).getD m) m

inductive Step : Machine → Machine → Prop
  | of (m m' : Machine) (i : Nat) (h : m.step? i = some m') : Step m m'

inductive Reachable (s : Shared) (programs : List (List Call)) : Machine → Prop
  | start : Reachable s programs (ofPrograms s programs)
  | step {m m' : Machine} : Reachable s programs m → Step m m' → Reachable s programs m'

def finish (m : Machine) (i : Nat) : Machine :=
  match m.threads[i]? with
  | none => m
  | some t =>
    let (s, t) := t.agenda.foldl Move.run (m.shared, { t with agenda := [] })
    { m with
      shared := s
      holder := if m.holder = some i then none else m.holder
      threads := m.threads.set i t }

end Machine

/-! ## A publish held inside a handler -/

def Handler.collector (name : String) : Handler := .steady name [.note] .returns

/-- The state while a publish is inside its first handler, with a table to look
at, and the two states after it and the next publish have ended. -/
structure Inflight where
  during : RateTable Float
  first : Report
  firstNotes : List Note
  second : Report
  secondNotes : List Note

/-- A first subscriber holds a publish up while other calls run; then it goes
on, and a second publish follows. -/
def inflight (first second : Rate Float) (during : List Call) : Inflight :=
  let s := (({} : Shared).runMoves <|
    [Call.subscribe (.steady "blocker" [] .returns) .all, .subscribe (.collector "early") .all].flatMap
      Call.moves).1
  -- lock, copy, write, count, and enter the first handler
  let held := (Machine.ofPrograms s [[.publish first], during]).follow (List.replicate 5 0)
  let after := (held.finish 1).finish 0
  let (second, last) := after.shared.publish second
  { during := held.shared.hub.table
    first := ((after.threads[0]?).map (·.report)).getD {}
    firstNotes := after.shared.notes.toList
    second := second.toOption.getD {}
    secondNotes := last.notes.toList.drop after.shared.notes.size }

/-! ## Several producers -/

/-- Producers that publish to an instrument of their own in turn, mids from one
on, and one subscriber to all of them. -/
def produce (producers each : Nat) : Shared :=
  let s := (({} : Shared).call (.subscribe (.collector "seen") .all)).2
  let rates := (List.range each).flatMap fun k => (List.range producers).map fun i =>
    let mid := Float.ofNat (k + 1)
    Rate.ofQuote s!"PAIR{i}" (mid - 0.5) (mid + 0.5) "T" default
  s.publishAll rates

def Shared.isOrdered (s : Shared) : Bool :=
  s.hub.table.rates.all fun r =>
    let mids := s.hub.deliveries.toList.filterMap fun d =>
      if d.rate.key = r.key then some d.rate.mid else none
    (mids.zip mids.tail).all fun (a, b) => a < b

end PriceBoard
