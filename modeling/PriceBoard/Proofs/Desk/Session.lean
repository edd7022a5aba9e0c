import PriceBoard.Desk
import PriceBoard.Proofs.Hub.Forwarding

/-!
# Sessions

A desk at work and being closed, in single steps of any order: moves of the threads
that use the hub, turns of the screen and of its timers, what the feed does between
two publishes, and what the desk does to close.

Others use the hub too, and post to the screen. They do not tell the screen to end and
leave its registration alone; all their publishes are over when the desk begins to
remove registrations. Nobody but the screen's own subscriber gives rates to it: others
neither post them (`Step.post`) nor subscribe a handler that does (`Handler.Quiet`).
-/

namespace PriceBoard

open Time (Nanos Timestamp)

/-! ## Handing work to a thread -/

namespace Machine

def assign (m : Machine) (i : Nat) (moves : List Move) : Machine :=
  { m with threads := m.threads.set i { agenda := moves } }

theorem agenda_assign_ne (m : Machine) {i j : Nat} (h : j ≠ i) (moves : List Move) :
    (m.assign i moves).agenda j = m.agenda j := by
  simp [agenda, assign, Ne.symm h]

theorem agenda_assign_self (m : Machine) (i : Nat) (moves : List Move) :
    (m.assign i moves).agenda i = if i < m.threads.length then moves else [] := by
  by_cases hi : i < m.threads.length
  · simp [agenda, assign, hi]
  · simp [agenda, assign, hi]

theorem mem_agenda_assign {m : Machine} {i j : Nat} {moves : List Move} {mv : Move}
    (h : mv ∈ (m.assign i moves).agenda j) : j = i ∧ mv ∈ moves ∨ j ≠ i ∧ mv ∈ m.agenda j := by
  by_cases hj : j = i
  · subst hj
    rw [agenda_assign_self] at h
    split at h
    · exact .inl ⟨rfl, h⟩
    · cases h
  · exact .inr ⟨hj, m.agenda_assign_ne hj moves ▸ h⟩

theorem Sectioned.ne_holder {m : Machine} (h : m.Sectioned) {i : Nat} (idle : m.agenda i = []) :
    m.holder ≠ some i := by
  intro hold
  obtain ⟨now, rest, ha, _⟩ := h.inside i hold
  simp [idle] at ha

theorem Sectioned.assign {m : Machine} (h : m.Sectioned) {i : Nat} (idle : m.agenda i = []) {moves : List Move}
    (ho : Outside moves) : (m.assign i moves).Sectioned where
  outside j hj := by
    by_cases hij : j = i
    · subst hij
      rw [agenda_assign_self]
      split
      · exact ho
      · exact .nil
    · rw [agenda_assign_ne m hij]
      exact h.outside j hj
  inside j hj := by
    have hij : j ≠ i := fun e => h.ne_holder idle (e ▸ hj)
    rw [agenda_assign_ne m hij]
    exact h.inside j hj

theorem Sectioned.underway_assign {m : Machine} (h : m.Sectioned) {i : Nat} (idle : m.agenda i = [])
    (moves : List Move) : (m.assign i moves).underway = m.underway := by
  have same : (m.assign i moves).holder = m.holder := rfl
  unfold Machine.underway
  rw [same]
  cases hold : m.holder with
  | none => rfl
  | some j =>
    have hij : j ≠ i := fun e => h.ne_holder idle (e ▸ hold)
    rw [Option.elim_some, Option.elim_some, agenda_assign_ne m hij]

end Machine

/-- A call of a thread that leaves a registration alone. -/
def Call.IsQuiet (id : SubscriptionId) : Call → Prop
  | .subscribe h _ | .subscribeAndLoad h _ => h.Quiet id
  | .unsubscribe other => other ≠ id
  | .shutdown => False
  | .publish _ | .ask _ | .check => True

/-! ## States -/

inductive Session.Stage
  | running
  | stopping
  | unsubscribing
  | told
deriving DecidableEq

/-- Thread 0 is the desk itself, thread 1 the feed. -/
structure Session where
  machine : Machine
  screen : Screen
  feed : FeedLoop
  /-- What is left of the feed's tick, while it is in one. -/
  tick : Option (List (Rate Float)) := none
  subscription : SubscriptionId
  stage : Session.Stage := .running

namespace Session

def Stage.isLate : Stage → Bool
  | .running | .stopping => false
  | .unsubscribing | .told => true

def hub (s : Session) : Hub := s.machine.shared.hub

def display (s : Session) : Display := ⟨s.machine.shared, s.screen⟩

def setDisplay (s : Session) (d : Display) : Session :=
  { s with machine := { s.machine with shared := d.shared }, screen := d.screen }

def registration (s : Session) : Registration Handler := ⟨s.subscription, .all, .screen Desk.screenName⟩

def teardown (s : Session) : List Move := (Call.unsubscribe s.subscription).moves ++ Call.shutdown.moves

inductive Step : Session → Session → Prop
  | screen {s : Session} {d : Display} (h : Display.Turn s.display d) : Step s (s.setDisplay d)
  -- what others do: they give the screen no rates and do not end it
  | post (s : Session) {m : Message} (noRate : m.rate? = none) (noEnd : m ≠ .shutdown) :
      Step s (s.setDisplay (s.display.post m).2)
  | write (s : Session) (e : LogEntry) : Step s (s.setDisplay (s.display.write e))
  | call {s : Session} {i : Nat} {c : Call} (other : 2 ≤ i) (idle : s.machine.agenda i = [])
      (quiet : c.IsQuiet s.subscription) (unpublished : s.stage.isLate → ∀ mv ∈ c.moves, mv.accepted? = none) :
      Step s { s with machine := s.machine.assign i c.moves }
  -- what the feed does
  | begin {s : Session} (now : Nanos) (h : s.feed.phase = .unstarted) :
      Step s { s with feed := ⟨s.feed.feed, .begin 0 s.feed.feed.config.interval now⟩ }
  | tick {s : Session} {due now : Nanos} (time : Timestamp) (draws : List Draw) (rng : Rng)
      (h : s.feed.phase = .running due) (hd : due ≤ now) (idle : s.tick = none) :
      Step s { s with
        feed := ⟨{ s.feed.feed with rng := rng }, .running (now + s.feed.feed.config.interval)⟩
        tick := some (draws.filterMap (s.feed.feed.rateOf time)) }
  | publish {s : Session} {r : Rate Float} {rates : List (Rate Float)} (h : s.tick = some (r :: rates))
      (idle : s.machine.agenda 1 = []) (on : s.stage = .running) :
      Step s { s with machine := s.machine.assign 1 (Call.publish r).moves, tick := some rates }
  | endTick {s : Session} {rates : List (Rate Float)} (h : s.tick = some rates)
      (idle : s.machine.agenda 1 = []) (last : rates = [] ∨ s.stage ≠ .running) : Step s { s with tick := none }
  | heed {s : Session} {due : Nanos} (h : s.feed.phase = .running due) (idle : s.tick = none)
      (off : s.stage ≠ .running) : Step s { s with feed := { s.feed with phase := .ended .completed } }
  -- what the desk does
  | close {s : Session} (on : s.stage = .running) : Step s { s with stage := .stopping }
  | unsubscribe {s : Session} (on : s.stage = .stopping) (ended : s.feed.phase.isFinished)
      (apart : ∀ i, 2 ≤ i → ∀ mv ∈ s.machine.agenda i, mv.IsApart s.subscription) :
      Step s { s with machine := s.machine.assign 0 s.teardown, stage := .unsubscribing }
  | tell {s : Session} (on : s.stage = .unsubscribing) (idle : s.machine.agenda 0 = []) :
      Step s { s.setDisplay (s.display.post .shutdown).2 with stage := .told }

/-- What can come of a session, and the moves that were made on the hub. -/
inductive Run (s₀ : Session) : List Event → Session → Prop
  | start : Run s₀ [] s₀
  | move {past : List Event} {s : Session} {i : Nat} {mv : Move} {m : Machine} (h : Run s₀ past s)
      (hm : s.machine.Made i mv m) : Run s₀ (past ++ [⟨i, mv⟩]) { s with machine := m }
  | step {past : List Event} {s s' : Session} (h : Run s₀ past s) (hs : Step s s') : Run s₀ past s'

end Session

end PriceBoard
