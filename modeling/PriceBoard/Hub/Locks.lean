import PriceBoard.Hub.Machine

/-!
# Locks

The table and the registry have a lock each, which readers share. A move that
looks at one of them or changes it is made between taking that lock and giving it
back, each of which is a step of its own: other threads move in between, or wait.
The publishing lock is taken and given back by moves.
-/

namespace PriceBoard

inductive Lock
  | table
  | registry
deriving DecidableEq, Repr

inductive Access
  | shared
  | exclusive
deriving DecidableEq, Repr

structure Hold where
  lock : Lock
  access : Access
deriving DecidableEq, Repr

/-- Two threads may hold these at the same time. -/
def Hold.compatible (c d : Hold) : Bool :=
  c.lock != d.lock || (c.access == .shared && d.access == .shared)

def Hub.Question.hold? : Hub.Question → Option Hold
  | .snapshot | .rate _ | .instruments => some ⟨.table, .shared⟩
  | .stats | .subscribers => some ⟨.registry, .shared⟩
  | .publishes => none

/-- The lock that a move needs. A handler's other moves, and its own code, need none. -/
def Move.hold? : Move → Option Hold
  | .copyEntries _ | .checkRegistry .. => some ⟨.registry, .shared⟩
  | .writeTable .. => some ⟨.table, .exclusive⟩
  | .copyTable .. | .checkTable _ | .act _ _ (.read _) => some ⟨.table, .shared⟩
  | .register .. | .registerLoading .. | .unregister .. | .clearRegistry _ =>
    some ⟨.registry, .exclusive⟩
  | .look q _ => q.hold?
  | _ => none

/-- A handler's own code: it is called, it acts, it learns what a call of its own
answered, and it returns or fails. To read a rate is a call. -/
def Move.isHandlers : Move → Bool
  | .act _ _ (.read _) => false
  | .deliver .. | .act .. | .conclude .. | .reply (.handler _) _ => true
  | _ => false

inductive Stroke
  | take (c : Hold)
  | make
  | give (c : Hold)
deriving DecidableEq, Repr

def Move.strokes (mv : Move) : List Stroke :=
  match mv.hold? with
  | none => [.make]
  | some c => [.take c, .make, .give c]

structure Hand where
  holds : List Hold := []
  -- of the move that the thread is at
  left : List Stroke := []
deriving DecidableEq, Repr

structure LockedMachine where
  machine : Machine
  hands : List Hand

namespace LockedMachine

def ofPrograms (s : Shared) (programs : List (List Call)) : LockedMachine where
  machine := .ofPrograms s programs
  hands := programs.map fun _ => {}

def nextMove? (m : LockedMachine) (i : Nat) : Option Move :=
  (m.machine.threads[i]?).bind (·.agenda.head?)

/-- What thread `i` is about to do: what is left of a move, or else all of its next one. -/
def strokes (m : LockedMachine) (i : Nat) : List Stroke :=
  match m.hands[i]? with
  | some ⟨_, []⟩ => (m.nextMove? i).elim [] (·.strokes)
  | some ⟨_, left⟩ => left
  | none => []

def holds (m : LockedMachine) (i : Nat) : List Hold := (m.hands[i]?).elim [] (·.holds)

def admits (m : LockedMachine) (c : Hold) : Bool :=
  m.hands.all fun h => h.holds.all c.compatible

def step? (m : LockedMachine) (i : Nat) : Option LockedMachine :=
  match m.strokes i with
  | [] => none
  | .take c :: left =>
    if m.admits c then some { m with hands := m.hands.set i ⟨c :: m.holds i, left⟩ } else none
  | .make :: left =>
    (m.machine.step? i).map fun machine => ⟨machine, m.hands.set i ⟨m.holds i, left⟩⟩
  | .give c :: left => some { m with hands := m.hands.set i ⟨(m.holds i).erase c, left⟩ }

/-- Steps of the threads in the order of a schedule; one that cannot step is passed over. -/
def follow (m : LockedMachine) (schedule : List Nat) : LockedMachine :=
  schedule.foldl (fun m i => (m.step? i).getD m) m

def takes (m : LockedMachine) (i : Nat) (c : Hold) : Prop := (m.strokes i).head? = some (.take c)

def makes (m : LockedMachine) (i : Nat) (mv : Move) : Prop :=
  (m.strokes i).head? = some .make ∧ m.nextMove? i = some mv

end LockedMachine

end PriceBoard
