import PriceBoard.Hub.Moves

/-!
# Calls

The operations of the hub as lists of moves, and what they do when no other
thread moves in between.
-/

namespace PriceBoard

inductive Call
  | publish (r : Rate Float)
  | subscribe (h : Handler) (f : Filter)
  | subscribeAndLoad (h : Handler) (f : Filter)
  | unsubscribe (id : SubscriptionId)
  | shutdown
  | ask (q : Hub.Question)
  | check

/-- A rate that is not valid is refused before any lock is taken. -/
def Call.moves : Call → List Move
  | .publish r =>
    match r.fault? with
    | some fault => [.reject r fault]
    | none => [.lockPublishing, .copyEntries r, .unlockPublishing]
  | .subscribe h f => [.register h f .program]
  | .subscribeAndLoad h f => [.lockPublishing, .copyTable h f, .unlockPublishing]
  | .unsubscribe id => [.unregister id .program]
  | .shutdown => [.clearRegistry .program]
  | .ask q => [.look q .program]
  | .check => [.checkTable .program]

namespace Move

/-- A move and everything it brings on, down to a depth. -/
def runTo : Nat → Shared × Thread → Move → Shared × Thread
  | 0, state, _ => state
  | d + 1, (s, t), m =>
    let (s, t, next) := m.make s t
    next.foldl (runTo d) (s, t)

def run (state : Shared × Thread) (m : Move) : Shared × Thread := m.runTo (m.depth + 1) state

theorem depth_lt_of_mem_moves {name : String} {a : Action Handler} {m : Move}
    (h : m ∈ a.moves name) : m.depth < 4 := by
  cases a <;> simp [Action.moves] at h <;> subst h <;> simp [depth]

theorem depth_lt_of_mem_make (s : Shared) (t : Thread) (m n : Move)
    (h : n ∈ (m.make s t).2.2) : n.depth < m.depth := by
  cases m with
  | act name r a => exact depth_lt_of_mem_moves h
  | unregister id asker =>
    simp only [make, List.mem_cons, List.not_mem_nil, or_false] at h
    rcases h with rfl | rfl
    · split <;> simp [depth]
    · simp [depth]
  | reply asker r => cases asker <;> simp [make] at h
  | conclude name key ending =>
    cases hp : ending.payload? key <;> simp [make, hp] at h
  | _ => simp [make] at h <;> grind [depth]

end Move

namespace Shared

def runMoves (s : Shared) (moves : List Move) : Shared × Thread :=
  moves.foldl Move.run (s, {})

def call (s : Shared) (c : Call) : Option Reply × Shared :=
  let (s, t) := s.runMoves c.moves
  (t.replies.back?, s)

def publish (s : Shared) (r : Rate Float) : Except (RateFault Float) Report × Shared :=
  let (s, t) := s.runMoves (Call.publish r).moves
  match r.fault? with
  | some fault => (.error fault, s)
  | none => (.ok t.report, s)

/-- The hub after several publishes; refused rates leave their trace too. -/
def publishAll (s : Shared) (rates : List (Rate Float)) : Shared :=
  rates.foldl (fun s r => (s.publish r).2) s

end Shared

end PriceBoard
