import Mathlib.Logic.Relation
import PriceBoard.Hub.Machine

/-!
# A thread alone

A call that is made at once is a sequence of steps of its thread, if nobody is in a
section (`steps_call`).
-/

namespace PriceBoard

open Relation (ReflTransGen)

namespace Move

def isLock : Move → Bool
  | lockPublishing | unlockPublishing => true
  | _ => false

theorem isLock_of_mem_make {s : Shared} {t : Thread} {mv n : Move} (hn : n ∈ (mv.make s t).2.2) :
    n.isLock = false := by
  cases mv with
  | act name r a => cases a <;> simp [make, Action.moves] at hn <;> subst hn <;> rfl
  | unregister id asker =>
    simp only [make, List.mem_cons, List.not_mem_nil, or_false] at hn
    rcases hn with rfl | rfl
    · split <;> rfl
    · rfl
  | reply asker r => cases asker <;> simp [make] at hn
  | conclude name key ending => cases hp : ending.payload? key <;> simp [make, hp] at hn
  | _ => simp [make] at hn <;> grind [isLock]

theorem make_withAgenda (s : Shared) (t : Thread) (agenda : List Move) (mv : Move) :
    mv.make s { t with agenda := agenda } =
      ((mv.make s t).1, { (mv.make s t).2.1 with agenda := agenda }, (mv.make s t).2.2) := by
  cases mv with
  | conclude name key ending => cases hp : ending.payload? key <;> simp [make, hp]
  | reply asker r => cases asker <;> rfl
  | _ => rfl

end Move

namespace Machine

/-- The machine with its shared part and thread `i` in a state, the thread having
some moves to make. -/
def place (m : Machine) (i : Nat) (state : Shared × Thread) (agenda : List Move) : Machine :=
  { m with shared := state.1, threads := m.threads.set i { state.2 with agenda := agenda } }

variable {m : Machine} {i : Nat} {state : Shared × Thread} {rest : List Move}

theorem step?_place (hi : i < m.threads.length) {mv : Move} (hl : mv.isLock = false) :
    (m.place i state (mv :: rest)).step? i =
      some (m.place i ((mv.make state.1 state.2).1, (mv.make state.1 state.2).2.1)
        ((mv.make state.1 state.2).2.2 ++ rest)) := by
  have ht : (m.place i state (mv :: rest)).threads[i]? = some { state.2 with agenda := mv :: rest } := by
    simp [place, hi]
  simp only [step?, ht, Option.bind_eq_bind, Option.bind_some]
  split
  · cases hl
  · cases hl
  · have hmake := Move.make_withAgenda state.1 state.2 rest mv
    simp [place, hmake]

theorem steps_foldl {d : Nat}
    (step : ∀ (mv : Move) (state : Shared × Thread) (rest : List Move), mv.isLock = false → mv.depth < d →
      ReflTransGen Step (m.place i state (mv :: rest)) (m.place i (mv.runTo d state) rest)) (rest : List Move) :
    ∀ (moves : List Move) (state : Shared × Thread), (∀ mv ∈ moves, mv.isLock = false ∧ mv.depth < d) →
      ReflTransGen Step (m.place i state (moves ++ rest)) (m.place i (moves.foldl (Move.runTo d) state) rest)
  | [], _, _ => .refl
  | mv :: moves, state, h => by
    obtain ⟨⟨hl, hd⟩, hmoves⟩ := List.forall_mem_cons.mp h
    exact (step mv state _ hl hd).trans (steps_foldl step rest moves _ hmoves)

theorem steps_runTo (hi : i < m.threads.length) :
    ∀ (d : Nat) (mv : Move) (state : Shared × Thread) (rest : List Move), mv.isLock = false → mv.depth < d →
      ReflTransGen Step (m.place i state (mv :: rest)) (m.place i (mv.runTo d state) rest)
  | 0, _, _, _, _, hd => absurd hd (Nat.not_lt_zero _)
  | d + 1, mv, state, rest, hl, hd => by
    refine .head (.of _ _ i (step?_place hi hl)) ?_
    -- what the move brings on is of lower depth
    refine steps_foldl (steps_runTo hi d) rest _ _ fun n hn => ⟨Move.isLock_of_mem_make hn, ?_⟩
    exact Nat.lt_of_lt_of_le (Move.depth_lt_of_mem_make state.1 state.2 mv n hn) (Nat.le_of_lt_succ hd)

theorem steps_run (hi : i < m.threads.length) {mv : Move} (hl : mv.isLock = false) (state : Shared × Thread)
    (rest : List Move) : ReflTransGen Step (m.place i state (mv :: rest)) (m.place i (mv.run state) rest) :=
  steps_runTo hi _ mv state rest hl (Nat.lt_succ_self _)

/-- A section of one move and all that it brings on. -/
theorem steps_section (hi : i < m.threads.length) (free : m.holder = none) {mv : Move} (hl : mv.isLock = false)
    (state : Shared × Thread) :
    ReflTransGen Step (m.place i state [.lockPublishing, mv, .unlockPublishing])
      (m.place i ([Move.lockPublishing, mv, .unlockPublishing].foldl Move.run state) []) := by
  have hlock : (m.place i state [.lockPublishing, mv, .unlockPublishing]).step? i =
      some ({ m with holder := some i }.place i state [mv, .unlockPublishing]) := by
    simp [step?, place, hi, free]
  have hunlock : ({ m with holder := some i }.place i (mv.run state) [.unlockPublishing]).step? i =
      some (m.place i (mv.run state) []) := by
    simp [step?, place, hi, free]
  refine .head (.of _ _ i hlock) (.tail ?_ (.of _ _ i hunlock))
  exact steps_run (m := { m with holder := some i }) hi hl state [.unlockPublishing]

theorem steps_call (hi : i < m.threads.length) (free : m.holder = none) (c : Call) (state : Shared × Thread) :
    ReflTransGen Step (m.place i state c.moves) (m.place i (c.moves.foldl Move.run state) []) := by
  cases c with
  | publish r =>
    simp only [Call.moves]
    split
    · exact steps_run hi rfl state []
    · exact steps_section hi free rfl state
  | subscribeAndLoad h f => exact steps_section hi free rfl state
  | _ => exact steps_run hi rfl state []

end Machine

end PriceBoard
