import PriceBoard.Task.Process

/-!
# Jobs

A job is a task with a simple workload. It does nothing before it is first run,
and an abort takes effect when it is run next.
-/

namespace PriceBoard

open Time (Nanos)

inductive Workload
  | instant
  | cooperative
  | slowStop (delay : Nanos)
  | timed (length : Nanos)
  | stubborn
  | fails (payload : Payload)
  | failsOnStop (payload : Payload)
deriving DecidableEq, Repr

inductive JobPhase
  | unstarted
  | running (wake : Option Nanos)
  | ended (e : TaskEnd)
deriving DecidableEq, Repr

def Workload.phaseAt (w : Workload) (isCancelled : Bool) (wake : Option Nanos) (now : Nanos) :
    JobPhase :=
  let wait (wake : Nanos) : JobPhase :=
    if wake ≤ now then .ended .completed else .running (some wake)
  match w with
  | .instant => .ended .completed
  | .cooperative => if isCancelled then .ended .completed else .running none
  | .slowStop delay =>
    match wake with
    | some t => wait t
    | none => if isCancelled then wait (now + delay) else .running none
  | .timed length => wait (wake.getD (now + length))
  | .stubborn => .running none
  | .fails payload => .ended (.failed payload)
  | .failsOnStop payload => if isCancelled then .ended (.failed payload) else .running none

structure Job where
  workload : Workload
  phase : JobPhase := .unstarted
  isCancelled : Bool := false
  isAborted : Bool := false
  log : Array LogEntry := #[]

namespace Job

def cancel (j : Job) : Job := { j with isCancelled := true }

def abort (j : Job) : Job := { j with isAborted := true }

def ending? (j : Job) : Option TaskEnd :=
  match j.phase with
  | .ended e => some e
  | _ => none

def isFinished (j : Job) : Bool := j.ending?.isSome

def settle (now : Nanos) (j : Job) : Job :=
  match j.phase with
  | .ended _ => j
  | .unstarted =>
    if j.isAborted then { j with phase := .ended .aborted }
    else { j with phase := j.workload.phaseAt j.isCancelled none now }
  | .running wake =>
    if j.isAborted then { j with phase := .ended .aborted }
    else { j with phase := j.workload.phaseAt j.isCancelled wake now }

def due? (j : Job) : Option Nanos :=
  match j.phase with
  | .running wake => wake
  | _ => none

def task (component : String) : Task Job where
  settle := settle
  due? := due?
  component := component
  cancel := cancel
  abort := abort
  ending? := ending?
  write e j := { j with log := j.log.push e }

end Job

end PriceBoard
