import PriceBoard.Highlight.Curve
import PriceBoard.Highlight.Direction
import PriceBoard.Rate.Basic

/-!
# Rows

A row shows one instrument. An update that follows a non-zero mid starts a
pulse: the highlight jumps to full intensity and fades step by step. Every
pulse has a generation of its own, and steps of earlier pulses are stale.

Changes are told as notices. A notice carries the row as a listener finds it
when it is called.
-/

namespace PriceBoard

/-- A pulse that has not ended: its generation, the last step taken and the
intensity it started from. -/
structure Decay (π : Type) where
  generation : Nat
  step : Nat
  start : π
deriving Repr

structure Row (π : Type) where
  key : String
  bid : π
  ask : π
  mid : π
  spread : π
  source : String
  lastUpdated : Time.Timestamp
  isActive : Bool
  previousMid : π
  intensity : π
  direction : Direction
  curve : Curve
  generation : Nat
  decay : Option (Decay π)

inductive Property
  | bid | ask | mid | spread | source | lastUpdated | isActive | highlight
deriving DecidableEq, Repr

structure Notice (π : Type) where
  property : Property
  row : Row π

inductive DecayProgress (π : Type)
  | stale
  | running (intensity : π)
  | finished
deriving Repr

namespace Row

variable {π : Type} [Scalar π]

def ofRate (r : Rate π) (curve : Curve) : Row π where
  key := r.key
  bid := r.bid
  ask := r.ask
  mid := r.mid
  spread := r.spread
  source := r.source
  lastUpdated := r.lastUpdated
  isActive := r.isActive
  previousMid := 0
  intensity := 0
  direction := .standard
  curve := curve
  generation := 0
  decay := none

/-! ## Updates -/

structure Editing (π : Type) where
  row : Row π
  notices : List (Notice π) := []

def Editing.change (e : Editing π) (property : Property) (f : Row π → Row π) : Editing π :=
  ⟨f e.row, e.notices ++ [⟨property, f e.row⟩]⟩

def Editing.changeIf (e : Editing π) (differs : Bool) (property : Property) (f : Row π → Row π) :
    Editing π :=
  if differs then e.change property f else e

/-- Brings the displayed fields up to date, each told if it differs. -/
def Editing.show (e : Editing π) (r : Rate π) : Editing π :=
  let e := e.changeIf (e.row.bid != r.bid) .bid ({ · with bid := r.bid })
  let e := e.changeIf (e.row.ask != r.ask) .ask ({ · with ask := r.ask })
  let e := e.changeIf (e.row.mid != r.mid) .mid ({ · with mid := r.mid })
  let e := e.changeIf (e.row.spread != r.spread) .spread ({ · with spread := r.spread })
  let e := e.changeIf (e.row.source != r.source) .source ({ · with source := r.source })
  let e := e.changeIf (e.row.lastUpdated != r.lastUpdated) .lastUpdated
    ({ · with lastUpdated := r.lastUpdated })
  e.changeIf (e.row.isActive != r.isActive) .isActive ({ · with isActive := r.isActive })

def startPulse (row : Row π) (direction : Direction) : Row π :=
  { row with
    generation := row.generation + 1
    decay := some ⟨row.generation + 1, 0, 1⟩
    direction := direction
    intensity := 1 }

/-- The outcome of an update; `pulse` is the generation of the pulse it started. -/
structure Update (π : Type) where
  row : Row π
  notices : List (Notice π)
  pulse : Option Nat

def update (row : Row π) (r : Rate π) : Update π :=
  let e := Editing.show ⟨row, []⟩ r
  if row.mid == 0 then ⟨e.row, e.notices, none⟩
  else
    let direction := Direction.ofMove row.mid r.mid
    let e := e.change .highlight fun shown =>
      { shown with previousMid := row.mid }.startPulse direction
    ⟨e.row, e.notices, some e.row.generation⟩

/-! ## Decay -/

structure Advance (π : Type) where
  row : Row π
  notices : List (Notice π)
  progress : DecayProgress π

/-- Takes a decay step. It is stale unless it belongs to the pulse that is
fading and lies beyond the last step taken. -/
def advance (row : Row π) (generation step : Nat) : Advance π :=
  match row.decay with
  | none => ⟨row, [], .stale⟩
  | some d =>
    if d.generation ≠ generation ∨ step ≤ d.step then ⟨row, [], .stale⟩
    else if row.curve.steps ≤ step then
      let ended := { row with decay := none, intensity := 0 }
      ⟨ended, [⟨.highlight, ended⟩], .finished⟩
    else
      let intensity := row.curve.intensityAt d.start step
      let faded := { row with decay := some { d with step := step }, intensity := intensity }
      ⟨faded, [⟨.highlight, faded⟩], .running intensity⟩

/-! ## Keys -/

omit [Scalar π] in
theorem Editing.key_changeIf (e : Editing π) (differs : Bool) (property : Property) {f : Row π → Row π}
    (h : ∀ row, (f row).key = row.key) : (e.changeIf differs property f).row.key = e.row.key := by
  cases differs
  · rfl
  · exact h e.row

theorem Editing.key_show (e : Editing π) (r : Rate π) : (e.show r).row.key = e.row.key := by
  simp [Editing.show, key_changeIf]

theorem key_update (row : Row π) (r : Rate π) : (row.update r).row.key = row.key := by
  unfold update
  dsimp only
  split
  · exact Editing.key_show ..
  · exact Editing.key_show ..

theorem key_advance (row : Row π) (generation step : Nat) : (row.advance generation step).row.key = row.key := by
  unfold advance
  split
  · rfl
  · split
    · rfl
    · split <;> rfl

/-! ## Views -/

def isDecaying (row : Row π) : Bool := row.decay.isSome

def colour (row : Row π) : Colour :=
  if row.intensity ≤ 0 then .transparent else row.direction.colour.faded row.intensity

end Row

def Property.name : Property → String
  | .bid => "bid"
  | .ask => "ask"
  | .mid => "mid"
  | .spread => "spread"
  | .source => "source"
  | .lastUpdated => "last_updated"
  | .isActive => "is_active"
  | .highlight => "highlight"

def DecayProgress.isStale {π : Type} : DecayProgress π → Bool
  | .stale => true
  | _ => false

end PriceBoard
