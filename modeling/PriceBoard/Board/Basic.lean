import PriceBoard.Row

/-!
# The board

The board holds a row for every instrument it has seen, in the order in which
they were first seen, and a status line. The place of an instrument's row is
looked up by key, and always is where the row is. Every operation tells its
changes in order.
-/

namespace PriceBoard

structure Board (π : Type) where
  curve : Curve
  rows : List (Row π) := []
  places : List (String × Nat) := []
  status : String := "Initializing..."
  updates : Nat := 0
  lookup_places : ∀ key, places.lookup key = rows.findIdx? (·.key == key) := by exact fun _ => rfl

inductive Change
  | rowAdded (index : Nat) (key : String)
  | rowUpdated (index : Nat) (key : String)
  | pulseStarted (index : Nat) (direction : Direction)
  | highlightChanged (index : Nat)
  | ageRefreshed (index : Nat)
  | statusText
deriving DecidableEq, Repr

namespace Board

variable {π : Type}

/-- The status line of a board that has not been refreshed yet. -/
def initialStatus : String := "Initializing..."

def ofCurve (curve : Curve) : Board π := { curve := curve, status := initialStatus }

instance : Inhabited (Board π) := ⟨ofCurve default⟩

def size (b : Board π) : Nat := b.rows.length

def isEmpty (b : Board π) : Bool := b.rows.isEmpty

/-! ## Places -/

def index? (b : Board π) (key : String) : Option Nat := b.places.lookup key

section

variable {b : Board π} {key : String} {i : Nat}

theorem index?_eq_some_iff_findIdx? : b.index? key = some i ↔ b.rows.findIdx? (·.key == key) = some i := by
  rw [index?, b.lookup_places]

theorem lt_size (h : b.index? key = some i) : i < b.rows.length :=
  (List.findIdx?_eq_some_iff_getElem.mp (index?_eq_some_iff_findIdx?.mp h)).1

/-- The row at an instrument's place. -/
def rowAt (b : Board π) {key : String} {i : Nat} (h : b.index? key = some i) : Row π := b.rows.get ⟨i, lt_size h⟩

theorem key_rowAt (h : b.index? key = some i) : (b.rowAt h).key = key := by
  obtain ⟨_, hk, _⟩ := List.findIdx?_eq_some_iff_getElem.mp (index?_eq_some_iff_findIdx?.mp h)
  exact eq_of_beq hk

end

def get? (b : Board π) (key : String) : Option (Row π) :=
  match h : b.index? key with
  | some _ => some (b.rowAt h)
  | none => none

theorem findIdx?_eq_map (rows : List (Row π)) (key : String) :
    rows.findIdx? (·.key == key) = (rows.map (·.key)).findIdx? (· == key) := by
  rw [List.findIdx?_map]
  rfl

theorem map_key_set {rows : List (Row π)} {row : Row π} (i : Fin rows.length) (hk : row.key = (rows.get i).key) :
    (rows.set i row).map (·.key) = rows.map (·.key) := by
  have hi : i.1 < (rows.map (·.key)).length := by simp
  have hget : (rows.map (·.key)).get ⟨i, hi⟩ = row.key := by simp [hk]
  rw [List.map_set, ← hget]
  exact List.set_getElem_self hi

/-- Puts another row of the same instrument in a row's place. -/
def setRow (b : Board π) {key : String} {i : Nat} (h : b.index? key = some i) (row : Row π) (hk : row.key = key) :
    Board π :=
  { b with
    rows := b.rows.set i row
    lookup_places := fun k => by
      rw [b.lookup_places, findIdx?_eq_map, findIdx?_eq_map,
        map_key_set ⟨i, lt_size h⟩ (hk.trans (key_rowAt h).symm)] }

/-- Adds a row for an instrument that has none. -/
def addRow (b : Board π) (row : Row π) (h : b.index? row.key = none) : Board π :=
  { b with
    rows := b.rows ++ [row]
    places := (row.key, b.rows.length) :: b.places
    lookup_places := fun k => by
      rw [List.findIdx?_append, ← b.lookup_places k, List.lookup_cons]
      by_cases hk : k = row.key
      · subst hk
        rw [show b.places.lookup row.key = none from h]
        simp
      · simp [beq_false_of_ne hk, Ne.symm hk] }

/-- Every row shows its age, so all of them change when time is looked at. -/
def ageChanges (b : Board π) : List Change := (List.range b.size).map .ageRefreshed

/-! ## Rates -/

variable [Scalar π]

inductive Outcome
  | added (index : Nat)
  | updated (index : Nat) (pulse : Option Nat)
deriving DecidableEq, Repr

structure Applied (π : Type) where
  board : Board π
  changes : List Change
  outcome : Outcome

/-- Shows a rate: in its instrument's row, or in a new one at the end. -/
def apply (b : Board π) (r : Rate π) : Applied π :=
  let b := { b with updates := b.updates + 1 }
  match h : b.index? r.key with
  | some i =>
    let u := (b.rowAt h).update r
    let b := b.setRow h u.row ((Row.key_update ..).trans (key_rowAt h))
    let pulse := if u.pulse.isSome then [.pulseStarted i u.row.direction] else []
    ⟨b, .rowUpdated i r.key :: pulse ++ b.ageChanges, .updated i u.pulse⟩
  | none =>
    let i := b.size
    let b := b.addRow (Row.ofRate r b.curve) h
    ⟨b, .rowAdded i r.key :: b.ageChanges, .added i⟩

/-! ## Highlights -/

structure Advanced (π : Type) where
  board : Board π
  changes : List Change
  progress : DecayProgress π

def advance (b : Board π) (key : String) (generation step : Nat) : Advanced π :=
  match h : b.index? key with
  | some i =>
    let a := (b.rowAt h).advance generation step
    let b := b.setRow h a.row ((Row.key_advance ..).trans (key_rowAt h))
    ⟨b, if a.progress.isStale then [] else [.highlightChanged i], a.progress⟩
  | none => ⟨b, [], .stale⟩

/-! ## Status -/

def refresh (b : Board π) (clock : String) : Board π × List Change :=
  let status :=
    s!"Last Updated: {clock} - {b.size} rates active - {b.updates} updates received"
  ({ b with status := status }, .statusText :: b.ageChanges)

/-- Changes the status line; the same text again is no change. -/
def setStatus (b : Board π) (text : String) : Board π × List Change :=
  if b.status = text then (b, []) else ({ b with status := text }, [.statusText])

end Board

end PriceBoard
