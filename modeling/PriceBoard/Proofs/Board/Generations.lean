import PriceBoard.Proofs.Board.Mirror
import PriceBoard.Proofs.Row.Steps
import Mathlib.Algebra.GroupWithZero.Nat

/-!
# Generations

A rate for a row with a mid that is not zero brings the row to its next generation, and
is told as the start of a pulse. Nothing else that is done to a board does either.
-/

namespace PriceBoard

/-! ## Rows -/

namespace Row

variable {π : Type} [Scalar π]

theorem pulse_update (row : Row π) (r : Rate π) :
    (row.update r).pulse = if row.mid != 0 then some (row.generation + 1) else none := by
  rcases row.update_cases r with ⟨hm, he⟩ | ⟨hm, he⟩ <;> rw [he] <;> simp [bne, hm]

theorem generation_update (row : Row π) (r : Rate π) :
    (row.update r).row.generation = row.generation + (row.mid != 0).toNat := by
  rcases row.update_cases r with ⟨hm, he⟩ | ⟨hm, he⟩ <;> rw [he] <;> simp [bne, hm, showing, pulsing, startPulse]

theorem curve_advance (row : Row π) (generation step : Nat) :
    (row.advance generation step).row.curve = row.curve := by
  rcases row.advance_cases generation step with ⟨he, _⟩ | ⟨_, _, _, _, ⟨_, he⟩ | ⟨_, he⟩⟩ <;> rw [he] <;> rfl

end Row

/-! ## Boards -/

def Change.isPulse : Change → Bool
  | .pulseStarted .. => true
  | _ => false

namespace Board

variable {π : Type}

/-- The generation that the row of an instrument has come to. -/
def generationOf (b : Board π) (key : String) : Nat := (b.get? key).elim 0 (·.generation)

def generations (b : Board π) : Nat := (b.rows.map (·.generation)).sum

theorem sum_set {l : List Nat} {i : Nat} (hi : i < l.length) (n : Nat) :
    (l.set i (l[i] + n)).sum = l.sum + n := by
  induction l generalizing i with
  | nil => cases hi
  | cons m l ih =>
    cases i with
    | zero => simp [Nat.add_right_comm]
    | succ i => simp [ih (Nat.lt_of_succ_lt_succ hi), Nat.add_assoc]

theorem generations_setRow {b : Board π} {key : String} {i : Nat} (h : b.index? key = some i) {row : Row π}
    (hk : row.key = key) {n : Nat} (hn : row.generation = (b.rowAt h).generation + n) :
    (b.setRow h row hk).generations = b.generations + n := by
  have hi : i < (b.rows.map (·.generation)).length := by simpa using lt_size h
  have hset : (b.setRow h row hk).rows.map (·.generation) =
      (b.rows.map (·.generation)).set i ((b.rows.map (·.generation))[i] + n) := by
    rw [List.getElem_map]
    exact (List.map_set ..).trans (congrArg _ hn)
  rw [generations, hset, sum_set hi]
  rfl

theorem countP_ageChanges (b : Board π) : b.ageChanges.countP Change.isPulse = 0 := by
  simp [ageChanges, List.countP_eq_zero, Change.isPulse]

variable [Scalar π]

/-- Whether a rate is for a row with a mid that is not zero. -/
def renews (b : Board π) (r : Rate π) : Bool := (b.get? r.key).any (·.mid != 0)

/-! ### Rates -/

theorem pulse?_apply_eq (b : Board π) (r : Rate π) :
    (b.apply r).outcome.pulse? = if b.renews r then some (b.generationOf r.key + 1) else none := by
  rw [pulse?_apply, renews, generationOf]
  cases b.get? r.key with
  | none => rfl
  | some row => exact row.pulse_update r

theorem generationOf_apply (b : Board π) (r : Rate π) (key : String) :
    (b.apply r).board.generationOf key = b.generationOf key + (b.renews r && r.key == key).toNat := by
  rw [generationOf, get?_apply]
  by_cases hk : key = r.key
  · subst hk
    rw [if_pos rfl, rowAfter, renews, generationOf]
    cases b.get? r.key with
    | none => rfl
    | some row => simpa using row.generation_update r
  · simp [if_neg hk, beq_false_of_ne (Ne.symm hk), generationOf]

theorem generations_apply (b : Board π) (r : Rate π) :
    (b.apply r).board.generations = b.generations + (b.renews r).toNat := by
  cases h : b.index? r.key with
  | none =>
    rw [(apply_of_index?_none h).1, renews, get?_of_index?_none h]
    simp [generations, addRow, Row.ofRate]
  | some i =>
    rw [(apply_of_index? h).1, renews, get?_of_index? h]
    exact generations_setRow h ((Row.key_update ..).trans (key_rowAt h)) ((b.rowAt h).generation_update r)

theorem countP_apply (b : Board π) (r : Rate π) :
    (b.apply r).changes.countP Change.isPulse = (b.renews r).toNat := by
  cases h : b.index? r.key with
  | none =>
    rw [apply_eq_of_index?_none h, renews, get?_of_index?_none h]
    simp [countP_ageChanges, Change.isPulse]
  | some i =>
    rw [apply_eq_of_index? h, renews, get?_of_index? h]
    simp only [Row.pulse_update, Option.any_some]
    cases (b.rowAt h).mid != 0 <;> simp [List.countP_cons, countP_ageChanges, Change.isPulse]

/-! ### Decay steps -/

theorem generationOf_advance (b : Board π) (key : String) (generation step : Nat) (k : String) :
    (b.advance key generation step).board.generationOf k = b.generationOf k := by
  cases h : b.get? key with
  | none => rw [advance_of_get?_none h]
  | some row =>
    rw [generationOf, (advance_of_get? h generation step).2.2]
    split
    · subst k
      rw [generationOf, h]
      exact row.generation_advance generation step
    · rfl

theorem generations_advance (b : Board π) (key : String) (generation step : Nat) :
    (b.advance key generation step).board.generations = b.generations := by
  cases h : b.index? key with
  | none => rw [advance_of_index?_none h]
  | some i =>
    rw [advance_of_index? h]
    exact generations_setRow (n := 0) h ((Row.key_advance ..).trans (key_rowAt h)) (Row.generation_advance ..)

theorem countP_advance (b : Board π) (key : String) (generation step : Nat) :
    (b.advance key generation step).changes.countP Change.isPulse = 0 := by
  have hchanges := b.changes_advance key generation step
  split at hchanges
  · rw [hchanges]
    rfl
  · obtain ⟨i, -, he⟩ := hchanges
    rw [he]
    rfl

/-! ### The curve -/

/-- Whether all rows fade along the board's curve. -/
def Curved (b : Board π) : Prop := ∀ key row, b.get? key = some row → row.curve = b.curve

theorem Curved.apply {b : Board π} (h : b.Curved) (r : Rate π) : (b.apply r).board.Curved := by
  intro key row hrow
  rw [get?_apply] at hrow
  rw [curve_apply]
  split at hrow
  · cases hrow
    rw [rowAfter]
    cases hr : b.get? r.key with
    | none => rfl
    | some old => exact (old.update_curve r).trans (h _ _ hr)
  · exact h _ _ hrow

theorem Curved.advance {b : Board π} (h : b.Curved) (key : String) (generation step : Nat) :
    (b.advance key generation step).board.Curved := by
  cases hk : b.get? key with
  | none => rwa [advance_of_get?_none hk]
  | some row =>
    obtain ⟨-, hcurve, hrows⟩ := advance_of_get? hk generation step
    intro k row' hrow
    rw [hcurve]
    rw [hrows] at hrow
    split at hrow
    · cases hrow
      exact (row.curve_advance generation step).trans (h _ _ hk)
    · exact h _ _ hrow

/-- Whether an operation neither shows a rate nor takes a decay step. -/
def Op.isAside : Op π → Bool
  | refresh _ | setStatus _ => true
  | apply _ | advance .. => false

theorem countP_tell {o : Op π} (h : o.isAside) (b : Board π) : (b.tell o).countP Change.isPulse = 0 := by
  cases o with
  | refresh clock => simp [tell, refresh, countP_ageChanges, Change.isPulse]
  | setStatus text =>
    simp only [tell, setStatus]
    split <;> rfl
  | apply | advance => cases h

theorem rows_perform {o : Op π} (h : o.isAside) (b : Board π) :
    (b.perform o).1.rows = b.rows ∧ (b.perform o).1.curve = b.curve := by
  cases o with
  | refresh clock => exact ⟨rfl, rfl⟩
  | setStatus text =>
    simp only [perform, board_setStatus]
    trivial
  | apply | advance => cases h

end Board

end PriceBoard
