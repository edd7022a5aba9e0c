import PriceBoard.Board.Basic
import PriceBoard.Proofs.Row.Basic

/-!
# Rows of a board

What an operation on the board does to the row of each instrument.
-/

namespace PriceBoard

namespace Board

variable {π : Type}

/-! ## One row -/

section

variable {b : Board π} {key : String} {i : Nat} {row : Row π}

theorem getElem?_of_index? (h : b.index? key = some i) : b.rows[i]? = some (b.rowAt h) :=
  List.getElem?_eq_getElem (lt_size h)

theorem get?_eq_bind (b : Board π) (key : String) : b.get? key = (b.index? key).bind fun i => b.rows[i]? := by
  unfold get?
  split
  · rename_i i h
    simp only [h, Option.bind_some]
    exact (getElem?_of_index? h).symm
  · rename_i h
    rw [h]
    rfl

theorem get?_of_index? (h : b.index? key = some i) : b.get? key = some (b.rowAt h) := by
  rw [get?_eq_bind, h]
  exact getElem?_of_index? h

theorem get?_of_index?_none (h : b.index? key = none) : b.get? key = none := by
  rw [get?_eq_bind, h]
  rfl

theorem exists_index?_of_get? (h : b.get? key = some row) :
    row.key = key ∧ ∃ i, ∃ hi : b.index? key = some i, b.rowAt hi = row := by
  unfold get? at h
  split at h
  · rename_i i hi
    cases h
    exact ⟨key_rowAt hi, i, hi, rfl⟩
  · cases h

theorem get?_eq_find? (b : Board π) (key : String) : b.get? key = b.rows.find? (·.key == key) := by
  rw [get?_eq_bind, index?, b.lookup_places, List.find?_eq_bind_findIdx?_getElem?]

theorem get?_setRow (h : b.index? key = some i) (hk : row.key = key) (k : String) :
    (b.setRow h row hk).get? k = if k = key then some row else b.get? k := by
  rw [get?_eq_bind, get?_eq_bind b]
  show ((b.index? k).bind fun j => (b.rows.set i row)[j]?) = _
  by_cases hc : k = key
  · rw [if_pos hc, hc, h]
    exact List.getElem?_set_self (lt_size h)
  · rw [if_neg hc]
    cases hj : b.index? k with
    | none => rfl
    | some j =>
      have hne : i ≠ j := by
        rintro rfl
        exact hc ((key_rowAt hj).symm.trans (key_rowAt h))
      exact List.getElem?_set_ne hne

theorem index?_addRow (h : b.index? row.key = none) (k : String) :
    (b.addRow row h).index? k = if k = row.key then some b.rows.length else b.index? k := by
  show ((row.key, b.rows.length) :: b.places).lookup k = _
  rw [List.lookup_cons]
  by_cases hk : k = row.key
  · simp [hk]
  · simp [beq_false_of_ne hk, hk, index?]

theorem get?_addRow (h : b.index? row.key = none) (k : String) :
    (b.addRow row h).get? k = if k = row.key then some row else b.get? k := by
  rw [get?_eq_bind, get?_eq_bind b, index?_addRow]
  show (_ : Option Nat).bind (fun j => (b.rows ++ [row])[j]?) = _
  by_cases hc : k = row.key
  · rw [if_pos hc, if_pos hc]
    exact List.getElem?_concat_length
  · rw [if_neg hc, if_neg hc]
    cases hj : b.index? k with
    | none => rfl
    | some j => exact List.getElem?_append_left (lt_size hj)

end

variable [Scalar π]

/-! ## Rates -/

def Outcome.pulse? : Outcome → Option Nat
  | .added _ => none
  | .updated _ pulse => pulse

theorem apply_eq_of_index? {b : Board π} {r : Rate π} {i : Nat} (h : b.index? r.key = some i) :
    b.apply r =
      let u := (b.rowAt h).update r
      let after := { b.setRow h u.row ((Row.key_update ..).trans (key_rowAt h)) with updates := b.updates + 1 }
      ⟨after, .rowUpdated i r.key :: (if u.pulse.isSome then [.pulseStarted i u.row.direction] else []) ++
        after.ageChanges, .updated i u.pulse⟩ := by
  unfold apply
  dsimp only
  split
  · rename_i j hj
    cases h.symm.trans hj
    rfl
  · rename_i hn
    cases h.symm.trans hn

theorem apply_eq_of_index?_none {b : Board π} {r : Rate π} (h : b.index? r.key = none) :
    b.apply r =
      let after := { b.addRow (.ofRate r b.curve) h with updates := b.updates + 1 }
      ⟨after, .rowAdded b.size r.key :: after.ageChanges, .added b.size⟩ := by
  unfold apply
  dsimp only
  split
  · rename_i j hj
    cases h.symm.trans hj
  · rfl

theorem apply_of_index? {b : Board π} {r : Rate π} {i : Nat} (h : b.index? r.key = some i) :
    (b.apply r).board = { b.setRow h ((b.rowAt h).update r).row ((Row.key_update ..).trans (key_rowAt h)) with
      updates := b.updates + 1 } ∧
    (b.apply r).outcome = .updated i ((b.rowAt h).update r).pulse := by
  rw [apply_eq_of_index? h]
  exact ⟨rfl, rfl⟩

theorem apply_of_index?_none {b : Board π} {r : Rate π} (h : b.index? r.key = none) :
    (b.apply r).board = { b.addRow (.ofRate r b.curve) h with updates := b.updates + 1 } ∧
    (b.apply r).outcome = .added b.size := by
  rw [apply_eq_of_index?_none h]
  exact ⟨rfl, rfl⟩

theorem curve_apply (b : Board π) (r : Rate π) : (b.apply r).board.curve = b.curve := by
  cases h : b.index? r.key with
  | none => rw [(apply_of_index?_none h).1]; rfl
  | some i => rw [(apply_of_index? h).1]; rfl

def rowAfter (b : Board π) (r : Rate π) : Row π :=
  (b.get? r.key).elim (.ofRate r b.curve) fun row => (row.update r).row

theorem get?_apply (b : Board π) (r : Rate π) (k : String) :
    (b.apply r).board.get? k = if k = r.key then some (b.rowAfter r) else b.get? k := by
  unfold rowAfter
  cases h : b.index? r.key with
  | none =>
    rw [(apply_of_index?_none h).1, get?_of_index?_none h]
    exact @get?_addRow π b (.ofRate r b.curve) h k
  | some i =>
    rw [(apply_of_index? h).1, get?_of_index? h]
    exact get?_setRow h ((Row.key_update ..).trans (key_rowAt h)) k

theorem pulse?_apply (b : Board π) (r : Rate π) :
    (b.apply r).outcome.pulse? = (b.get? r.key).bind fun row => (row.update r).pulse := by
  cases h : b.index? r.key with
  | none => rw [(apply_of_index?_none h).2, get?_of_index?_none h]; rfl
  | some i => rw [(apply_of_index? h).2, get?_of_index? h]; rfl

/-! ## Decay steps -/

theorem advance_of_index? {b : Board π} {key : String} {i : Nat} (h : b.index? key = some i)
    (generation step : Nat) :
    b.advance key generation step =
      let a := (b.rowAt h).advance generation step
      ⟨b.setRow h a.row ((Row.key_advance ..).trans (key_rowAt h)),
        if a.progress.isStale then [] else [.highlightChanged i], a.progress⟩ := by
  unfold advance
  split
  · rename_i j hj
    cases h.symm.trans hj
    rfl
  · rename_i hn
    cases h.symm.trans hn

theorem advance_of_index?_none {b : Board π} {key : String} (h : b.index? key = none) (generation step : Nat) :
    b.advance key generation step = ⟨b, [], .stale⟩ := by
  unfold advance
  split
  · rename_i j hj
    cases h.symm.trans hj
  · rfl

theorem advance_of_get?_none {b : Board π} {key : String} (h : b.get? key = none) (generation step : Nat) :
    b.advance key generation step = ⟨b, [], .stale⟩ := by
  cases hi : b.index? key with
  | none => exact advance_of_index?_none hi generation step
  | some i =>
    rw [get?_of_index? hi] at h
    cases h

theorem advance_of_get? {b : Board π} {key : String} {row : Row π} (h : b.get? key = some row)
    (generation step : Nat) :
    (b.advance key generation step).progress = (row.advance generation step).progress ∧
    (b.advance key generation step).board.curve = b.curve ∧
    ∀ k, (b.advance key generation step).board.get? k =
      if k = key then some (row.advance generation step).row else b.get? k := by
  obtain ⟨-, i, hi, rfl⟩ := exists_index?_of_get? h
  rw [advance_of_index? hi]
  exact ⟨rfl, rfl, get?_setRow hi ((Row.key_advance ..).trans (key_rowAt hi))⟩

/-! ## Status -/

omit [Scalar π] in
theorem board_setStatus (b : Board π) (text : String) : (b.setStatus text).1 = { b with status := text } := by
  unfold setStatus
  split
  · rename_i h
    subst h
    rfl
  · rfl

end Board

end PriceBoard
