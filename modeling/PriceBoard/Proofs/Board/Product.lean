import PriceBoard.Proofs.Board.Agreement
import PriceBoard.Proofs.Row.Runs

/-!
# A board as a family of rows

What is done to a board is a list of operations. The row of a key goes through the
states of a row on its own that is given the operations for this key and no others,
and the board answers as that row does (`rows_of_run`).
-/

namespace PriceBoard

variable {π : Type} [Scalar π]

namespace Row

/-- A row on its own: it is made from its first rate and driven by what comes later.
What comes earlier is stale. -/
def solo (curve : Curve) : List (Op π) → Option (Row π) × List (Answer π)
  | [] => (none, [])
  | .advance _ _ :: os => ((solo curve os).1, .progress .stale :: (solo curve os).2)
  | .update r :: os =>
    let rest := (ofRate r curve).run os
    (some rest.1, .created :: rest.2)

end Row

namespace Board

inductive Op (π : Type)
  | apply (r : Rate π)
  | advance (key : String) (generation step : Nat)
  | refresh (clock : String)
  | setStatus (text : String)

inductive Answer (π : Type)
  | applied (o : Outcome)
  | progress (p : DecayProgress π)
  | done

def perform (b : Board π) : Op π → Board π × Answer π
  | .apply r => ((b.apply r).board, .applied (b.apply r).outcome)
  | .advance key generation step =>
    ((b.advance key generation step).board, .progress (b.advance key generation step).progress)
  | .refresh clock => ((b.refresh clock).1, .done)
  | .setStatus text => ((b.setStatus text).1, .done)

def run (b : Board π) : List (Op π) → Board π × List (Answer π)
  | [] => (b, [])
  | o :: os =>
    let rest := (b.perform o).1.run os
    (rest.1, (b.perform o).2 :: rest.2)

def Op.rate? : Op π → Option (Rate π)
  | apply r => some r
  | _ => none

/-- What an operation does to the row of a key. -/
def Op.for? (key : String) : Op π → Option (Row.Op π)
  | apply r => if r.key = key then some (.update r) else none
  | advance k generation step => if k = key then some (.advance generation step) else none
  | _ => none

/-- What the operations for a key are answered. -/
def answersTo (b : Board π) (key : String) (os : List (Op π)) : List (Answer π) :=
  ((os.zip (b.run os).2).filter fun p => (p.1.for? key).isSome).map (·.2)

end Board

/-- What the board answers for the row at a place. -/
def Row.Answer.onBoard (place : Nat) : Row.Answer π → Board.Answer π
  | .created => .applied (.added place)
  | .pulse generation => .applied (.updated place generation)
  | .progress p => .progress p

namespace Board

/-! ## One operation -/

section

variable (b : Board π) (o : Op π) {key : String}

theorem curve_perform : (b.perform o).1.curve = b.curve := by
  cases o with
  | apply r => exact b.curve_apply r
  | advance key generation step =>
    cases h : b.get? key with
    | none => simp only [perform, advance_of_get?_none h]
    | some row => exact (advance_of_get? h generation step).2.1
  | refresh clock => rfl
  | setStatus text =>
    rw [perform, board_setStatus]

theorem keys_perform : (b.perform o).1.keys =
    (o.rate?.elim b.keys fun r => if r.key ∈ b.keys then b.keys else b.keys ++ [r.key]) := by
  cases o with
  | apply r => exact b.keys_apply r
  | advance key generation step => exact (b.keys_advance key generation step).1
  | refresh clock => rfl
  | setStatus text =>
    rw [perform, board_setStatus]
    rfl

theorem updates_perform : (b.perform o).1.updates = o.rate?.elim b.updates fun _ => b.updates + 1 := by
  cases o with
  | apply r => exact b.updates_apply r
  | advance key generation step => exact (b.keys_advance key generation step).2
  | refresh clock => rfl
  | setStatus text =>
    rw [perform, board_setStatus]
    rfl

theorem keys_prefix_perform : b.keys <+: (b.perform o).1.keys := by
  rw [keys_perform]
  cases o.rate? with
  | none => exact List.prefix_rfl
  | some r =>
    simp only [Option.elim_some]
    split
    · exact List.prefix_rfl
    · exact List.prefix_append ..

variable {b o}

theorem get?_perform_of_for?_none (ho : o.for? key = none) : (b.perform o).1.get? key = b.get? key := by
  cases o with
  | apply r =>
    have hk : key ≠ r.key := fun e => by simp [Op.for?, e] at ho
    exact (b.get?_apply r key).trans (if_neg hk)
  | advance k generation step =>
    have hk : key ≠ k := fun e => by simp [Op.for?, e] at ho
    cases h : b.get? k with
    | none => simp only [perform, advance_of_get?_none h]
    | some row => exact ((advance_of_get? h generation step).2.2 key).trans (if_neg hk)
  | refresh clock => rfl
  | setStatus text =>
    rw [perform, board_setStatus]
    rfl

omit [Scalar π] in
theorem idxOf_of_index? {i : Nat} (h : b.index? key = some i) : b.keys.idxOf key = i := by
  rw [index?_eq_some_iff_findIdx?, findIdx?_eq_map, List.findIdx?_eq_some_iff_findIdx_eq] at h
  exact h.2

theorem perform_of_get? {row : Row π} {op : Row.Op π} (h : b.get? key = some row) (ho : o.for? key = some op) :
    (b.perform o).1.get? key = some (row.perform op).1 ∧
    (b.perform o).2 = (row.perform op).2.onBoard (b.keys.idxOf key) := by
  obtain ⟨-, i, hi, rfl⟩ := exists_index?_of_get? h
  cases o with
  | apply r =>
    obtain ⟨rfl, rfl⟩ : r.key = key ∧ .update r = op := by simpa [Op.for?] using ho
    constructor
    · refine (b.get?_apply r r.key).trans ?_
      rw [if_pos rfl, rowAfter, h]
      rfl
    · rw [idxOf_of_index? hi]
      exact congrArg _ (apply_of_index? hi).2
  | advance k generation step =>
    obtain ⟨rfl, rfl⟩ : k = key ∧ .advance generation step = op := by simpa [Op.for?] using ho
    obtain ⟨hp, -, hrow⟩ := advance_of_get? h generation step
    exact ⟨(hrow k).trans (if_pos rfl), congrArg _ hp⟩
  | _ => cases ho

theorem perform_of_get?_none {r : Rate π} (h : b.get? r.key = none) :
    (b.perform (.apply r)).1.get? r.key = some (.ofRate r b.curve) ∧
    (b.perform (.apply r)).2 = .applied (.added ((b.perform (.apply r)).1.keys.idxOf r.key)) := by
  have hk : r.key ∉ b.keys := fun hk => by simpa [h] using (b.get?_isSome r.key).mpr hk
  have hi : b.index? r.key = none := by
    cases hi : b.index? r.key with
    | none => rfl
    | some i =>
      rw [get?_of_index? hi] at h
      cases h
  constructor
  · refine (b.get?_apply r r.key).trans ?_
    rw [if_pos rfl, rowAfter, h]
    rfl
  · rw [keys_perform]
    simp only [Op.rate?, Option.elim_some, if_neg hk]
    rw [List.idxOf_append_of_notMem hk, List.idxOf_cons_self]
    refine (congrArg _ (apply_of_index?_none hi).2).trans ?_
    simp [keys, size]

end

/-! ## A run -/

theorem run_append (b : Board π) (past os : List (Op π)) :
    (b.run (past ++ os)).1 = ((b.run past).1.run os).1 := by
  induction past generalizing b with
  | nil => rfl
  | cons o past ih => exact ih (b.perform o).1

theorem keys_prefix_run (b : Board π) (os : List (Op π)) : b.keys <+: (b.run os).1.keys := by
  induction os generalizing b with
  | nil => exact List.prefix_rfl
  | cons o os ih => exact (b.keys_prefix_perform o).trans (ih (b.perform o).1)

theorem keys_run (b : Board π) (os : List (Op π)) (rs : List (Rate π)) (h : b.keys = (rs.map (·.key)).eraseDups) :
    (b.run os).1.keys = ((rs ++ os.filterMap Op.rate?).map (·.key)).eraseDups := by
  induction os generalizing b rs with
  | nil =>
    rw [List.filterMap_nil, List.append_nil]
    exact h
  | cons o os ih =>
    cases hr : o.rate? with
    | none =>
      rw [List.filterMap_cons_none hr]
      refine ih (b.perform o).1 rs ?_
      rw [keys_perform, hr]
      exact h
    | some r =>
      rw [List.filterMap_cons_some hr, List.append_cons]
      refine ih (b.perform o).1 (rs ++ [r]) ?_
      rw [keys_perform, hr, List.map_append, List.map_singleton, eraseDups_snoc, ← h]
      rfl

theorem updates_run (b : Board π) (os : List (Op π)) :
    (b.run os).1.updates = b.updates + (os.filterMap Op.rate?).length := by
  induction os generalizing b with
  | nil => rfl
  | cons o os ih =>
    refine (ih (b.perform o).1).trans ?_
    rw [updates_perform]
    cases hr : o.rate? with
    | none => rw [List.filterMap_cons_none hr, Option.elim_none]
    | some r =>
      rw [List.filterMap_cons_some hr, Option.elim_some, List.length_cons, Nat.add_right_comm, Nat.add_assoc]

theorem answersTo_cons_of_none {b : Board π} {key : String} {o : Op π} (ho : o.for? key = none) (os : List (Op π)) :
    b.answersTo key (o :: os) = (b.perform o).1.answersTo key os := by
  simp [answersTo, run, ho]

theorem answersTo_cons_of_some {b : Board π} {key : String} {o : Op π} {op : Row.Op π} (ho : o.for? key = some op)
    (os : List (Op π)) : b.answersTo key (o :: os) = (b.perform o).2 :: (b.perform o).1.answersTo key os := by
  simp [answersTo, run, ho]

omit [Scalar π] in
theorem mem_keys_of_get? {b : Board π} {key : String} {row : Row π} (h : b.get? key = some row) : key ∈ b.keys :=
  (b.get?_isSome key).mp (by simp [h])

theorem idxOf_perform {b : Board π} {key : String} (h : key ∈ b.keys) (o : Op π) :
    (b.perform o).1.keys.idxOf key = b.keys.idxOf key := by
  obtain ⟨later, hlater⟩ := b.keys_prefix_perform o
  rw [← hlater, List.idxOf_append_of_mem h]

theorem run_of_get? {b : Board π} {key : String} {row : Row π} (h : b.get? key = some row) (os : List (Op π)) :
    (b.run os).1.get? key = some (row.run (os.filterMap (·.for? key))).1 ∧
    b.answersTo key os = (row.run (os.filterMap (·.for? key))).2.map (·.onBoard (b.keys.idxOf key)) := by
  induction os generalizing b row with
  | nil => exact ⟨h, rfl⟩
  | cons o os ih =>
    have same := idxOf_perform (mem_keys_of_get? h) o
    cases ho : o.for? key with
    | none =>
      obtain ⟨hrow, hanswers⟩ := ih ((get?_perform_of_for?_none ho).trans h)
      rw [List.filterMap_cons_none ho, answersTo_cons_of_none ho, ← same]
      exact ⟨hrow, hanswers⟩
    | some op =>
      obtain ⟨hnext, hanswer⟩ := perform_of_get? h ho
      obtain ⟨hrow, hanswers⟩ := ih hnext
      rw [List.filterMap_cons_some ho, answersTo_cons_of_some ho, hanswer, hanswers, same]
      exact ⟨hrow, rfl⟩

theorem run_of_get?_none {b : Board π} {key : String} (h : b.get? key = none) (os : List (Op π)) :
    (b.run os).1.get? key = (Row.solo b.curve (os.filterMap (·.for? key))).1 ∧
    b.answersTo key os =
      (Row.solo b.curve (os.filterMap (·.for? key))).2.map (·.onBoard ((b.run os).1.keys.idxOf key)) := by
  induction os generalizing b with
  | nil => exact ⟨h, rfl⟩
  | cons o os ih =>
    cases ho : o.for? key with
    | none =>
      rw [List.filterMap_cons_none ho, answersTo_cons_of_none ho, ← b.curve_perform o]
      exact ih ((get?_perform_of_for?_none ho).trans h)
    | some op =>
      rw [List.filterMap_cons_some ho, answersTo_cons_of_some ho]
      cases o with
      | apply r =>
        obtain ⟨rfl, rfl⟩ : r.key = key ∧ .update r = op := by simpa [Op.for?] using ho
        obtain ⟨hnext, hanswer⟩ := perform_of_get?_none h
        obtain ⟨hrow, hanswers⟩ := run_of_get? hnext os
        obtain ⟨later, hlater⟩ := (b.perform (.apply r)).1.keys_prefix_run os
        have hplace : (b.run (.apply r :: os)).1.keys.idxOf r.key = (b.perform (.apply r)).1.keys.idxOf r.key := by
          show ((b.perform (.apply r)).1.run os).1.keys.idxOf r.key = _
          rw [← hlater, List.idxOf_append_of_mem (mem_keys_of_get? hnext)]
        rw [hplace, hanswer, hanswers]
        exact ⟨hrow, rfl⟩
      | advance k generation step =>
        obtain ⟨rfl, rfl⟩ : k = key ∧ .advance generation step = op := by simpa [Op.for?] using ho
        have hstale : b.perform (.advance k generation step) = (b, .progress .stale) := by
          simp only [perform, advance_of_get?_none h]
        obtain ⟨hrow, hanswers⟩ := ih h
        rw [run, hstale, hanswers]
        exact ⟨hrow, rfl⟩
      | _ => cases ho

omit [Scalar π] in
theorem index?_eq_some_iff {b : Board π} (h : b.keys.Nodup) {key : String} {i : Nat} :
    b.index? key = some i ↔ ∃ row, b.rows[i]? = some row ∧ row.key = key := by
  constructor
  · intro hi
    exact ⟨b.rowAt hi, getElem?_of_index? hi, key_rowAt hi⟩
  · rintro ⟨row, hrow, rfl⟩
    obtain ⟨-, j, hj, -⟩ := exists_index?_of_get? (get?_of_mem h (List.mem_of_getElem? hrow))
    obtain ⟨hi, rfl⟩ := List.getElem?_eq_some_iff.mp hrow
    have hkey : b.keys.get ⟨i, by simpa [keys] using hi⟩ = b.rows[i].key := List.getElem_map ..
    have hplace : b.keys.idxOf b.rows[i].key = i := hkey ▸ h.idxOf_getElem i _
    rw [hj, ← idxOf_of_index? hj, hplace]

/-- A new board has a row for each key that it was given, in the order in which the
keys first came, and finds it by the key. Rows stay where they are. The row of a key
is a row on its own, driven by the operations for this key, and answers as that. -/
theorem rows_of_run (curve : Curve) (os : List (Op π)) :
    let start : Board π := ofCurve curve
    let b := (start.run os).1
    b.keys = ((os.filterMap Op.rate?).map (·.key)).eraseDups ∧
    (∀ key i, b.places.lookup key = some i ↔ ∃ row, b.rows[i]? = some row ∧ row.key = key) ∧
    (∀ past, past <+: os → (start.run past).1.keys <+: b.keys) ∧
    b.updates = (os.filterMap Op.rate?).length ∧
    ∀ key, let solo := Row.solo curve (os.filterMap (·.for? key))
      b.get? key = solo.1 ∧ start.answersTo key os = solo.2.map (·.onBoard (b.keys.idxOf key)) ∧
      ∀ o, o.for? key = none → (start.run (os ++ [o])).1.get? key = b.get? key := by
  intro start b
  have hkeys : b.keys = ((os.filterMap Op.rate?).map (·.key)).eraseDups := start.keys_run os [] rfl
  refine ⟨hkeys, fun key i => index?_eq_some_iff ?_, ?_, ?_, fun key => ?_⟩
  · rw [hkeys]
    exact nodup_eraseDups _
  · rintro past ⟨later, rfl⟩
    rw [show b = ((start.run past).1.run later).1 from start.run_append past later]
    exact keys_prefix_run _ later
  · exact (start.updates_run os).trans (Nat.zero_add _)
  · obtain ⟨hrow, hanswers⟩ := run_of_get?_none (show start.get? key = none from rfl) os
    refine ⟨hrow, hanswers, fun o ho => ?_⟩
    rw [run_append]
    exact get?_perform_of_for?_none ho

end Board

end PriceBoard
