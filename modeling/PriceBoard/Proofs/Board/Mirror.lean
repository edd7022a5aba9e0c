import PriceBoard.Proofs.Board.Product

/-!
# A mirror of the board

Whoever copies a row, or the status line, when a change tells of it always has what the
board shows (`mirror_of_run`): no change is missing, and each makes sense when it comes.
-/

namespace PriceBoard

structure Mirror (π : Type) where
  rows : List (Row π)
  status : String

variable {π : Type} {b : Board π} {m m' : Mirror π} {i : Nat}

def Board.mirror (b : Board π) : Mirror π := ⟨b.rows, b.status⟩

namespace Mirror

def recopy (b : Board π) (m : Mirror π) (i : Nat) : Mirror π :=
  { m with rows := b.rows[i]?.elim m.rows (m.rows.set i) }

/-- The mirror after a change, with what is copied taken from the board. -/
def heed (b : Board π) (m : Mirror π) : Change → Mirror π
  | .rowAdded i _ => { m with rows := m.rows ++ b.rows[i]?.toList }
  | .rowUpdated i _ | .pulseStarted i _ | .highlightChanged i => m.recopy b i
  | .ageRefreshed _ => m
  | .statusText => { m with status := b.status }

/-- Whether a change makes sense to a mirror: a row is added at the end, any other change
is of a row that the mirror has, and keys and directions are the row's. -/
def Fits (b : Board π) (m : Mirror π) : Change → Prop
  | .rowAdded i key => i = m.rows.length ∧ (b.rows[i]?).map (·.key) = some key
  | .rowUpdated i key => i < m.rows.length ∧ (b.rows[i]?).map (·.key) = some key
  | .pulseStarted i direction => i < m.rows.length ∧ (b.rows[i]?).map (·.direction) = some direction
  | .highlightChanged i | .ageRefreshed i => i < m.rows.length
  | .statusText => True

/-- From one mirror to another by changes that all fit when they come. -/
inductive Heeds (b : Board π) : Mirror π → List Change → Mirror π → Prop
  | nil (m : Mirror π) : Heeds b m [] m
  | cons {m m' : Mirror π} {change : Change} {changes : List Change} (fits : m.Fits b change)
      (rest : Heeds b (m.heed b change) changes m') : Heeds b m (change :: changes) m'

theorem Heeds.append {mid : Mirror π} {changes later : List Change} (h : Heeds b m changes mid)
    (hl : Heeds b mid later m') : Heeds b m (changes ++ later) m' := by
  induction h with
  | nil m => exact hl
  | cons fits _ ih => exact .cons fits (ih hl)

theorem Heeds.foldl_eq {changes : List Change} (h : Heeds b m changes m') : changes.foldl (heed b) m = m' := by
  induction h with
  | nil m => rfl
  | cons _ _ ih => exact ih

theorem heeds_one {change : Change} (fits : m.Fits b change) (h : m.heed b change = m') : Heeds b m [change] m' :=
  .cons fits (h ▸ .nil _)

theorem heeds_ages {is : List Nat} (h : ∀ i ∈ is, i < m.rows.length) : Heeds b m (is.map .ageRefreshed) m := by
  induction is with
  | nil => exact .nil m
  | cons i is ih =>
    simp only [List.mem_cons, forall_eq_or_imp] at h
    exact .cons h.1 (ih h.2)

theorem heeds_ageChanges (b : Board π) : Heeds b b.mirror b.ageChanges b.mirror := by
  apply heeds_ages
  intro i hi
  exact List.mem_range.mp hi

theorem recopy_of_set {row : Row π} (hi : i < m.rows.length) (h : b.rows = m.rows.set i row) :
    m.recopy b i = ⟨b.rows, m.status⟩ := by
  simp [recopy, h, hi]

theorem recopy_mirror (b : Board π) (i : Nat) : b.mirror.recopy b i = b.mirror := by
  unfold recopy
  cases h : b.rows[i]? with
  | none => rfl
  | some row =>
    obtain ⟨hi, rfl⟩ := List.getElem?_eq_some_iff.mp h
    simp [Board.mirror]

theorem heeds_rowAdded {row : Row π} (h : b.rows = m.rows ++ [row]) (hs : b.status = m.status) :
    Heeds b m [.rowAdded m.rows.length row.key] b.mirror := by
  apply heeds_one
  · simp [Fits, h]
  · simp [heed, Board.mirror, h, hs]

theorem heeds_rowUpdated {row : Row π} (hi : i < m.rows.length) (h : b.rows = m.rows.set i row)
    (hs : b.status = m.status) : Heeds b m [.rowUpdated i row.key] b.mirror := by
  apply heeds_one
  · simp [Fits, h, hi]
  · rw [heed, recopy_of_set hi h, ← hs]
    rfl

theorem heeds_highlightChanged {row : Row π} (hi : i < m.rows.length) (h : b.rows = m.rows.set i row)
    (hs : b.status = m.status) : Heeds b m [.highlightChanged i] b.mirror := by
  apply heeds_one
  · exact hi
  · rw [heed, recopy_of_set hi h, ← hs]
    rfl

theorem heeds_pulseStarted {row : Row π} (h : b.rows[i]? = some row) :
    Heeds b b.mirror [.pulseStarted i row.direction] b.mirror := by
  apply heeds_one
  · exact ⟨(List.getElem?_eq_some_iff.mp h).1, congrArg (Option.map (·.direction)) h⟩
  · exact recopy_mirror b i

end Mirror

/-! ## Operations -/

namespace Board

open Mirror

variable [Scalar π]

def tell (b : Board π) : Op π → List Change
  | .apply r => (b.apply r).changes
  | .advance key generation step => (b.advance key generation step).changes
  | .refresh clock => (b.refresh clock).2
  | .setStatus text => (b.setStatus text).2

theorem heeds_apply (b : Board π) (r : Rate π) :
    Heeds (b.apply r).board b.mirror (b.apply r).changes (b.apply r).board.mirror := by
  cases h : b.index? r.key with
  | none =>
    rw [apply_eq_of_index?_none h]
    extract_lets _ after
    have hadded : Heeds after b.mirror [.rowAdded b.size (Row.ofRate r b.curve).key] after.mirror :=
      heeds_rowAdded rfl rfl
    exact hadded.append (heeds_ageChanges after)
  | some i =>
    rw [apply_eq_of_index? h]
    extract_lets u _ after
    have hi : i < b.rows.length := lt_size h
    have hkey : u.row.key = r.key := (Row.key_update ..).trans (key_rowAt h)
    have hupdated : Heeds after b.mirror [.rowUpdated i u.row.key] after.mirror := heeds_rowUpdated hi rfl rfl
    have hpulse : Heeds after after.mirror (if u.pulse.isSome then [.pulseStarted i u.row.direction] else [])
        after.mirror := by
      split
      · exact heeds_pulseStarted (List.getElem?_set_self hi)
      · exact .nil _
    rw [hkey] at hupdated
    exact (hupdated.append hpulse).append (heeds_ageChanges after)

theorem heeds_advance (b : Board π) (key : String) (generation step : Nat) :
    Heeds (b.advance key generation step).board b.mirror (b.advance key generation step).changes
      (b.advance key generation step).board.mirror := by
  cases h : b.index? key with
  | none =>
    rw [advance_of_index?_none h]
    exact .nil _
  | some i =>
    rw [advance_of_index? h]
    extract_lets a
    have hi : i < b.rows.length := lt_size h
    dsimp only
    split
    · rename_i hs
      -- nothing is told of a stale step, so it must have left the row as it was
      have hset : b.rows.set i a.row = b.rows := by
        rw [Row.row_of_isStale hs]
        exact List.set_getElem_self hi
      rw [show (b.setRow h a.row ((Row.key_advance ..).trans (key_rowAt h))).mirror = b.mirror from
        congrArg (Mirror.mk · b.status) hset]
      exact .nil _
    · exact heeds_highlightChanged hi rfl rfl

omit [Scalar π] in
theorem heeds_setStatus (b : Board π) (text : String) :
    Heeds (b.setStatus text).1 b.mirror (b.setStatus text).2 (b.setStatus text).1.mirror := by
  unfold setStatus
  split
  · exact .nil _
  · exact heeds_one trivial rfl

theorem heeds_tell (b : Board π) (o : Op π) : Heeds (b.perform o).1 b.mirror (b.tell o) (b.perform o).1.mirror := by
  cases o with
  | apply r => exact b.heeds_apply r
  | advance key generation step => exact b.heeds_advance key generation step
  | refresh clock => exact .cons trivial (heeds_ageChanges (b.refresh clock).1)
  | setStatus text => exact b.heeds_setStatus text

end Board

/-! ## Runs -/

namespace Mirror

variable [Scalar π]

/-- The mirror after a run, with the changes of each operation heeded when it is done. -/
def follow (b : Board π) (m : Mirror π) : List (Board.Op π) → Mirror π
  | [] => m
  | o :: os => follow (b.perform o).1 ((b.tell o).foldl (heed (b.perform o).1) m) os

theorem follow_mirror (b : Board π) (os : List (Board.Op π)) : follow b b.mirror os = (b.run os).1.mirror := by
  induction os generalizing b with
  | nil => rfl
  | cons o os ih =>
    rw [follow, (b.heeds_tell o).foldl_eq]
    exact ih (b.perform o).1

end Mirror

namespace Board

variable [Scalar π]

theorem changes_apply (b : Board π) (r : Rate π) :
    ((b.apply r).outcome = .added b.size ∧
      (b.apply r).changes = .rowAdded b.size r.key :: (b.apply r).board.ageChanges) ∨
    ∃ i pulse row, (b.apply r).outcome = .updated i pulse ∧ (b.apply r).board.rows[i]? = some row ∧
      (b.apply r).changes = .rowUpdated i r.key ::
        (if pulse.isSome then [.pulseStarted i row.direction] else []) ++ (b.apply r).board.ageChanges := by
  cases h : b.index? r.key with
  | none =>
    rw [apply_eq_of_index?_none h]
    exact .inl ⟨rfl, rfl⟩
  | some i =>
    rw [apply_eq_of_index? h]
    exact .inr ⟨i, _, _, rfl, List.getElem?_set_self (lt_size h), rfl⟩

theorem changes_advance (b : Board π) (key : String) (generation step : Nat) :
    if (b.advance key generation step).progress.isStale then (b.advance key generation step).changes = []
    else ∃ i, b.index? key = some i ∧ (b.advance key generation step).changes = [.highlightChanged i] := by
  cases h : b.index? key with
  | none =>
    rw [advance_of_index?_none h]
    rfl
  | some i =>
    rw [advance_of_index? h]
    extract_lets a
    dsimp only
    split
    · rfl
    · exact ⟨i, rfl, rfl⟩

/-- A mirror that heeds every change, of a board that was empty at first, has the rows and
the status line of the board after every operation, and each change of the next one fits
when it comes. What is told of a rate and of a decay step is just what they do. -/
theorem mirror_of_run (c : Curve) (os : List (Op π)) :
    let start : Board π := ofCurve c
    let b := (start.run os).1
    let m := Mirror.follow start start.mirror os
    m = b.mirror ∧
    (∀ o, Mirror.Heeds (b.perform o).1 m (b.tell o) (b.perform o).1.mirror) ∧
    (∀ r, let a := b.apply r
      (a.outcome = .added b.size ∧ a.changes = .rowAdded b.size r.key :: a.board.ageChanges) ∨
      ∃ i pulse row, a.outcome = .updated i pulse ∧ a.board.rows[i]? = some row ∧
        a.changes = .rowUpdated i r.key ::
          (if pulse.isSome then [.pulseStarted i row.direction] else []) ++ a.board.ageChanges) ∧
    ∀ key generation step, let a := b.advance key generation step
      if a.progress.isStale then a.changes = []
      else ∃ i, b.index? key = some i ∧ a.changes = [.highlightChanged i] := by
  intro start b m
  have hm : m = b.mirror := Mirror.follow_mirror start os
  refine ⟨hm, fun o => ?_, b.changes_apply, b.changes_advance⟩
  rw [hm]
  exact b.heeds_tell o

end Board

end PriceBoard
