import PriceBoard.Row

/-!
# What a row does

What an update leaves of a row (`update_cases`) and what a decay step does
(`advance_cases`). Whatever else is known of rows comes from these two.
-/

namespace PriceBoard

namespace Row

/-- What is shown of a value: the new one if it differs, and the old one otherwise. -/
def shown {α : Type} [BEq α] (old new : α) : α := if old != new then new else old

theorem shown_beq {α : Type} [BEq α] {old new : α} (h : (new == new) = true) : (shown old new == new) = true := by
  unfold shown
  split
  · exact h
  · rename_i hne
    simpa [bne] using hne

theorem shown_eq {α : Type} [BEq α] [LawfulBEq α] (old new : α) : shown old new = new :=
  eq_of_beq (shown_beq BEq.rfl)

theorem Editing.changeIf_row {π α : Type} (e : Editing π) (differs : Bool) (property : Property)
    (set : Row π → α → Row π) (new : α) {old : α} (h : set e.row old = e.row) :
    (e.changeIf differs property (set · new)).row = set e.row (if differs then new else old) := by
  cases differs
  · exact h.symm
  · rfl

variable {π : Type} [Scalar π]

/-- A row that shows a rate, its highlight as it was. -/
def showing (row : Row π) (r : Rate π) : Row π :=
  { row with
    bid := shown row.bid r.bid, ask := shown row.ask r.ask, mid := shown row.mid r.mid
    spread := shown row.spread r.spread, source := shown row.source r.source
    lastUpdated := shown row.lastUpdated r.lastUpdated, isActive := shown row.isActive r.isActive }

theorem Editing.show_row (row : Row π) (r : Rate π) : (Editing.show ⟨row, []⟩ r).row = row.showing r := by
  unfold Editing.show
  extract_lets e₁ e₂ e₃ e₄ e₅ e₆
  have h₁ : e₁.row = { row with bid := shown row.bid r.bid } :=
    changeIf_row _ _ _ (fun row a => { row with bid := a }) r.bid rfl
  have h₂ : e₂.row = { e₁.row with ask := shown e₁.row.ask r.ask } :=
    changeIf_row _ _ _ (fun row a => { row with ask := a }) r.ask rfl
  have h₃ : e₃.row = { e₂.row with mid := shown e₂.row.mid r.mid } :=
    changeIf_row _ _ _ (fun row a => { row with mid := a }) r.mid rfl
  have h₄ : e₄.row = { e₃.row with spread := shown e₃.row.spread r.spread } :=
    changeIf_row _ _ _ (fun row a => { row with spread := a }) r.spread rfl
  have h₅ : e₅.row = { e₄.row with source := shown e₄.row.source r.source } :=
    changeIf_row _ _ _ (fun row a => { row with source := a }) r.source rfl
  have h₆ : e₆.row = { e₅.row with lastUpdated := shown e₅.row.lastUpdated r.lastUpdated } :=
    changeIf_row _ _ _ (fun row a => { row with lastUpdated := a }) r.lastUpdated rfl
  have h₇ : (e₆.changeIf (e₆.row.isActive != r.isActive) .isActive ({ · with isActive := r.isActive })).row =
      { e₆.row with isActive := shown e₆.row.isActive r.isActive } :=
    changeIf_row _ _ _ (fun row a => { row with isActive := a }) r.isActive rfl
  refine h₇.trans ?_
  simp only [h₆, h₅, h₄, h₃, h₂, h₁, showing]

/-! ## Updates -/

/-- A row that shows a rate and a pulse that has just begun. -/
def pulsing (row : Row π) (r : Rate π) : Row π :=
  { row.showing r with previousMid := row.mid }.startPulse (.ofMove row.mid r.mid)

theorem update_cases (row : Row π) (r : Rate π) :
    ((row.mid == 0) = true ∧
      row.update r = ⟨row.showing r, (Editing.show ⟨row, []⟩ r).notices, none⟩) ∨
    ((row.mid == 0) = false ∧
      row.update r = ⟨row.pulsing r, (Editing.show ⟨row, []⟩ r).notices ++ [⟨.highlight, row.pulsing r⟩],
        some (row.generation + 1)⟩) := by
  have hpulsing : { (Editing.show ⟨row, []⟩ r).row with previousMid := row.mid }.startPulse
      (.ofMove row.mid r.mid) = row.pulsing r := by
    rw [Editing.show_row]
    rfl
  unfold update
  dsimp only
  by_cases h : (row.mid == 0) = true
  · rw [if_pos h, Editing.show_row]
    exact .inl ⟨h, rfl⟩
  · rw [if_neg h]
    simp only [Editing.change, hpulsing]
    exact .inr ⟨Bool.eq_false_iff.mpr h, rfl⟩

theorem update_curve (row : Row π) (r : Rate π) : (row.update r).row.curve = row.curve := by
  rcases row.update_cases r with ⟨_, he⟩ | ⟨_, he⟩ <;> rw [he] <;> rfl

theorem update_pulse (row : Row π) (r : Rate π) :
    ((row.update r).pulse = none ∧ (row.update r).row.generation = row.generation ∧
      (row.update r).row.decay = row.decay) ∨
    ((row.update r).pulse = some (row.generation + 1) ∧ (row.update r).row.generation = row.generation + 1 ∧
      (row.update r).row.decay = some ⟨row.generation + 1, 0, 1⟩) := by
  rcases row.update_cases r with ⟨_, he⟩ | ⟨_, he⟩ <;> rw [he]
  · exact .inl ⟨rfl, rfl, rfl⟩
  · exact .inr ⟨rfl, rfl, rfl⟩

/-! ## Decay steps -/

/-- A row after a step of its pulse that is not the last. -/
def faded (row : Row π) (e : Decay π) (step : Nat) : Row π :=
  { row with decay := some { e with step := step }, intensity := row.curve.intensityAt e.start step }

/-- A row whose pulse has ended. -/
def dark (row : Row π) : Row π := { row with decay := none, intensity := 0 }

theorem advance_cases (row : Row π) (generation step : Nat) :
    (row.advance generation step = ⟨row, [], .stale⟩ ∧
      ∀ e, row.decay = some e → e.generation = generation → step ≤ e.step) ∨
    ∃ e, row.decay = some e ∧ e.generation = generation ∧ e.step < step ∧
      ((step < row.curve.steps ∧ row.advance generation step =
          ⟨row.faded e step, [⟨.highlight, row.faded e step⟩], .running (row.curve.intensityAt e.start step)⟩) ∨
        (row.curve.steps ≤ step ∧ row.advance generation step =
          ⟨row.dark, [⟨.highlight, row.dark⟩], .finished⟩)) := by
  unfold advance
  cases hd : row.decay with
  | none => exact .inl ⟨rfl, nofun⟩
  | some e =>
    dsimp only
    by_cases hs : e.generation ≠ generation ∨ step ≤ e.step
    · rw [if_pos hs]
      refine .inl ⟨rfl, fun d h hg => ?_⟩
      cases h
      exact hs.resolve_left fun hne => hne hg
    · rw [if_neg hs]
      obtain ⟨hg, hlt⟩ := not_or.mp hs
      refine .inr ⟨e, rfl, Classical.not_not.mp hg, Nat.lt_of_not_le hlt, ?_⟩
      by_cases hn : row.curve.steps ≤ step
      · rw [if_pos hn]
        exact .inr ⟨hn, rfl⟩
      · rw [if_neg hn]
        exact .inl ⟨Nat.lt_of_not_le hn, rfl⟩

theorem row_of_isStale {row : Row π} {generation step : Nat}
    (h : (row.advance generation step).progress.isStale = true) : (row.advance generation step).row = row := by
  rcases row.advance_cases generation step with ⟨he, _⟩ | ⟨_, _, _, _, ⟨_, he⟩ | ⟨_, he⟩⟩
  · rw [he]
  · simp [he, DecayProgress.isStale] at h
  · simp [he, DecayProgress.isStale] at h

theorem advance_last {row : Row π} {e : Decay π} (hd : row.decay = some e) (hs : e.step < row.curve.steps) :
    (row.advance e.generation row.curve.steps).row = { row with decay := none, intensity := 0 } := by
  simp [advance, hd, Nat.not_le_of_lt hs]

end Row

end PriceBoard
