import PriceBoard.Proofs.Row.Basic

/-!
# Runs of a row

What is done to a row is a list of operations. Each is answered, and told in notices.
At every point of a run the highlight is what the pulse makes it (`Lit.run`).
-/

namespace PriceBoard.Row

variable {π : Type} [Scalar π]

inductive Op (π : Type)
  | update (r : Rate π)
  | advance (generation step : Nat)

def Op.rate? : Op π → Option (Rate π)
  | update r => some r
  | advance _ _ => none

inductive Answer (π : Type)
  | created
  | pulse (generation : Option Nat)
  | progress (p : DecayProgress π)

def perform (row : Row π) : Op π → Row π × Answer π
  | .update r => ((row.update r).row, .pulse (row.update r).pulse)
  | .advance generation step =>
    ((row.advance generation step).row, .progress (row.advance generation step).progress)

def run (row : Row π) : List (Op π) → Row π × List (Answer π)
  | [] => (row, [])
  | o :: os =>
    let rest := (row.perform o).1.run os
    (rest.1, (row.perform o).2 :: rest.2)

def tell (row : Row π) : Op π → List (Notice π)
  | .update r => (row.update r).notices
  | .advance generation step => (row.advance generation step).notices

def told (row : Row π) : List (Op π) → List (Notice π)
  | [] => []
  | o :: os => row.tell o ++ (row.perform o).1.told os

/-! ## Highlights -/

/-- The intensity at the last step taken of a pulse that has not ended. -/
def heightAt (c : Curve) (step : Nat) : π := if step = 0 then 1 else c.intensityAt 1 step

theorem heightAt_of_pos {c : Curve} {step : Nat} (h : 0 < step) : heightAt c step = c.intensityAt (1 : π) step :=
  if_neg (Nat.ne_of_gt h)

/-- Whether the highlight of a row is what its pulse makes it. -/
structure Lit (c : Curve) (row : Row π) : Prop where
  curve : row.curve = c
  dark : row.decay = none → row.intensity = 0
  current : ∀ e, row.decay = some e → e.generation = row.generation ∧ e.start = 1 ∧ e.step < c.steps
  height : ∀ e, row.decay = some e → row.intensity = heightAt c e.step

theorem lit_ofRate (r : Rate π) (c : Curve) : (ofRate r c).Lit c where
  curve := rfl
  dark _ := rfl
  current := nofun
  height := nofun

section

variable {c : Curve} {row : Row π}

theorem Lit.update (h : row.Lit c) (r : Rate π) : (row.update r).row.Lit c := by
  rcases row.update_cases r with ⟨_, he⟩ | ⟨_, he⟩ <;> rw [he]
  · exact ⟨h.curve, h.dark, h.current, h.height⟩
  · refine ⟨h.curve, nofun, ?_, ?_⟩
    · rintro e ⟨⟩
      exact ⟨rfl, rfl, c.steps_pos⟩
    · rintro e ⟨⟩
      rfl

theorem Lit.advance (h : row.Lit c) (generation step : Nat) : (row.advance generation step).row.Lit c := by
  rcases row.advance_cases generation step with ⟨he, _⟩ | ⟨e, hd, _, hlt, ⟨hn, he⟩ | ⟨_, he⟩⟩ <;> rw [he]
  · exact h
  · obtain ⟨hg, hstart, -⟩ := h.current e hd
    have hpos : 0 < step := Nat.lt_of_le_of_lt (Nat.zero_le _) hlt
    refine ⟨h.curve, nofun, ?_, ?_⟩
    · rintro d ⟨⟩
      exact ⟨hg, hstart, h.curve ▸ hn⟩
    · rintro d ⟨⟩
      show row.curve.intensityAt e.start step = heightAt c step
      rw [heightAt_of_pos hpos, hstart, h.curve]
  · exact ⟨h.curve, fun _ => rfl, nofun, nofun⟩

/-- The last step of the pulse makes a row dark, and so does every step beyond. -/
theorem Lit.dark_advance (h : row.Lit c) {step : Nat} (hs : c.steps ≤ step) :
    (row.advance row.generation step).row.decay = none ∧ (row.advance row.generation step).row.intensity = 0 := by
  have hlit := h.advance row.generation step
  suffices hd : (row.advance row.generation step).row.decay = none from ⟨hd, hlit.dark hd⟩
  rcases row.advance_cases row.generation step with ⟨he, hstale⟩ | ⟨e, _, _, _, ⟨hn, _⟩ | ⟨_, he⟩⟩
  · rw [he]
    cases hd : row.decay with
    | none => rfl
    | some e =>
      obtain ⟨hg, -, hlt⟩ := h.current e hd
      exact absurd (Nat.le_trans hs (hstale e hd hg)) (Nat.not_le_of_lt hlt)
  · rw [h.curve] at hn
    exact absurd hs (Nat.not_le_of_lt hn)
  · rw [he]
    rfl

theorem Lit.perform (h : row.Lit c) (o : Op π) : (row.perform o).1.Lit c := by
  cases o with
  | update r => exact h.update r
  | advance generation step => exact h.advance generation step

theorem Lit.run (h : row.Lit c) (os : List (Op π)) : (row.run os).1.Lit c := by
  induction os generalizing row with
  | nil => exact h
  | cons o os ih => exact ih (h.perform o)

end

end PriceBoard.Row
