import PriceBoard.Proofs.Decimal.Equality
import PriceBoard.Proofs.Row.Runs

/-!
# Pulses along a run

A row's rates decide its pulses: one for each rate that comes after a rate whose
mid is not zero. The generation counts them, and the earlier mid and the direction
are those of the last (`pulses_of_run`). Decay steps have no part in it.
-/

namespace PriceBoard

open Decimal (beq_iff isNaN_of_beq_zero)

/-! ## Prices that are shown -/

/-- Whether prices are equal as numbers, or both NaN. -/
def SamePrice (x y : Float) : Prop := (x == y) = true ∨ (x.isNaN = true ∧ y.isNaN = true)

namespace Row

/-- A price that is shown is the new one, but for the sign of a zero. -/
theorem shown_price (old new : Float) :
    shown old new = new ∨ ((shown old new == 0) = true ∧ (new == 0) = true) := by
  unfold shown
  split
  · exact .inl rfl
  · rename_i h
    rcases beq_iff.mp (show (old == new) = true by simpa [bne] using h) with ⟨he, -⟩ | hz
    · exact .inl he
    · exact .inr hz

theorem samePrice_shown (old new : Float) : SamePrice (shown old new) new := by
  cases hn : new.isNaN with
  | false =>
    have hself : (new == new) = true := by simpa using hn
    exact .inl (shown_beq hself)
  | true =>
    rcases shown_price old new with h | ⟨-, hz⟩
    · exact .inr ⟨(congrArg Float.isNaN h).trans hn, hn⟩
    · rw [isNaN_of_beq_zero hz] at hn
      cases hn

/-- Whether a row shows a rate, prices compared as numbers. -/
structure Displays (row : Row Float) (r : Rate Float) : Prop where
  bid : SamePrice row.bid r.bid
  ask : SamePrice row.ask r.ask
  mid : SamePrice row.mid r.mid
  spread : SamePrice row.spread r.spread
  source : row.source = r.source
  lastUpdated : row.lastUpdated = r.lastUpdated
  isActive : row.isActive = r.isActive

theorem displays_showing (row : Row Float) (r : Rate Float) : (row.showing r).Displays r where
  bid := samePrice_shown ..
  ask := samePrice_shown ..
  mid := samePrice_shown ..
  spread := samePrice_shown ..
  source := shown_eq ..
  lastUpdated := shown_eq ..
  isActive := shown_eq ..

theorem displays_update (row : Row Float) (r : Rate Float) : (row.update r).row.Displays r := by
  have h := row.displays_showing r
  rcases row.update_cases r with ⟨_, he⟩ | ⟨_, he⟩ <;> rw [he]
  · exact h
  · exact ⟨h.bid, h.ask, h.mid, h.spread, h.source, h.lastUpdated, h.isActive⟩

/-! ## Pulses of a history -/

/-- The rates of a history that start a pulse, each after the rate before it. -/
def pulses (rates : List (Rate Float)) : List (Rate Float × Rate Float) :=
  (rates.zip rates.tail).filter fun m => m.1.mid != 0

theorem zip_tail_snoc {α : Type} {as : List α} {last : α} (h : as.getLast? = some last) (a : α) :
    (as ++ [a]).zip (as ++ [a]).tail = as.zip as.tail ++ [(last, a)] := by
  induction as with
  | nil => cases h
  | cons b as ih =>
    cases as with
    | nil =>
      cases h
      rfl
    | cons c as => exact congrArg ((b, c) :: ·) (ih (by simpa using h))

theorem pulses_snoc {rates : List (Rate Float)} {last : Rate Float} (h : rates.getLast? = some last)
    (r : Rate Float) :
    pulses (rates ++ [r]) = if (last.mid == 0) = true then pulses rates else pulses rates ++ [(last, r)] := by
  rw [pulses, zip_tail_snoc h, List.filter_append]
  by_cases hz : (last.mid == 0) = true
  · rw [if_pos hz]
    simp [pulses, bne, hz]
  · rw [if_neg hz]
    simp [pulses, bne, hz]

/-! ## A run -/

/-- What a row is after a history of rates, whatever decay steps came between them. -/
structure Follows (c : Curve) (rates : List (Rate Float)) (row : Row Float) : Prop extends Lit c row where
  last : ∃ r, rates.getLast? = some r ∧ (row.mid = r.mid ∨ ((row.mid == 0) = true ∧ (r.mid == 0) = true))
  generation : row.generation = (pulses rates).length
  previousMid : row.previousMid = (pulses rates).getLast?.elim 0 fun m => m.1.mid
  direction : row.direction = (pulses rates).getLast?.elim .flat fun m => .ofMove m.1.mid m.2.mid

variable {c : Curve} {rates : List (Rate Float)} {row : Row Float}

theorem follows_ofRate (r : Rate Float) (c : Curve) : (ofRate r c).Follows c [r] where
  toLit := lit_ofRate r c
  last := ⟨r, rfl, .inl rfl⟩
  generation := rfl
  previousMid := rfl
  direction := rfl

theorem Follows.update (h : row.Follows c rates) (r : Rate Float) :
    (row.update r).row.Follows c (rates ++ [r]) := by
  obtain ⟨last, hl, hm⟩ := h.last
  have hlit := h.toLit.update r
  have hlast : (rates ++ [r]).getLast? = some r := List.getLast?_concat
  rcases row.update_cases r with ⟨hz, he⟩ | ⟨hz, he⟩ <;> rw [he] at hlit ⊢
  · have hz' : (last.mid == 0) = true := by
      rcases hm with hm | ⟨-, hm⟩
      · exact hm ▸ hz
      · exact hm
    have hp : pulses (rates ++ [r]) = pulses rates := by rw [pulses_snoc hl, if_pos hz']
    refine ⟨hlit, ⟨r, hlast, shown_price ..⟩, ?_, ?_, ?_⟩ <;> rw [hp]
    · exact h.generation
    · exact h.previousMid
    · exact h.direction
  · have hmid : row.mid = last.mid := by
      rcases hm with hm | ⟨hm, -⟩
      · exact hm
      · rw [hz] at hm
        cases hm
    have hz' : ¬ (last.mid == 0) = true := by
      rw [← hmid, hz]
      exact Bool.false_ne_true
    have hp : pulses (rates ++ [r]) = pulses rates ++ [(last, r)] := by rw [pulses_snoc hl, if_neg hz']
    refine ⟨hlit, ⟨r, hlast, shown_price ..⟩, ?_, ?_, ?_⟩ <;> rw [hp]
    · rw [List.length_append, ← h.generation]
      rfl
    · rw [List.getLast?_concat]
      exact hmid
    · rw [List.getLast?_concat]
      exact congrArg (Direction.ofMove · r.mid) hmid

theorem Follows.advance (h : row.Follows c rates) (generation step : Nat) :
    (row.advance generation step).row.Follows c rates := by
  have hlit := h.toLit.advance generation step
  rcases row.advance_cases generation step with ⟨he, _⟩ | ⟨e, _, _, _, ⟨_, he⟩ | ⟨_, he⟩⟩ <;> rw [he] at hlit ⊢
  · exact h
  · exact ⟨hlit, h.last, h.generation, h.previousMid, h.direction⟩
  · exact ⟨hlit, h.last, h.generation, h.previousMid, h.direction⟩

theorem Follows.run (h : row.Follows c rates) (os : List (Op Float)) :
    (row.run os).1.Follows c (rates ++ os.filterMap Op.rate?) := by
  induction os generalizing row rates with
  | nil =>
    rw [List.filterMap_nil, List.append_nil]
    exact h
  | cons o os ih =>
    cases o with
    | update r =>
      rw [List.filterMap_cons_some (show Op.rate? (.update r) = some r from rfl), List.append_cons]
      exact ih (h.update r)
    | advance generation step =>
      rw [List.filterMap_cons_none (show Op.rate? (.advance generation step : Op Float) = none from rfl)]
      exact ih (h.advance generation step)

/-- A row counts its pulses, one for each rate that comes after a rate with a mid other
than zero, and an update is answered with the count when it starts one. Without a pulse
the highlight is out, and a pulse that has not ended is the last, at a step before the
end of the curve, whose height is the intensity. The earlier mid and the direction stay
those of the last pulse. After an update the row shows its rate. -/
theorem pulses_of_run (first : Rate Float) (c : Curve) (os : List (Op Float)) :
    let row := ((ofRate first c).run os).1
    let rates := first :: os.filterMap Op.rate?
    row.generation = (pulses rates).length ∧
    (row.decay = none → row.intensity = 0) ∧
    (∀ e, row.decay = some e → e.generation = row.generation ∧ e.step < c.steps ∧
      row.intensity = if e.step = 0 then 1 else c.intensityAt 1 e.step) ∧
    row.previousMid = ((pulses rates).getLast?.elim 0 fun m => m.1.mid) ∧
    row.direction = ((pulses rates).getLast?.elim .flat fun m => .ofMove m.1.mid m.2.mid) ∧
    ∀ r, let u := row.update r
      u.row.generation = (pulses (rates ++ [r])).length ∧
      u.pulse = (if (row.mid == 0) = true then none else some (pulses (rates ++ [r])).length) ∧
      u.row.Displays r := by
  intro row rates
  have h : row.Follows c rates := (follows_ofRate first c).run os
  refine ⟨h.generation, h.dark, ?_, h.previousMid, h.direction, fun r => ?_⟩
  · intro e he
    obtain ⟨hg, -, hn⟩ := h.current e he
    exact ⟨hg, hn, h.height e he⟩
  · have hnext := (h.update r).generation
    refine ⟨hnext, ?_, row.displays_update r⟩
    rcases row.update_cases r with ⟨hz, he⟩ | ⟨hz, he⟩
    · rw [if_pos hz, he]
    · rw [if_neg (hz ▸ Bool.false_ne_true), ← hnext, he]
      rfl

end Row

end PriceBoard
