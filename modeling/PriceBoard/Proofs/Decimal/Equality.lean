import Mathlib
import PriceBoard.Scalar

/-!
# Equality of prices

Doubles that are equal as numbers are one and the same, unless both are zero
(`beq_iff`). Every double but NaN is equal to itself, and NaN to none.
-/

namespace PriceBoard.Decimal

variable {x y : Float}

theorem beq_zero_iff : (x == 0) = true ↔ x = 0 ∨ x = -0 := by
  have hpos : (0 : Float) ≠ Float.nan := by decide +kernel
  have hneg : (-0 : Float) ≠ Float.nan := by decide +kernel
  rw [Float.beq_iff_ne_nan_and_eq]
  constructor
  · rintro ⟨-, -, h | ⟨h, -⟩ | ⟨h, -⟩⟩
    · exact .inl h
    · exact .inl h
    · exact .inr h
  · rintro (rfl | rfl)
    · exact ⟨hpos, hpos, .inl rfl⟩
    · exact ⟨hneg, hpos, .inr (.inr ⟨rfl, rfl⟩)⟩

theorem isNaN_of_beq_zero (h : (x == 0) = true) : x.isNaN = false := by
  have hx := (Float.beq_iff_ne_nan_and_eq.mp h).1
  simpa using hx

theorem beq_iff : (x == y) = true ↔ (x = y ∧ x.isNaN = false) ∨ ((x == 0) = true ∧ (y == 0) = true) := by
  rw [Float.isNaN_eq_decide_eq_nan, decide_eq_false_iff_not]
  constructor
  · intro h
    obtain ⟨hx, -, he | ⟨rfl, rfl⟩ | ⟨rfl, rfl⟩⟩ := Float.beq_iff_ne_nan_and_eq.mp h
    · exact .inl ⟨he, hx⟩
    · exact .inr ⟨beq_zero_iff.mpr (.inl rfl), beq_zero_iff.mpr (.inr rfl)⟩
    · exact .inr ⟨beq_zero_iff.mpr (.inr rfl), beq_zero_iff.mpr (.inl rfl)⟩
  · rintro (⟨rfl, hx⟩ | ⟨hx, hy⟩)
    · exact Float.beq_self_iff.mpr hx
    · exact PartialEquivBEq.trans hx (PartialEquivBEq.symm hy)

theorem bne_price_iff :
    (x != y) = true ↔ x.isNaN = true ∨ y.isNaN = true ∨ (x ≠ y ∧ ¬ ((x == 0) = true ∧ (y == 0) = true)) := by
  rw [bne, Bool.not_eq_true', ← Bool.not_eq_true, beq_iff, not_or]
  have not_zero : ∀ {z : Float}, z.isNaN = true → ¬ (z == 0) = true := by
    intro z hn hz
    rw [isNaN_of_beq_zero hz] at hn
    cases hn
  constructor
  · rintro ⟨hne, hz⟩
    by_cases hx : x.isNaN = true
    · exact .inl hx
    · refine .inr (.inr ⟨fun he => hne ⟨he, ?_⟩, hz⟩)
      exact Bool.eq_false_iff.mpr hx
  · rintro (hx | hy | ⟨hne, hz⟩)
    · refine ⟨fun h => ?_, fun h => not_zero hx h.1⟩
      rw [h.2] at hx
      cases hx
    · refine ⟨fun h => ?_, fun h => not_zero hy h.2⟩
      rw [← h.1, h.2] at hy
      cases hy
    · exact ⟨fun h => hne h.1, hz⟩

end PriceBoard.Decimal
