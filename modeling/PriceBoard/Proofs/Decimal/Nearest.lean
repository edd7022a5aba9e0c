import PriceBoard.Proofs.Decimal.Doubles
import PriceBoard.Proofs.Decimal.Rounding

/-!
# The numbers that round to a double

A canonical magnitude covers the reals between the midpoints to its neighbours.
A covered number is rounded to the magnitude that covers it
(`roundWithAccuracy_of_covers`), also across the bottom of a binade, where the
grid below is finer.
-/

namespace PriceBoard.Decimal

open Float.Model Float.Model.UnpackedFloat

namespace Binary

/-- `x` lies between the midpoints around `b`; on one only if `b` is even. -/
def Covers (b : Binary) (x : ℚ) : Prop :=
  (b.m - if b.narrowBelow then 1 / 4 else 1 / 2) * 2 ^ b.q ≤ x ∧ x ≤ (b.m + 1 / 2) * 2 ^ b.q ∧
    (b.m % 2 = 1 → (b.m - 1 / 2) * 2 ^ b.q < x ∧ x < (b.m + 1 / 2) * 2 ^ b.q)

variable {b : Binary} {x : ℚ} {t : Int}

theorem Canonical.le_of_covers (hb : b.Canonical) (hx : b.Covers x) (ht : IsGrid x t) : t ≤ b.q := by
  rcases ht.le with h | h
  · have := hb.least
    omega
  · have hm : (b.m : ℚ) + 1 ≤ 2 ^ 53 := by exact_mod_cast hb.lt
    have hpos := two_zpow_pos b.q
    have : (2 : ℚ) ^ (t + 52) < 2 ^ (53 + b.q) := by
      calc (2 : ℚ) ^ (t + 52) ≤ x := h
        _ ≤ (b.m + 1 / 2) * 2 ^ b.q := hx.2.1
        _ < 2 ^ 53 * 2 ^ b.q := mul_lt_mul_of_pos_right (by linarith) hpos
        _ = 2 ^ (53 + b.q) := by rw [two_zpow_add]; norm_cast
    have := lt_of_two_zpow_lt this
    omega

theorem le_of_bottom_le (hx : 2 ^ 52 * 2 ^ b.q ≤ x ∨ b.q = -1074) (ht : IsGrid x t) : b.q ≤ t := by
  rcases hx with hx | hq
  · have : (2 : ℚ) ^ (52 + b.q) < 2 ^ (t + 53) := by
      calc (2 : ℚ) ^ (52 + b.q) = 2 ^ 52 * 2 ^ b.q := by rw [two_zpow_add]; norm_cast
        _ ≤ x := hx
        _ < 2 ^ (t + 53) := ht.lt
    have := lt_of_two_zpow_lt this
    omega
  · rw [hq]
    exact ht.least

theorem Canonical.bottom_le (hb : b.Canonical) (hx : b.Covers x)
    (h : b.narrowBelow = false ∨ b.m * 2 ^ b.q ≤ x) : 2 ^ 52 * 2 ^ b.q ≤ x ∨ b.q = -1074 := by
  have hpos := two_zpow_pos b.q
  by_cases hq : b.q = -1074
  · exact .inr hq
  have hm := hb.normal.resolve_right hq
  refine .inl ?_
  rcases h with h | h
  · have hne : b.m ≠ 2 ^ 52 := by
      intro heq
      have := hb.narrowBelow
      rw [h, heq, beq_self_eq_true, Bool.true_and, bne_iff_ne.mpr hq] at this
      cases this
    have hm' : ((2 ^ 52 + 1 : Nat) : ℚ) ≤ b.m := by
      have : 2 ^ 52 + 1 ≤ b.m := by omega
      exact_mod_cast this
    push_cast at hm'
    have hlow := hx.1
    rw [h, if_neg Bool.false_ne_true] at hlow
    exact le_trans (mul_le_mul_of_nonneg_right (by linarith) hpos.le) hlow
  · have hm' : ((2 ^ 52 : Nat) : ℚ) ≤ b.m := by exact_mod_cast hm
    push_cast at hm'
    exact le_trans (mul_le_mul_of_nonneg_right hm' hpos.le) h

theorem Covers.roundsTo (hx : b.Covers x) (h : b.narrowBelow = false ∨ b.m * 2 ^ b.q ≤ x) :
    RoundsTo b.m (x / 2 ^ b.q) := by
  obtain ⟨hlow, hup, hodd⟩ := hx
  have hpos := two_zpow_pos b.q
  refine ⟨(le_div_iff₀ hpos).mpr ?_, (div_le_iff₀ hpos).mpr hup, fun ho =>
    ⟨(lt_div_iff₀ hpos).mpr (hodd ho).1, (div_lt_iff₀ hpos).mpr (hodd ho).2⟩⟩
  rcases h with h | h
  · rw [h] at hlow
    exact hlow
  · refine le_trans ?_ h
    exact mul_le_mul_of_nonneg_right (by linarith) hpos.le

/-- Below the bottom of a binade a covered number lies on the next finer grid. -/
theorem Canonical.covers_below (hb : b.Canonical) (hx : b.Covers x) (ht : IsGrid x t)
    (hnarrow : b.narrowBelow = true) (hlt : x < b.m * 2 ^ b.q) :
    t = b.q - 1 ∧ b.m = 2 ^ 52 ∧ RoundsTo (2 ^ 53) (x / 2 ^ t) := by
  have hle := hb.le_of_covers hx ht
  have hpos := two_zpow_pos b.q
  have hbottom : b.m = 2 ^ 52 ∧ b.q ≠ -1074 := by
    have := hb.narrowBelow
    rw [hnarrow] at this
    simpa using this.symm
  have hm : (b.m : ℚ) = 2 ^ 52 := by exact_mod_cast hbottom.1
  have hlow := hx.1
  rw [hnarrow, if_pos rfl, hm] at hlow
  rw [hm] at hlt
  have hge : b.q - 1 ≤ t := by
    have : (2 : ℚ) ^ (51 + b.q) < 2 ^ (t + 53) := by
      calc (2 : ℚ) ^ (51 + b.q) = 2 ^ 51 * 2 ^ b.q := by rw [two_zpow_add]; norm_cast
        _ ≤ (2 ^ 52 - 1 / 4) * 2 ^ b.q := mul_le_mul_of_nonneg_right (by norm_num) hpos.le
        _ ≤ x := hlow
        _ < 2 ^ (t + 53) := ht.lt
    have := lt_of_two_zpow_lt this
    omega
  have hne : t ≠ b.q := by
    rintro rfl
    have := ht.le.resolve_left hbottom.2
    rw [add_comm, two_zpow_add] at this
    have : (2 : ℚ) ^ 52 * 2 ^ b.q ≤ x := by exact_mod_cast this
    linarith
  obtain rfl : t = b.q - 1 := by omega
  have hhalf : (2 : ℚ) ^ b.q = 2 * 2 ^ (b.q - 1) := by
    rw [show b.q = 1 + (b.q - 1) by omega, two_zpow_add, show 1 + (b.q - 1) - 1 = b.q - 1 by omega]
    norm_num
  have hfine := two_zpow_pos (b.q - 1)
  rw [hhalf] at hlow hlt
  refine ⟨rfl, hbottom.1, (le_div_iff₀ hfine).mpr ?_, (div_le_iff₀ hfine).mpr ?_, fun h => absurd h (by decide)⟩
  · push_cast
    linarith
  · push_cast
    linarith

/-- A covered number is rounded to `b`, on the grid of `b` or, just below the
bottom of its binade, on the next finer one. -/
theorem Canonical.covers_cases (hb : b.Canonical) (hx : b.Covers x) (ht : IsGrid x t) :
    (t = b.q ∧ RoundsTo b.m (x / 2 ^ t)) ∨
      (t = b.q - 1 ∧ b.m = 2 ^ 52 ∧ RoundsTo (2 ^ 53) (x / 2 ^ t)) := by
  by_cases hbelow : b.narrowBelow = true ∧ x < b.m * 2 ^ b.q
  · exact .inr (hb.covers_below hx ht hbelow.1 hbelow.2)
  · have habove : b.narrowBelow = false ∨ b.m * 2 ^ b.q ≤ x := by
      rcases Bool.eq_false_or_eq_true b.narrowBelow with h | h
      · exact .inr (not_lt.mp fun hlt => hbelow ⟨h, hlt⟩)
      · exact .inl h
    have hle := hb.le_of_covers hx ht
    have hge := le_of_bottom_le (hb.bottom_le hx habove) ht
    obtain rfl : t = b.q := by omega
    exact .inl ⟨rfl, hx.roundsTo habove⟩

end Binary

/-- What a canonical magnitude is, but that it may be too large for a double. -/
structure Binary.Normalised (b : Binary) : Prop where
  lt : b.m < 2 ^ 53
  least : -1074 ≤ b.q
  normal : 2 ^ 52 ≤ b.m ∨ b.q = -1074
  narrowBelow : b.narrowBelow = (b.m == 2 ^ 52 && b.q != -1074)

theorem Binary.Normalised.canonical {b : Binary} (hb : b.Normalised) (hmost : b.q ≤ 971) : b.Canonical :=
  ⟨hb.lt, hb.least, hmost, hb.normal, hb.narrowBelow⟩

theorem Binary.Canonical.normalised {b : Binary} (hb : b.Canonical) : b.Normalised :=
  ⟨hb.lt, hb.least, hb.normal, hb.narrowBelow⟩

section Represented

variable {m : Nat} {e : Int} {a : Accuracy} {x : ℚ}
variable (hrep : Represents (ExtendedMantissa.ofMantissaAndAccuracy m a) (x / 2 ^ e)) (he : e ≤ gridOf m e)
include hrep he

theorem roundWithAccuracy_of_covers {b : Binary} (hb : b.Canonical) (hpos : 0 < b.m) (hx : b.Covers x) (s : Sign) :
    roundWithAccuracy Format.binary64 s m e a = .finite s b.m b.q hpos := by
  have ht := isGrid_gridOf hrep he
  have hr := firstRounded_roundsTo hrep he
  rw [roundWithAccuracy_eq s a he (hr.le_of_isGrid ht)]
  rcases hb.covers_cases hx ht with ⟨hgrid, hround⟩ | ⟨hgrid, hm, hround⟩
  · have hm : firstRounded m e a = b.m := hr.unique hround
    have hlt := hb.lt
    rw [dif_neg (by omega), if_pos (by omega)]
    congr 1
  · have hm' : firstRounded m e a = 2 ^ 53 := hr.unique hround
    rw [dif_neg (by omega), if_neg (by omega)]
    congr 1
    · exact hm.symm
    · omega

theorem exists_normalised_eq :
    ∃ b : Binary, b.Normalised ∧ b.q ≤ gridOf m e + 1 ∧ (b.m : ℚ) * 2 ^ b.q = firstRounded m e a * 2 ^ gridOf m e ∧
      ∀ negative,
        roundWithAccuracy Format.binary64 (signOf negative) m e a = (Parts.finite negative b).unpacked := by
  have ht := isGrid_gridOf hrep he
  have hr := firstRounded_roundsTo hrep he
  have hle := hr.le_of_isGrid ht
  have hge := hr.ge_of_isGrid ht
  have hleast := ht.least
  have hround := fun s => roundWithAccuracy_eq s a he hle
  generalize firstRounded m e a = r at *
  generalize gridOf m e = t at *
  by_cases h0 : r = 0
  · refine ⟨⟨0, -1074, false⟩, ⟨by decide, by decide, .inr rfl, rfl⟩, ?_, ?_, fun negative => ?_⟩
    · dsimp only
      omega
    · rw [h0, Nat.cast_zero, zero_mul, zero_mul]
    · rw [hround, dif_pos h0, Parts.unpacked_zero rfl]
  by_cases h53 : r < 2 ^ 53
  · refine ⟨⟨r, t, r == 2 ^ 52 && t != -1074⟩, ⟨h53, hleast, hge, rfl⟩, ?_, rfl, fun negative => ?_⟩
    · dsimp only
      omega
    · rw [hround, dif_neg h0, if_pos h53, Parts.unpacked_pos]
  · refine ⟨⟨2 ^ 52, t + 1, true⟩, ⟨?_, ?_, .inl (le_refl _), ?_⟩, le_refl _, ?_, fun negative => ?_⟩
    · exact Nat.pow_lt_pow_right (by decide) (by decide)
    · dsimp only
      omega
    · dsimp only
      rw [beq_self_eq_true, Bool.true_and, bne_iff_ne.mpr (by omega)]
    · obtain rfl : r = 2 ^ 53 := by omega
      rw [two_zpow_add]
      push_cast
      ring
    · rw [hround, dif_neg h0, if_neg h53, Parts.unpacked_pos]

theorem exists_roundWithAccuracy_eq (hlt : gridOf m e < 971) (negative : Bool) :
    ∃ b : Binary, b.Canonical ∧
      roundWithAccuracy Format.binary64 (signOf negative) m e a = (Parts.finite negative b).unpacked := by
  obtain ⟨b, hb, hq, -, he⟩ := exists_normalised_eq hrep he
  exact ⟨b, hb.canonical (by omega), he negative⟩

end Represented

end PriceBoard.Decimal
