import Mathlib.Algebra.Order.Field.Rat
import Mathlib.Tactic.Linarith
import Mathlib.Tactic.NormNum
import Mathlib.Tactic.Ring
import PriceBoard.Decimal.Binary

/-!
# Rounding to the nearest double

Arithmetic on doubles ends in `roundWithAccuracy`, which shifts a mantissa to
the grid of its magnitude, keeping a round and a sticky bit, and then rounds.
`Represents` is what the bits say about the exact number. The result is the
number of grid steps nearest to it, an even one on a tie (`RoundsTo`).
-/

namespace PriceBoard.Decimal

open Float.Model Float.Model.UnpackedFloat

/-! ## The round and sticky bits -/

/-- What a mantissa and its bits say about the number they were cut from. -/
def Represents (em : ExtendedMantissa) (y : ℚ) : Prop :=
  match em.roundBit, em.stickyBit with
  | false, false => y = em.mantissa
  | false, true => em.mantissa < y ∧ y < em.mantissa + 1 / 2
  | true, false => y = em.mantissa + 1 / 2
  | true, true => em.mantissa + 1 / 2 < y ∧ y < em.mantissa + 1

/-- `n` is a nearest natural number to `y`, and the even one of two. -/
def RoundsTo (n : Nat) (y : ℚ) : Prop :=
  n - 1 / 2 ≤ y ∧ y ≤ n + 1 / 2 ∧ (n % 2 = 1 → n - 1 / 2 < y ∧ y < n + 1 / 2)

theorem RoundsTo.unique {n k : Nat} {y : ℚ} (hn : RoundsTo n y) (hk : RoundsTo k y) : n = k := by
  -- two distinct ones are neighbours with `y` halfway, and one of them is odd
  have key : ∀ {n k : Nat}, RoundsTo n y → RoundsTo k y → ¬ n < k := by
    intro n k hn hk hlt
    have hstep : (n : ℚ) + 1 ≤ k := by exact_mod_cast hlt
    have hup := hn.2.1
    have hlow := hk.1
    have hnext : k = n + 1 := by
      have : (k : ℚ) ≤ n + 1 := by linarith
      have : k ≤ n + 1 := by exact_mod_cast this
      omega
    rcases Nat.mod_two_eq_zero_or_one n with he | ho
    · have := (hk.2.2 (by omega)).1
      linarith
    · have := (hn.2.2 ho).2
      linarith
  rcases Nat.lt_trichotomy n k with h | h | h
  · exact absurd h (key hn hk)
  · exact h
  · exact absurd h (key hk hn)

theorem Represents.roundsTo {em : ExtendedMantissa} {y : ℚ} (h : Represents em y) :
    RoundsTo em.roundedMantissa y := by
  obtain ⟨m, round, sticky⟩ := em
  cases round <;> cases sticky
  · obtain rfl : y = m := h
    refine ⟨?_, ?_, fun _ => ⟨?_, ?_⟩⟩ <;> simp only [ExtendedMantissa.roundedMantissa,
      ExtendedMantissa.accuracy, Accuracy.roundToNearestEven] <;> linarith
  · obtain ⟨hlow, hup⟩ : (m : ℚ) < y ∧ y < m + 1 / 2 := h
    refine ⟨?_, ?_, fun _ => ⟨?_, ?_⟩⟩ <;> simp only [ExtendedMantissa.roundedMantissa,
      ExtendedMantissa.accuracy, Accuracy.roundToNearestEven] <;> linarith
  · obtain rfl : y = m + 1 / 2 := h
    rcases Nat.mod_two_eq_zero_or_one m with he | ho
    · have hr : (ExtendedMantissa.mk m true false).roundedMantissa = m := by
        simp [ExtendedMantissa.roundedMantissa, ExtendedMantissa.accuracy, Accuracy.roundToNearestEven, he]
      rw [hr]
      exact ⟨by linarith, le_refl _, fun ho => by omega⟩
    · have hr : (ExtendedMantissa.mk m true false).roundedMantissa = m + 1 := by
        simp [ExtendedMantissa.roundedMantissa, ExtendedMantissa.accuracy, Accuracy.roundToNearestEven, ho]
      rw [hr]
      refine ⟨?_, ?_, fun ho' => by omega⟩ <;> push_cast <;> linarith
  · obtain ⟨hlow, hup⟩ : (m : ℚ) + 1 / 2 < y ∧ y < m + 1 := h
    refine ⟨?_, ?_, fun _ => ⟨?_, ?_⟩⟩ <;> simp only [ExtendedMantissa.roundedMantissa,
      ExtendedMantissa.accuracy, Accuracy.roundToNearestEven] <;> push_cast <;> linarith

theorem Represents.floor {em : ExtendedMantissa} {y : ℚ} (h : Represents em y) :
    em.mantissa ≤ y ∧ y < em.mantissa + 1 := by
  obtain ⟨m, round, sticky⟩ := em
  cases round <;> cases sticky <;> simp only [Represents] at h ⊢
  · exact ⟨h.ge, by linarith⟩
  · exact ⟨h.1.le, by linarith⟩
  · exact ⟨by linarith, by linarith⟩
  · exact ⟨by linarith, h.2⟩

theorem Represents.shiftRightOne {em : ExtendedMantissa} {y : ℚ} (h : Represents em y) :
    Represents em.shiftRightOne (y / 2) := by
  obtain ⟨m, round, sticky⟩ := em
  have hm : ((m / 2 : Nat) : ℚ) = (m - (m % 2 : Nat)) / 2 := by
    have : ((m % 2 : Nat) : ℚ) + 2 * ((m / 2 : Nat) : ℚ) = m := by exact_mod_cast Nat.mod_add_div m 2
    linarith
  simp only [Represents] at h
  -- the dropped bit becomes the round bit, and the old round bit joins the sticky one
  rcases Nat.mod_two_eq_zero_or_one m with hp | hp <;> rw [hp] at hm <;> push_cast at hm
  · cases round <;> cases sticky <;>
      simp only [Represents, ExtendedMantissa.shiftRightOne, hp, hm, bne_self_eq_false, Bool.or_self,
        Bool.or_true, Bool.or_false] at h ⊢
    · linarith
    · exact ⟨by linarith, by linarith⟩
    · exact ⟨by linarith, by linarith⟩
    · exact ⟨by linarith, by linarith⟩
  · cases round <;> cases sticky <;>
      simp only [Represents, ExtendedMantissa.shiftRightOne, hp, hm, Bool.or_self, Bool.or_true,
        Bool.or_false, show ((1 : Nat) != 0) = true from rfl] at h ⊢
    · linarith
    · exact ⟨by linarith, by linarith⟩
    · exact ⟨by linarith, by linarith⟩
    · exact ⟨by linarith, by linarith⟩

theorem Represents.shiftRight {em : ExtendedMantissa} {y : ℚ} (h : Represents em y) (n : Nat) :
    Represents (em >>> n) (y / 2 ^ n) := by
  change Represents (n.repeat ExtendedMantissa.shiftRightOne em) _
  induction n with
  | zero => simpa [Nat.repeat] using h
  | succ n ih =>
    rw [pow_succ, div_mul_eq_div_div]
    exact ih.shiftRightOne

/-! ## The grid of a number -/

theorem two_zpow_pos (e : Int) : (0 : ℚ) < 2 ^ e := zpow_pos (by norm_num) e

theorem two_zpow_add (a b : Int) : (2 : ℚ) ^ (a + b) = 2 ^ a * 2 ^ b := zpow_add₀ (by norm_num) a b

theorem two_zpow_le {a b : Int} (h : a ≤ b) : (2 : ℚ) ^ a ≤ 2 ^ b := zpow_le_zpow_right₀ (by norm_num) h

theorem lt_of_two_zpow_lt {a b : Int} (h : (2 : ℚ) ^ a < 2 ^ b) : a < b :=
  (zpow_lt_zpow_iff_right₀ (by norm_num)).mp h

/-- Doubles as large as `x` are multiples of `2 ^ t`, and not of a larger power
unless `t` is the least. -/
structure IsGrid (x : ℚ) (t : Int) : Prop where
  least : -1074 ≤ t
  lt : x < 2 ^ (t + 53)
  le : t = -1074 ∨ 2 ^ (t + 52) ≤ x

theorem targetExponent_eq (e : Int) : Format.binary64.targetExponent e = max (e - 53) (-1074) := rfl

/-- The exponent a mantissa is shifted to. -/
def gridOf (m : Nat) (e : Int) : Int := Format.binary64.targetExponent (totalExponent m e)

theorem gridOf_eq (m : Nat) (e : Int) : gridOf m e = max (m.log2 + e - 52) (-1074) := by
  rw [gridOf, targetExponent_eq, totalExponent]
  omega

/-- A mantissa after its first shift and rounding. -/
def firstRounded (m : Nat) (e : Int) (a : Accuracy) : Nat :=
  (ExtendedMantissa.ofMantissaAndAccuracy m a >>> (gridOf m e - e).toNat).roundedMantissa

section Represented

variable {m : Nat} {e : Int} {a : Accuracy} {x : ℚ}
variable (hrep : Represents (ExtendedMantissa.ofMantissaAndAccuracy m a) (x / 2 ^ e)) (he : e ≤ gridOf m e)
include hrep he

theorem isGrid_gridOf : IsGrid x (gridOf m e) := by
  have hpos := two_zpow_pos e
  have hfloor : (m : ℚ) ≤ x / 2 ^ e ∧ x / 2 ^ e < m + 1 := by
    have := hrep.floor
    cases a with
    | exact => exact this
    | inexact o => cases o <;> exact this
  have hlow := (le_div_iff₀ hpos).mp hfloor.1
  have hup := (div_lt_iff₀ hpos).mp hfloor.2
  have hgrid := gridOf_eq m e
  refine ⟨by omega, ?_, ?_⟩
  · calc x < (m + 1) * 2 ^ e := hup
      _ ≤ 2 ^ ((m.log2 : Int) + 1) * 2 ^ e := by
        refine mul_le_mul_of_nonneg_right ?_ hpos.le
        exact_mod_cast Nat.lt_log2_self (n := m)
      _ = 2 ^ ((m.log2 : Int) + 1 + e) := (two_zpow_add _ _).symm
      _ ≤ 2 ^ (gridOf m e + 53) := two_zpow_le (by omega)
  · by_cases hleast : gridOf m e = -1074
    · exact .inl hleast
    · have hm : m ≠ 0 := by
        rintro rfl
        rw [Nat.log2_zero] at hgrid
        omega
      refine .inr ?_
      calc (2 : ℚ) ^ (gridOf m e + 52) = 2 ^ ((m.log2 : Int) + e) := by congr 1; omega
        _ = 2 ^ (m.log2 : Int) * 2 ^ e := two_zpow_add _ _
        _ ≤ m * 2 ^ e := by
          refine mul_le_mul_of_nonneg_right ?_ hpos.le
          exact_mod_cast Nat.log2_self_le hm
        _ ≤ x := hlow

theorem firstRounded_roundsTo : RoundsTo (firstRounded m e a) (x / 2 ^ gridOf m e) := by
  have hshift := hrep.shiftRight (gridOf m e - e).toNat
  have hpow : (2 : ℚ) ^ (gridOf m e - e).toNat = 2 ^ (gridOf m e - e) := by
    rw [← zpow_natCast, Int.toNat_of_nonneg (by omega)]
  rw [hpow, div_div, ← two_zpow_add, show e + (gridOf m e - e) = gridOf m e by omega] at hshift
  exact hshift.roundsTo

end Represented

theorem RoundsTo.le_of_isGrid {n : Nat} {x : ℚ} {t : Int} (hr : RoundsTo n (x / 2 ^ t)) (hx : IsGrid x t) :
    n ≤ 2 ^ 53 := by
  have hup : x / 2 ^ t < 2 ^ 53 := by
    rw [div_lt_iff₀ (two_zpow_pos t)]
    have := hx.lt
    rw [add_comm, two_zpow_add] at this
    exact_mod_cast this
  have hlow := hr.1
  have : (n : ℚ) < (2 ^ 53 + 1 : Nat) := by push_cast; linarith
  have : n < 2 ^ 53 + 1 := by exact_mod_cast this
  omega

theorem RoundsTo.ge_of_isGrid {n : Nat} {x : ℚ} {t : Int} (hr : RoundsTo n (x / 2 ^ t)) (hx : IsGrid x t) :
    2 ^ 52 ≤ n ∨ t = -1074 := by
  rcases hx.le with h | h
  · exact .inr h
  · have hlow : 2 ^ 52 ≤ x / 2 ^ t := by
      rw [le_div_iff₀ (two_zpow_pos t)]
      rw [add_comm, two_zpow_add] at h
      exact_mod_cast h
    have hup := hr.2.1
    have : ((2 ^ 52 : Nat) : ℚ) < (n + 1 : Nat) := by push_cast; linarith
    have : 2 ^ 52 < n + 1 := by exact_mod_cast this
    exact .inl (by omega)

/-! ## The second shift -/

theorem shiftToTargetExponent_of_lt {m : Nat} {e : Int} (hm : m < 2 ^ 53) (he : -1074 ≤ e) :
    shiftToTargetExponent Format.binary64 m e .exact = (⟨m, false, false⟩, e) := by
  have hlog : m.log2 ≤ 52 := by
    by_cases h0 : m = 0
    · rw [h0]
      decide
    · exact Nat.lt_succ_iff.mp ((Nat.log2_lt h0).mpr hm)
  have hgrid := gridOf_eq m e
  have hzero : (Format.binary64.targetExponent (totalExponent m e) - e).toNat = 0 := by
    change (gridOf m e - e).toNat = 0
    omega
  simp [shiftToTargetExponent, shiftToExponent, hzero, HShiftRight.hShiftRight, Nat.repeat,
    ExtendedMantissa.ofMantissaAndAccuracy]

theorem shiftToTargetExponent_of_eq {e : Int} (he : -1074 ≤ e) :
    shiftToTargetExponent Format.binary64 (2 ^ 53) e .exact = (⟨2 ^ 52, false, false⟩, e + 1) := by
  have hgrid := gridOf_eq (2 ^ 53) e
  rw [Nat.log2_two_pow] at hgrid
  have hone : (Format.binary64.targetExponent (totalExponent (2 ^ 53) e) - e).toNat = 1 := by
    change (gridOf (2 ^ 53) e - e).toNat = 1
    omega
  simp only [shiftToTargetExponent, shiftToExponent, hone]
  rfl

/-- Rounding up to `2 ^ 53` carries into the exponent. -/
theorem roundWithAccuracy_eq (s : Sign) {m : Nat} {e : Int} (a : Accuracy) (he : e ≤ gridOf m e)
    (hr : firstRounded m e a ≤ 2 ^ 53) :
    roundWithAccuracy Format.binary64 s m e a =
      if h : firstRounded m e a = 0 then .zero s
      else if firstRounded m e a < 2 ^ 53 then
        .finite s (firstRounded m e a) (gridOf m e) (Nat.pos_of_ne_zero h)
      else .finite s (2 ^ 52) (gridOf m e + 1) (by decide) := by
  have hleast : -1074 ≤ gridOf m e := by
    rw [gridOf_eq]
    omega
  have hexp : (shiftToTargetExponent Format.binary64 m e a).2 = gridOf m e := by
    change e + ((gridOf m e - e).toNat : Int) = gridOf m e
    omega
  have hfirst : (shiftToTargetExponent Format.binary64 m e a).1.roundedMantissa = firstRounded m e a := rfl
  unfold roundWithAccuracy
  dsimp only
  rw [hfirst, hexp]
  generalize firstRounded m e a = r at hr
  by_cases hlt : r < 2 ^ 53
  · rw [shiftToTargetExponent_of_lt hlt hleast]
    by_cases h0 : r = 0
    · rw [dif_pos h0, dif_pos h0]
    · rw [dif_neg h0, dif_neg h0, if_pos hlt]
  · obtain rfl : r = 2 ^ 53 := by omega
    rw [shiftToTargetExponent_of_eq hleast, dif_neg (show 2 ^ 52 ≠ 0 by decide), dif_neg (by decide), if_neg hlt]

end PriceBoard.Decimal
