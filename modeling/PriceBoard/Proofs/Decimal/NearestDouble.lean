import Mathlib.Data.Int.Log
import Mathlib.Data.Rat.Floor
import PriceBoard.Proofs.Decimal.Scientific

/-!
# The nearest double

`nearestDouble` is the double nearest to a rational number, the even one of two, as
if no double were too large. It is monotone (`nearestDouble_monotone`) and leaves doubles
as they are (`IsDouble.nearestDouble_eq`).
-/

namespace PriceBoard.Decimal

open Float.Model Float.Model.UnpackedFloat

/-! ## Nearest natural numbers -/

theorem roundDiv_toEven (num : Nat) {den : Nat} (hden : 0 < den) :
    roundDiv num den .toEven = (ExtendedMantissa.ofMantissaAndAccuracy (num / den)
      (accuracyOfFraction (num % den) den)).roundedMantissa := by
  unfold roundDiv accuracyOfFraction
  by_cases h0 : num % den = 0
  · rw [if_pos h0, h0, Nat.mul_zero, Nat.compare_eq_lt.mpr hden]
    rfl
  · rw [if_neg h0]
    cases compare (2 * (num % den)) den with
    | lt => rfl
    | gt => rfl
    | eq =>
      change (if num / den % 2 = 0 then num / den else num / den + 1) = num / den + num / den % 2
      rcases Nat.mod_two_eq_zero_or_one (num / den) with h | h <;> rw [h] <;> rfl

theorem roundsTo_roundDiv (num : Nat) {den : Nat} (hden : 0 < den) :
    RoundsTo (roundDiv num den .toEven) (num / den) := by
  rw [roundDiv_toEven num hden]
  exact (represents_accuracyOfFraction hden).roundsTo

theorem roundsTo_natCast (n : Nat) : RoundsTo n n :=
  ⟨by linarith, by linarith, fun _ => ⟨by linarith, by linarith⟩⟩

theorem RoundsTo.le_of_le {n k : Nat} {y z : ℚ} (hn : RoundsTo n y) (hk : RoundsTo k z) (h : y ≤ z) : n ≤ k := by
  by_contra hlt
  have hstep : (k : ℚ) + 1 ≤ n := by exact_mod_cast not_le.mp hlt
  -- both numbers lie halfway between the neighbours `k` and `n`, so that they are one
  have hlow := hn.1
  have hup := hk.2.1
  obtain rfl : y = z := le_antisymm h (by linarith)
  exact hlt (hn.unique hk).le

/-! ## Grids -/

theorem IsGrid.le_of_le {x y : ℚ} {t u : Int} (ht : IsGrid x t) (hu : IsGrid y u) (h : x ≤ y) : t ≤ u := by
  rcases ht.le with hleast | hle
  · rw [hleast]
    exact hu.least
  · have := lt_of_two_zpow_lt (lt_of_le_of_lt (hle.trans h) hu.lt)
    omega

/-- A finer grid ends where a coarser one begins. -/
theorem top_le_bottom {t u : Int} (h : t < u) : (2 : ℚ) ^ 53 * 2 ^ t ≤ 2 ^ 52 * 2 ^ u :=
  calc (2 : ℚ) ^ 53 * 2 ^ t = 2 ^ 52 * 2 ^ (t + 1) := by rw [two_zpow_add]; ring
    _ ≤ 2 ^ 52 * 2 ^ u := mul_le_mul_of_nonneg_left (two_zpow_le (by omega)) (by norm_num)

theorem IsGrid.unique {x : ℚ} {t u : Int} (ht : IsGrid x t) (hu : IsGrid x u) : t = u :=
  le_antisymm (ht.le_of_le hu le_rfl) (hu.le_of_le ht le_rfl)

/-- The exponent of the grid that a number is rounded to. -/
def gridAt (x : ℚ) : Int := max (Int.log 2 x - 52) (-1074)

theorem isGrid_gridAt {x : ℚ} (hx : 0 < x) : IsGrid x (gridAt x) := by
  have hlow := Int.zpow_log_le_self (b := 2) (by decide) hx
  have hup := Int.lt_zpow_succ_log_self (b := 2) (by decide) x
  push_cast at hlow hup
  refine ⟨le_max_right _ _, lt_of_lt_of_le hup (two_zpow_le ?_), ?_⟩
  · unfold gridAt
    omega
  · by_cases hleast : gridAt x = -1074
    · exact .inl hleast
    · refine .inr (le_trans (two_zpow_le ?_) hlow)
      unfold gridAt at hleast ⊢
      omega

/-! ## Magnitudes -/

theorem magnitude_pos {m : Nat} (hm : 0 < m) (e : Int) : (0 : ℚ) < m * 2 ^ e :=
  mul_pos (by exact_mod_cast hm) (two_zpow_pos e)

theorem magnitude_nonneg (m : Nat) (e : Int) : (0 : ℚ) ≤ m * 2 ^ e :=
  mul_nonneg (Nat.cast_nonneg m) (two_zpow_pos e).le

def nearestMagnitude (x : ℚ) : ℚ :=
  roundDiv (x / 2 ^ gridAt x).num.toNat (x / 2 ^ gridAt x).den .toEven * 2 ^ gridAt x

theorem nearestMagnitude_spec {x : ℚ} (hx : 0 < x) :
    ∃ n : Nat, RoundsTo n (x / 2 ^ gridAt x) ∧ nearestMagnitude x = n * 2 ^ gridAt x := by
  refine ⟨_, ?_, rfl⟩
  have hnum := Rat.num_nonneg.mpr (div_pos hx (two_zpow_pos (gridAt x))).le
  generalize x / 2 ^ gridAt x = y at hnum ⊢
  have hround := roundsTo_roundDiv y.num.toNat y.den_pos
  rwa [show ((y.num.toNat : Nat) : ℚ) = (y.num : ℚ) by exact_mod_cast Int.toNat_of_nonneg hnum,
    Rat.num_div_den] at hround

theorem nearestMagnitude_eq {x : ℚ} {n : Nat} {t : Int} (hx : 0 < x) (ht : IsGrid x t)
    (hn : RoundsTo n (x / 2 ^ t)) : nearestMagnitude x = n * 2 ^ t := by
  obtain ⟨k, hk, he⟩ := nearestMagnitude_spec hx
  obtain rfl := ht.unique (isGrid_gridAt hx)
  rw [he, hk.unique hn]

theorem nearestMagnitude_zero : nearestMagnitude 0 = 0 := by
  unfold nearestMagnitude
  rw [zero_div]
  exact zero_mul _

theorem nearestMagnitude_nonneg (x : ℚ) : 0 ≤ nearestMagnitude x := magnitude_nonneg ..

theorem nearestMagnitude_mono {x y : ℚ} (hx : 0 ≤ x) (h : x ≤ y) : nearestMagnitude x ≤ nearestMagnitude y := by
  rcases hx.eq_or_lt with rfl | hpos
  · rw [nearestMagnitude_zero]
    exact nearestMagnitude_nonneg y
  have ht := isGrid_gridAt hpos
  have hu := isGrid_gridAt (hpos.trans_le h)
  obtain ⟨n, hn, hnx⟩ := nearestMagnitude_spec hpos
  obtain ⟨k, hk, hky⟩ := nearestMagnitude_spec (hpos.trans_le h)
  rw [hnx, hky]
  have hle := ht.le_of_le hu h
  generalize gridAt x = t at *
  generalize gridAt y = u at *
  rcases hle.eq_or_lt with rfl | hlt
  · have hnk := hn.le_of_le hk (div_le_div_of_nonneg_right h (two_zpow_pos t).le)
    exact mul_le_mul_of_nonneg_right (by exact_mod_cast hnk) (two_zpow_pos t).le
  · have hn53 : (n : ℚ) ≤ 2 ^ 53 := by exact_mod_cast hn.le_of_isGrid ht
    have hk52 : (2 : ℚ) ^ 52 ≤ k := by
      have hleast := ht.least
      exact_mod_cast (hk.ge_of_isGrid hu).resolve_right (by omega)
    calc (n : ℚ) * 2 ^ t ≤ 2 ^ 53 * 2 ^ t := mul_le_mul_of_nonneg_right hn53 (two_zpow_pos t).le
      _ ≤ 2 ^ 52 * 2 ^ u := top_le_bottom hlt
      _ ≤ k * 2 ^ u := mul_le_mul_of_nonneg_right hk52 (two_zpow_pos u).le

/-! ## Doubles -/

def IsDouble (x : ℚ) : Prop := ∃ m e : Int, m.natAbs < 2 ^ 53 ∧ -1074 ≤ e ∧ e ≤ 971 ∧ x = m * 2 ^ e

def nearestDouble (x : ℚ) : ℚ := if x < 0 then -nearestMagnitude (-x) else nearestMagnitude x

theorem nearestDouble_of_nonneg {x : ℚ} (h : 0 ≤ x) : nearestDouble x = nearestMagnitude x := if_neg (not_lt.mpr h)

@[simp]
theorem nearestDouble_zero : nearestDouble 0 = 0 := (nearestDouble_of_nonneg le_rfl).trans nearestMagnitude_zero

theorem nearestDouble_neg (x : ℚ) : nearestDouble (-x) = -nearestDouble x := by
  unfold nearestDouble
  rcases lt_trichotomy x 0 with h | rfl | h
  · rw [if_pos h, if_neg (by linarith), neg_neg]
  · simp [nearestMagnitude_zero]
  · rw [if_neg (not_lt.mpr h.le), if_pos (by linarith), neg_neg]

theorem nearestDouble_monotone : Monotone nearestDouble := by
  intro x y h
  unfold nearestDouble
  split <;> split
  · exact neg_le_neg (nearestMagnitude_mono (by linarith) (by linarith))
  · exact (neg_nonpos.mpr (nearestMagnitude_nonneg _)).trans (nearestMagnitude_nonneg _)
  · linarith
  · exact nearestMagnitude_mono (by linarith) h

theorem nearestMagnitude_natCast_mul {m : Nat} {e : Int} (hm : m < 2 ^ 53) (he : -1074 ≤ e) :
    nearestMagnitude (m * 2 ^ e) = m * 2 ^ e := by
  rcases Nat.eq_zero_or_pos m with rfl | hpos
  · rw [Nat.cast_zero, zero_mul, nearestMagnitude_zero]
  have hx := magnitude_pos hpos e
  have ht := isGrid_gridAt hx
  generalize gridAt _ = t at ht
  -- the grid is no coarser than that of `e`
  have hte : t ≤ e := by
    rcases ht.le with h | h
    · omega
    · have hlt : (m : ℚ) * 2 ^ e < 2 ^ (53 + e) := by
        rw [two_zpow_add]
        exact mul_lt_mul_of_pos_right (by exact_mod_cast hm) (two_zpow_pos e)
      have := lt_of_two_zpow_lt (lt_of_le_of_lt h hlt)
      omega
  have hsteps : (m : ℚ) * 2 ^ e = (m * 2 ^ (e - t).toNat : Nat) * 2 ^ t := by
    rw [Nat.cast_mul, Nat.cast_pow, Nat.cast_ofNat, mul_assoc, ← zpow_natCast, ← two_zpow_add]
    congr 2
    omega
  rw [hsteps] at hx ht ⊢
  refine nearestMagnitude_eq hx ht ?_
  rw [mul_div_cancel_right₀ _ (two_zpow_pos t).ne']
  exact roundsTo_natCast _

theorem IsDouble.neg {x : ℚ} (h : IsDouble x) : IsDouble (-x) := by
  obtain ⟨m, e, hm, hlow, hup, rfl⟩ := h
  exact ⟨-m, e, by rwa [Int.natAbs_neg], hlow, hup, by push_cast; ring⟩

theorem isDouble_natCast_mul {m : Nat} {e : Int} (hm : m < 2 ^ 53) (hlow : -1074 ≤ e) (hup : e ≤ 971) :
    IsDouble (m * 2 ^ e) := ⟨m, e, hm, hlow, hup, rfl⟩

theorem IsDouble.nearestDouble_eq {x : ℚ} (h : IsDouble x) : nearestDouble x = x := by
  have key : ∀ {m : Nat} {e : Int}, m < 2 ^ 53 → -1074 ≤ e → nearestDouble (m * 2 ^ e) = m * 2 ^ e := by
    intro m e hm he
    rw [nearestDouble_of_nonneg (magnitude_nonneg m e)]
    exact nearestMagnitude_natCast_mul hm he
  obtain ⟨m, e, hm, hlow, -, rfl⟩ := h
  rcases Int.natAbs_eq m with h | h
  · rw [h]
    exact key hm hlow
  · rw [h, Int.cast_neg, neg_mul, nearestDouble_neg]
    exact congrArg _ (key hm hlow)

end PriceBoard.Decimal
