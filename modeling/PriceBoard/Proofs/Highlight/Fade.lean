import Mathlib.Algebra.Order.Interval.Set.Instances
import PriceBoard.Highlight.Curve
import PriceBoard.Highlight.Direction
import PriceBoard.Proofs.Scalar.Reading

/-!
# How a highlight fades

However results are rounded, less of the first intensity remains at every later step
(`remaining_antitone`), and a colour has the less alpha the lower its intensity
(`alphaAt_mono`).
-/

namespace PriceBoard

open Set (Icc)

theorem Direction.alpha_le (d : Direction) : d.colour.alpha ≤ 255 := by cases d <;> decide

namespace Reading

variable {π : Type}

/-- The part of the first intensity that remains at a step. -/
def remaining (A : Reading π) (steps step : Nat) : ℚ :=
  let progress := A.round (A.round step / A.round steps)
  let ahead := A.round (1 - progress)
  A.round (1 - A.round (1 - A.round (ahead * ahead)))

/-- The intensity at a step of a pulse that starts from `start`. -/
def level (A : Reading π) (c : Curve) (start : ℚ) (step : Nat) : ℚ :=
  if c.steps ≤ step then 0 else A.round (start * A.remaining c.steps step)

/-- The alpha of a colour at an intensity. -/
def alphaAt (A : Reading π) (alpha : Nat) (q : ℚ) : Nat := ⌊A.round (alpha * q) + 1 / 2⌋₊

variable [Scalar π] {A : Reading π} (hA : A.Lawful) {q r : ℚ} {x y : π}
include hA

/-! ## Numbers between zero and one -/

theorem Lawful.round_unit (hq : q ∈ Icc 0 1) : A.round q ∈ Icc 0 1 := ⟨hA.round_nonneg hq.1, hA.round_le_one hq.2⟩

omit hA in
theorem mul_unit (hq : q ∈ Icc (0 : ℚ) 1) (hr : r ∈ Icc (0 : ℚ) 1) : q * r ∈ Icc (0 : ℚ) 1 :=
  ⟨mul_nonneg hq.1 hr.1, mul_le_one₀ hq.2 hr.1 hr.2⟩

theorem Lawful.abs_le_limit {n : Nat} (hn : n < 2 ^ 32) (hlow : 0 ≤ q) (hup : q ≤ n) : |q| ≤ A.limit := by
  rw [abs_of_nonneg hlow]
  exact (hup.trans (by exact_mod_cast hn.le)).trans hA.limit_ge

theorem Lawful.is_one_sub (hx : A.Is x q) (hq : q ∈ Icc 0 1) : A.Is (1 - x) (A.round (1 - q)) := by
  obtain ⟨hfinite, rfl⟩ := hx
  have hone := hA.is_one
  have h := hA.sub hone.1 hfinite
  rw [hone.2] at h
  have hunit := Icc.mem_iff_one_sub_mem.mp hq
  exact h.is (hA.abs_le_limit (n := 1) (by decide) hunit.1 (by exact_mod_cast hunit.2))

theorem Lawful.is_mul (hx : A.Is x q) (hy : A.Is y r) (hq : q ∈ Icc 0 1) (hr : r ∈ Icc 0 1) :
    A.Is (x * y) (A.round (q * r)) := by
  obtain ⟨hfx, rfl⟩ := hx
  obtain ⟨hfy, rfl⟩ := hy
  have hunit := mul_unit hq hr
  exact (hA.mul hfx hfy).is (hA.abs_le_limit (n := 1) (by decide) hunit.1 (by exact_mod_cast hunit.2))

/-! ## What remains -/

section Steps

variable {steps i j : Nat} (hsteps : 0 < steps)
include hsteps

theorem Lawful.one_le_round : 1 ≤ A.round steps :=
  hA.round_one ▸ hA.round_mono (by exact_mod_cast hsteps)

theorem Lawful.progress_unit (hi : i ≤ steps) : A.round i / A.round steps ∈ Icc 0 1 := by
  have hpos := hA.one_le_round hsteps
  have hlow : 0 ≤ A.round i := hA.round_nonneg (Nat.cast_nonneg i)
  have hup : A.round i ≤ A.round steps := hA.round_mono (by exact_mod_cast hi)
  exact ⟨div_nonneg hlow (by linarith), div_le_one_of_le₀ hup (by linarith)⟩

theorem Lawful.remaining_unit (hi : i ≤ steps) : A.remaining steps i ∈ Icc 0 1 := by
  have hprogress := hA.round_unit (hA.progress_unit hsteps hi)
  have hahead := hA.round_unit (Icc.mem_iff_one_sub_mem.mp hprogress)
  have hsquare := hA.round_unit (mul_unit hahead hahead)
  exact hA.round_unit (Icc.mem_iff_one_sub_mem.mp (hA.round_unit (Icc.mem_iff_one_sub_mem.mp hsquare)))

/-- Three of the five operations turn the order round. -/
theorem Lawful.remaining_antitone (hij : i ≤ j) (hj : j ≤ steps) : A.remaining steps j ≤ A.remaining steps i := by
  have hpos := hA.one_le_round hsteps
  have hround : A.round i ≤ A.round j := hA.round_mono (by exact_mod_cast hij)
  have hprogress : A.round (A.round i / A.round steps) ≤ A.round (A.round j / A.round steps) :=
    hA.round_mono (div_le_div_of_nonneg_right hround (by linarith))
  have hahead := hA.round_mono (sub_le_sub_left hprogress 1)
  have hunit := hA.round_unit (Icc.mem_iff_one_sub_mem.mp (hA.round_unit (hA.progress_unit hsteps hj)))
  have hsquare := hA.round_mono (mul_le_mul hahead hahead hunit.1 (hunit.1.trans hahead))
  have heased := hA.round_mono (sub_le_sub_left hsquare 1)
  exact hA.round_mono (sub_le_sub_left heased 1)

omit hsteps in
theorem Lawful.remaining_zero : A.remaining steps 0 = 1 := by
  simp [remaining, hA.round_zero, hA.round_one]

end Steps

/-! ## Levels -/

section Levels

variable {c : Curve} {i j : Nat}

theorem Lawful.level_unit (hq : q ∈ Icc 0 1) : A.level c q i ∈ Icc 0 1 := by
  unfold level
  split
  · exact ⟨le_refl _, zero_le_one⟩
  · exact hA.round_unit (mul_unit hq (hA.remaining_unit c.steps_pos (by omega)))

theorem Lawful.level_antitone (hq : 0 ≤ q) (hij : i ≤ j) : A.level c q j ≤ A.level c q i := by
  unfold level
  split <;> split
  · exact le_refl _
  · have hunit := hA.remaining_unit c.steps_pos (i := i) (by omega)
    exact hA.round_nonneg (mul_nonneg hq hunit.1)
  · omega
  · exact hA.round_mono (mul_le_mul_of_nonneg_left (hA.remaining_antitone c.steps_pos hij (by omega)) hq)

theorem Lawful.level_zero (hround : A.round q = q) : A.level c q 0 = q := by
  rw [level, if_neg (Nat.not_le_of_lt c.steps_pos), hA.remaining_zero, mul_one, hround]

theorem Lawful.is_intensityAt (hc : c.steps < 2 ^ 32) (hx : A.Is x q) (hq : q ∈ Icc 0 1) (step : Nat) :
    A.Is (c.intensityAt x step) (A.level c q step) := by
  unfold Curve.intensityAt level
  split
  · exact hA.is_zero
  have hstep := hA.is_ofNat (π := π) (n := step) (by omega)
  have hsteps := hA.is_ofNat (π := π) hc
  have hpos := hA.one_le_round c.steps_pos
  have hprogress := hA.progress_unit c.steps_pos (i := step) (by omega)
  have hdiv : A.Is (Scalar.ofNat step / Scalar.ofNat c.steps : π) (A.round (A.round step / A.round c.steps)) := by
    have h := hA.div hstep.1 hsteps.1 (by rw [hsteps.2]; linarith)
    rw [hstep.2, hsteps.2] at h
    exact h.is (hA.abs_le_limit (n := 1) (by decide) hprogress.1 (by exact_mod_cast hprogress.2))
  have hunit := hA.round_unit hprogress
  have hahead := hA.round_unit (Icc.mem_iff_one_sub_mem.mp hunit)
  have hsquare := mul_unit hahead hahead
  have heased := hA.is_one_sub (hA.is_mul (hA.is_one_sub hdiv hunit) (hA.is_one_sub hdiv hunit) hahead hahead)
    (hA.round_unit hsquare)
  have hleft := hA.is_one_sub heased (hA.round_unit (Icc.mem_iff_one_sub_mem.mp (hA.round_unit hsquare)))
  exact hA.is_mul hx hleft hq (hA.remaining_unit c.steps_pos (by omega))

section Intensities

variable {start : π} (hc : c.steps < 2 ^ 32) (hstart : A.Is start q) (hq : q ∈ Icc 0 1)
include hc hstart hq

theorem Lawful.zero_le_intensityAt (i : Nat) : 0 ≤ c.intensityAt start i :=
  (hA.le_iff_le hA.is_zero (hA.is_intensityAt hc hstart hq i)).mpr (hA.level_unit hq).1

theorem Lawful.intensityAt_le_intensityAt (hij : i ≤ j) : c.intensityAt start j ≤ c.intensityAt start i :=
  (hA.le_iff_le (hA.is_intensityAt hc hstart hq j) (hA.is_intensityAt hc hstart hq i)).mpr
    (hA.level_antitone hq.1 hij)

theorem Lawful.intensityAt_zero (hround : A.round q = q) : (c.intensityAt start 0 == start) = true :=
  (hA.beq_iff_eq (hA.is_intensityAt hc hstart hq 0) hstart).mpr (hA.level_zero hround)

theorem Lawful.intensityAt_le (hround : A.round q = q) (i : Nat) : c.intensityAt start i ≤ start :=
  (hA.le_iff_le (hA.is_intensityAt hc hstart hq i) hstart).mpr
    ((hA.level_antitone hq.1 (Nat.zero_le i)).trans_eq (hA.level_zero hround))

end Intensities

end Levels

/-! ## Alpha -/

theorem Lawful.is_clampUnit (hx : A.Is x q) (hq : q ∈ Icc 0 1) : A.Is (Scalar.clampUnit x) q := by
  have hlow : ¬ x < 0 := by
    rw [hA.lt_iff_lt hx hA.is_zero]
    exact not_lt.mpr hq.1
  have hup : ¬ 1 < x := by
    rw [hA.lt_iff_lt hA.is_one hx]
    exact not_lt.mpr hq.2
  rwa [Scalar.clampUnit, if_neg hlow, if_neg hup]

theorem Lawful.alphaAt_mono (alpha : Nat) (h : q ≤ r) : A.alphaAt alpha q ≤ A.alphaAt alpha r := by
  have hround := hA.round_mono (mul_le_mul_of_nonneg_left h (Nat.cast_nonneg alpha))
  exact Nat.floor_le_floor (by linarith)

theorem Lawful.alphaAt_one {alpha : Nat} (ha : alpha ≤ 255) : A.alphaAt alpha 1 = alpha := by
  rw [alphaAt, mul_one, hA.round_natCast ha]
  exact (Nat.floor_eq_iff (by positivity)).mpr ⟨by linarith, by linarith⟩

theorem Lawful.alphaAt_zero (alpha : Nat) : A.alphaAt alpha 0 = 0 := by
  rw [alphaAt, mul_zero, hA.round_zero, zero_add, Nat.floor_eq_zero]
  norm_num

theorem Lawful.alpha_faded (colour : Colour) (ha : colour.alpha ≤ 255) (hx : A.Is x q) (hq : q ∈ Icc 0 1) :
    (colour.faded x).alpha = A.alphaAt colour.alpha q := by
  have halpha := hA.is_ofNat (π := π) (n := colour.alpha) (by omega)
  have hclamp := hA.is_clampUnit hx hq
  have hround := hA.round_natCast ha
  have hlow : 0 ≤ (colour.alpha : ℚ) * q := mul_nonneg (Nat.cast_nonneg _) hq.1
  have hup : (colour.alpha : ℚ) * q ≤ colour.alpha := mul_le_of_le_one_right (Nat.cast_nonneg _) hq.2
  have hmul : A.Is (Scalar.ofNat colour.alpha * Scalar.clampUnit x) (A.round (colour.alpha * q)) := by
    have h := hA.mul halpha.1 hclamp.1
    rw [halpha.2, hclamp.2, hround] at h
    exact h.is (hA.abs_le_limit (by omega) hlow hup)
  have htop : A.round (colour.alpha * q) ≤ (255 : Nat) :=
    (hA.round_mono hup).trans (by rw [hround]; exact_mod_cast ha)
  change Scalar.nearest 255 _ = _
  rw [hA.nearest hmul.1 (by rw [hmul.2]; exact hA.round_nonneg hlow) (by rw [hmul.2]; exact htop), hmul.2]
  rfl

end Reading

end PriceBoard
