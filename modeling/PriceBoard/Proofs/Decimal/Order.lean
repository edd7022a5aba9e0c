import PriceBoard.Proofs.Decimal.Arithmetic
import PriceBoard.Scalar

/-!
# The order of doubles

Finite doubles compare as their values do (`compare_value`), and the nearest natural
number to a double is that to its value.
-/

namespace PriceBoard.Decimal

open Float.Model Float.Model.UnpackedFloat

/-! ## Comparison -/

section Magnitudes

variable {b c : Binary} (hb : b.Canonical) (hc : c.Canonical)
include hb hc

/-- Of two canonical magnitudes that with the larger exponent is larger. -/
theorem magnitude_lt_of_exponent_lt (h : b.q < c.q) : (b.m : ℚ) * 2 ^ b.q < c.m * 2 ^ c.q := by
  have hleast := hb.least
  have hm : (b.m : ℚ) < 2 ^ 53 := by exact_mod_cast hb.lt
  have hc52 : (2 : ℚ) ^ 52 ≤ c.m := by exact_mod_cast hc.normal.resolve_right (by omega)
  calc (b.m : ℚ) * 2 ^ b.q < 2 ^ 53 * 2 ^ b.q := mul_lt_mul_of_pos_right hm (two_zpow_pos _)
    _ ≤ 2 ^ 52 * 2 ^ c.q := top_le_bottom h
    _ ≤ c.m * 2 ^ c.q := mul_le_mul_of_nonneg_right hc52 (two_zpow_pos _).le

theorem compare_magnitude :
    (compare b.q c.q).then (compare b.m c.m) = compare ((b.m : ℚ) * 2 ^ b.q) (c.m * 2 ^ c.q) := by
  rcases Int.lt_trichotomy b.q c.q with h | h | h
  · rw [Int.compare_eq_lt.mpr h, compare_lt_iff_lt.mpr (magnitude_lt_of_exponent_lt hb hc h)]
    rfl
  · rw [Int.compare_eq_eq.mpr h, h, Ordering.eq_then]
    have hpos := two_zpow_pos c.q
    rcases Nat.lt_trichotomy b.m c.m with hm | hm | hm
    · rw [Nat.compare_eq_lt.mpr hm, eq_comm, compare_lt_iff_lt]
      exact mul_lt_mul_of_pos_right (by exact_mod_cast hm) hpos
    · rw [Nat.compare_eq_eq.mpr hm, hm, eq_comm, compare_eq_iff_eq]
    · rw [Nat.compare_eq_gt.mpr hm, eq_comm, compare_gt_iff_gt]
      exact mul_lt_mul_of_pos_right (by exact_mod_cast hm) hpos
  · rw [Int.compare_eq_gt.mpr h, compare_gt_iff_gt.mpr (magnitude_lt_of_exponent_lt hc hb h)]
    rfl

theorem compare_value (n k : Bool) : (Parts.finite n b).unpacked.compare (Parts.finite k c).unpacked =
    some (compare (Parts.finite n b).value (Parts.finite k c).value) := by
  rcases Nat.eq_zero_or_pos b.m with hb0 | hbpos <;> rcases Nat.eq_zero_or_pos c.m with hc0 | hcpos
  · rw [Parts.unpacked_zero hb0, Parts.unpacked_zero hc0, Parts.value_zero hb0, Parts.value_zero hc0,
      compare_eq_iff_eq.mpr rfl]
    rfl
  · rw [Parts.unpacked_zero hb0, Parts.unpacked_pos hcpos, Parts.value_zero hb0]
    have hpos := magnitude_pos hcpos c.q
    cases k
    · exact congrArg some (compare_lt_iff_lt.mpr hpos).symm
    · exact congrArg some (compare_gt_iff_gt.mpr (neg_lt_zero.mpr hpos)).symm
  · rw [Parts.unpacked_pos hbpos, Parts.unpacked_zero hc0, Parts.value_zero hc0]
    have hpos := magnitude_pos hbpos b.q
    cases n
    · exact congrArg some (compare_gt_iff_gt.mpr hpos).symm
    · exact congrArg some (compare_lt_iff_lt.mpr (neg_lt_zero.mpr hpos)).symm
  · rw [Parts.unpacked_pos hbpos, Parts.unpacked_pos hcpos]
    have hbv := magnitude_pos hbpos b.q
    have hcv := magnitude_pos hcpos c.q
    cases n <;> cases k
    · exact congrArg some (compare_magnitude hb hc)
    · exact congrArg some (compare_gt_iff_gt.mpr ((neg_lt_zero.mpr hcv).trans hbv)).symm
    · exact congrArg some (compare_lt_iff_lt.mpr ((neg_lt_zero.mpr hbv).trans hcv)).symm
    · -- of two negative numbers that of the larger magnitude is smaller
      have hswap : ((compare b.q c.q).then (compare b.m c.m)).swap =
          compare (-((b.m : ℚ) * 2 ^ b.q)) (-(c.m * 2 ^ c.q)) := by
        rw [compare_magnitude hb hc]
        rcases lt_trichotomy ((b.m : ℚ) * 2 ^ b.q) (c.m * 2 ^ c.q) with h | h | h
        · rw [compare_lt_iff_lt.mpr h, compare_gt_iff_gt.mpr (neg_lt_neg h)]
          rfl
        · rw [compare_eq_iff_eq.mpr h, h, compare_eq_iff_eq.mpr rfl]
          rfl
        · rw [compare_gt_iff_gt.mpr h, compare_lt_iff_lt.mpr (neg_lt_neg h)]
          rfl
      exact congrArg some hswap

end Magnitudes

section Doubles

variable {x y : Float} (hx : x.isFinite = true) (hy : y.isFinite = true)
include hx hy

theorem compare_unpack : x.toModel.unpack.compare y.toModel.unpack = some (compare (value x) (value y)) := by
  obtain ⟨n, b, hb⟩ := isFinite_iff.mp hx
  obtain ⟨k, c, hc⟩ := isFinite_iff.mp hy
  have h := compare_value (canonical_of_split hb) (canonical_of_split hc) n k
  rwa [← hb, ← hc, ← unpack_eq, ← unpack_eq] at h

theorem lt_iff_value : x < y ↔ value x < value y := by
  have hlt : x < y ↔ x.toModel.unpack.lt y.toModel.unpack = true := decide_eq_true_iff
  rw [hlt, UnpackedFloat.lt, compare_unpack hx hy, ← compare_lt_iff_lt, Option.some_beq_some, beq_iff_eq]

theorem le_iff_value : x ≤ y ↔ value x ≤ value y := by
  have hle : x ≤ y ↔ x.toModel.unpack.le y.toModel.unpack = true := decide_eq_true_iff
  rw [hle, UnpackedFloat.le, compare_unpack hx hy, Option.any_some, ← compare_le_iff_le, Ordering.isLE_iff_ne_gt]

theorem beq_iff_value : (x == y) = true ↔ value x = value y := by
  have hbeq : (x == y) = (x.toModel.unpack.compare y.toModel.unpack == some .eq) := rfl
  rw [hbeq, compare_unpack hx hy, Option.some_beq_some, beq_iff_eq]
  exact compare_eq_iff_eq

end Doubles

/-! ## The nearest natural number -/

theorem roundDiv_up (num den : Nat) :
    roundDiv num den .up = if 2 * (num % den) < den then num / den else num / den + 1 := by
  unfold roundDiv
  dsimp only
  rcases Nat.lt_trichotomy (2 * (num % den)) den with h | h | h
  · rw [Nat.compare_eq_lt.mpr h, if_pos h]
  · rw [Nat.compare_eq_eq.mpr h, if_neg h.ge.not_gt]
  · rw [Nat.compare_eq_gt.mpr h, if_neg h.not_gt]

theorem roundDiv_up_eq_floor (num : Nat) {den : Nat} (hden : 0 < den) :
    roundDiv num den .up = ⌊(num : ℚ) / den + 1 / 2⌋₊ := by
  have hpos : (0 : ℚ) < den := by exact_mod_cast hden
  have hlt : ((num % den : Nat) : ℚ) / den < 1 := (div_lt_one hpos).mpr (by exact_mod_cast Nat.mod_lt num hden)
  have hnonneg : 0 ≤ ((num % den : Nat) : ℚ) / den := div_nonneg (Nat.cast_nonneg _) hpos.le
  have hhalf : 2 * (num % den) < den ↔ ((num % den : Nat) : ℚ) / den < 1 / 2 := by
    rw [div_lt_div_iff₀ hpos (by norm_num), one_mul, mul_comm]
    exact_mod_cast Iff.rfl
  rw [cast_div_eq num hden, eq_comm, Nat.floor_eq_iff (by positivity), roundDiv_up]
  split
  · have := hhalf.mp ‹_›
    constructor <;> linarith
  · have := not_lt.mp (mt hhalf.mpr ‹_›)
    push_cast
    constructor <;> linarith

theorem nearest_eq_floor {x : Float} {top : Nat} (hx : x.isFinite = true) (hlow : 0 ≤ value x)
    (hup : value x ≤ top) :
    nearest top x = ⌊value x + 1 / 2⌋₊ := by
  obtain ⟨negative, b, hb⟩ := isFinite_iff.mp hx
  have hval : value x = withSign negative (b.num / b.den) := by rw [value, hb, Parts.value, b.value_eq]
  unfold nearest
  rw [hb]
  cases negative with
  | true =>
    -- the only negative double of a value that is not negative is negative zero
    have hnonneg : (0 : ℚ) ≤ b.num / b.den := div_nonneg (Nat.cast_nonneg _) (Nat.cast_nonneg _)
    have hzero : value x = 0 := le_antisymm (by rw [hval]; exact neg_nonpos.mpr hnonneg) hlow
    rw [hzero, eq_comm, Nat.floor_eq_zero]
    norm_num
  | false =>
    have hfloor : roundDiv b.num b.den .up = ⌊value x + 1 / 2⌋₊ := by
      rw [hval]
      exact roundDiv_up_eq_floor b.num b.den_pos
    change min top (roundDiv b.num b.den .up) = _
    rw [hfloor, min_eq_right]
    have htop : ⌊(top : ℚ) + 1 / 2⌋₊ = top := (Nat.floor_eq_iff (by positivity)).mpr ⟨by linarith, by linarith⟩
    calc ⌊value x + 1 / 2⌋₊ ≤ ⌊(top : ℚ) + 1 / 2⌋₊ := Nat.floor_le_floor (by linarith)
      _ = top := htop

/-! ## The moderate numbers -/

theorem value_halfLargest : halfLargest.isFinite = true ∧ value halfLargest = largest / 2 := by
  have hsplit : split halfLargest = .finite false ⟨2 ^ 53 - 1, 970, false⟩ := by decide +kernel
  refine ⟨isFinite_iff.mpr ⟨_, _, hsplit⟩, ?_⟩
  have htwice : (2 : ℚ) ^ (971 : Int) = 2 ^ (970 : Int) * 2 := two_zpow_add 970 1
  rw [value, hsplit, largest, htwice, ← mul_assoc, mul_div_cancel_right₀ _ two_ne_zero]
  norm_num [Parts.value, withSign]

theorem value_neg {x : Float} (hx : x.isFinite = true) : (-x).isFinite = true ∧ value (-x) = -value x := by
  obtain ⟨negative, b, hb⟩ := isFinite_iff.mp hx
  have hneg := split_neg hb
  refine ⟨isFinite_iff.mpr ⟨_, _, hneg⟩, ?_⟩
  rw [value, value, hneg, hb]
  exact (neg_withSign _ _).symm

theorem isModerate_iff {x : Float} (hx : x.isFinite = true) :
    (-halfLargest ≤ x && x ≤ halfLargest) = true ↔ |value x| ≤ largest / 2 := by
  obtain ⟨hfinite, hval⟩ := value_halfLargest
  obtain ⟨hfinite', hval'⟩ := value_neg hfinite
  rw [Bool.and_eq_true, decide_eq_true_iff, decide_eq_true_iff, le_iff_value hfinite' hx, le_iff_value hx hfinite,
    hval', hval, abs_le]

end PriceBoard.Decimal
