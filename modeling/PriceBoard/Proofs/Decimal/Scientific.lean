import Mathlib.Algebra.Order.Field.Basic
import Mathlib.Tactic.FieldSimp
import PriceBoard.Proofs.Decimal.Nearest

/-!
# Decimals are rounded once

`Float.ofScientific` multiplies or divides two exact numbers, by tables where
both fit a double and in the unpacked form otherwise. Either way the result is
the exact decimal, rounded (`exists_ofScientific_eq`).
-/

namespace PriceBoard.Decimal

open Float.Model Float.Model.UnpackedFloat

/-- `u` comes of rounding the positive number `x`. -/
def IsRounding (u : UnpackedFloat) (x : ℚ) : Prop :=
  ∃ m e a, Represents (ExtendedMantissa.ofMantissaAndAccuracy m a) (x / 2 ^ e) ∧ e ≤ gridOf m e ∧
    u = roundWithAccuracy Format.binary64 .positive m e a

theorem IsRounding.of_covers {u : UnpackedFloat} {x : ℚ} (h : IsRounding u x) {b : Binary} (hb : b.Canonical)
    (hpos : 0 < b.m) (hx : b.Covers x) : u = (Parts.finite false b).unpacked := by
  obtain ⟨m, e, a, hrep, he, rfl⟩ := h
  rw [Parts.unpacked_pos hpos]
  exact roundWithAccuracy_of_covers hrep he hb hpos hx .positive

/-! ## Natural numbers -/

theorem log2_shiftLeft {m : Nat} (hm : m ≠ 0) (k : Nat) : (m <<< k).log2 = m.log2 + k := by
  have hlow := Nat.mul_le_mul_right (2 ^ k) (Nat.log2_self_le hm)
  have hup := Nat.mul_lt_mul_of_pos_right (Nat.lt_log2_self (n := m)) (Nat.two_pow_pos k)
  rw [← Nat.pow_add] at hlow hup
  rw [Nat.shiftLeft_eq]
  refine (Nat.log2_eq_iff (Nat.mul_ne_zero hm (Nat.two_pow_pos k).ne')).mpr ⟨hlow, ?_⟩
  rwa [show m.log2 + k + 1 = m.log2 + 1 + k by omega]

/-- A shifted mantissa stands for the same number at an exponent as much lower. -/
theorem shiftLeft_mul_zpow (m k : Nat) (e : Int) : ((m <<< k : Nat) : ℚ) * 2 ^ (e - k) = m * (2 : ℚ) ^ e := by
  rw [Nat.shiftLeft_eq, Nat.cast_mul, Nat.cast_pow, Nat.cast_ofNat, mul_assoc, ← zpow_natCast, ← two_zpow_add]
  congr 2
  omega

def Binary.ofNat (n : Nat) : Binary :=
  ⟨n <<< (52 - n.log2), n.log2 - 52, n <<< (52 - n.log2) == 2 ^ 52⟩

namespace Binary

variable {n : Nat} (hpos : 0 < n) (hlt : n < 2 ^ 53)
include hpos hlt

theorem ofNat_m : 2 ^ 52 ≤ (ofNat n).m ∧ (ofNat n).m < 2 ^ 53 := by
  have hlog : n.log2 ≤ 52 := Nat.lt_succ_iff.mp ((Nat.log2_lt hpos.ne').mpr hlt)
  have hne : n <<< (52 - n.log2) ≠ 0 := by
    rw [Nat.shiftLeft_eq]
    exact Nat.mul_ne_zero hpos.ne' (Nat.two_pow_pos _).ne'
  refine (Nat.log2_eq_iff hne).mp ?_
  rw [log2_shiftLeft hpos.ne']
  omega

theorem ofNat_canonical : (ofNat n).Canonical := by
  obtain ⟨hge, hlt'⟩ := ofNat_m hpos hlt
  have hlog : n.log2 ≤ 52 := Nat.lt_succ_iff.mp ((Nat.log2_lt hpos.ne').mpr hlt)
  refine ⟨hlt', ?_, ?_, .inl hge, ?_⟩
  · change (-1074 : Int) ≤ n.log2 - 52
    omega
  · change (n.log2 : Int) - 52 ≤ 971
    omega
  · change _ = (_ && ((n.log2 : Int) - 52 != -1074))
    rw [bne_iff_ne.mpr (by omega), Bool.and_true]
    rfl

theorem ofNat_value : ((ofNat n).m : ℚ) * 2 ^ (ofNat n).q = n := by
  have hlog : n.log2 ≤ 52 := Nat.lt_succ_iff.mp ((Nat.log2_lt hpos.ne').mpr hlt)
  change ((n <<< (52 - n.log2) : Nat) : ℚ) * 2 ^ ((n.log2 : Int) - 52) = n
  rw [Nat.shiftLeft_eq, Nat.cast_mul, Nat.cast_pow, Nat.cast_ofNat, ← zpow_natCast, mul_assoc,
    ← two_zpow_add, show ((52 - n.log2 : Nat) : Int) + ((n.log2 : Int) - 52) = 0 by omega, zpow_zero, mul_one]

end Binary

theorem Binary.covers_self (b : Binary) : b.Covers (b.m * 2 ^ b.q) := by
  have hpos := two_zpow_pos b.q
  refine ⟨?_, mul_le_mul_of_nonneg_right (by linarith) hpos.le, fun _ =>
    ⟨mul_lt_mul_of_pos_right (by linarith) hpos, mul_lt_mul_of_pos_right (by linarith) hpos⟩⟩
  refine mul_le_mul_of_nonneg_right ?_ hpos.le
  split <;> linarith

theorem isRounding_round {n : Nat} (hpos : 0 < n) (e : Int) :
    IsRounding (UnpackedFloat.round Format.binary64 .positive n e) (n * 2 ^ e) := by
  have hround : UnpackedFloat.round Format.binary64 .positive n e =
      roundWithAccuracy Format.binary64 .positive (n <<< (e - gridOf n e).toNat) (e - (e - gridOf n e).toNat)
        .exact := rfl
  have hgrid := gridOf_eq n e
  have hgrid' := gridOf_eq (n <<< (e - gridOf n e).toNat) (e - (e - gridOf n e).toNat)
  rw [log2_shiftLeft hpos.ne'] at hgrid'
  refine ⟨_, _, _, ?_, ?_, hround⟩
  · change (n : ℚ) * (2 : ℚ) ^ e / (2 : ℚ) ^ (_ : Int) = ((n <<< _ : Nat) : ℚ)
    rw [div_eq_iff (two_zpow_pos _).ne', shiftLeft_mul_zpow]
  · omega

theorem isRounding_ofNat {n : Nat} (hpos : 0 < n) : IsRounding (UnpackedFloat.ofNat Format.binary64 n) n := by
  have hround := isRounding_round hpos 0
  rw [zpow_zero, mul_one] at hround
  unfold UnpackedFloat.ofNat UnpackedFloat.ofInt UnpackedFloat.normalize
  rw [Int.compare_eq_gt.mpr (by omega)]
  exact hround

theorem split_toFloat {n : Nat} (hpos : 0 < n) (hlt : n < 2 ^ 53) :
    split n.toUInt64.toFloat = .finite false (Binary.ofNat n) := by
  have hn : n.toUInt64.toNat = n := by
    rw [Nat.toUInt64_eq, UInt64.toNat_ofNat', Nat.mod_eq_of_lt (lt_of_lt_of_le hlt (by decide))]
  have hcovers : (Binary.ofNat n).Covers n := by
    rw [← Binary.ofNat_value hpos hlt]
    exact Binary.covers_self _
  have hm : 0 < (Binary.ofNat n).m := lt_of_lt_of_le (by decide) (Binary.ofNat_m hpos hlt).1
  change split (.ofModel (.pack (UnpackedFloat.ofNat Format.binary64 n.toUInt64.toNat))) = _
  rw [hn, (isRounding_ofNat hpos).of_covers (Binary.ofNat_canonical hpos hlt) hm hcovers]
  exact split_pack (Binary.ofNat_canonical hpos hlt) false

/-! ## Powers -/

theorem zpow_eq_div {a : ℚ} (ha : a ≠ 0) (e : Int) : a ^ e = a ^ e.toNat / a ^ (-e).toNat := by
  rw [eq_div_iff (pow_ne_zero _ ha), ← zpow_natCast, ← zpow_natCast, ← zpow_add₀ ha]
  congr 1
  omega

theorem Binary.num_eq (b : Binary) : b.num = b.m * 2 ^ b.q.toNat := rfl

theorem Binary.den_eq (b : Binary) : b.den = 2 ^ (-b.q).toNat := rfl

theorem Binary.value_eq (b : Binary) : (b.m : ℚ) * 2 ^ b.q = b.num / b.den := by
  rw [zpow_eq_div (by norm_num), num_eq, den_eq]
  push_cast
  ring

/-- A normal double of the value `n`. -/
def Parts.isNat (n : Nat) : Parts → Bool
  | .finite false b => 2 ^ 52 ≤ b.m && b.num == n * b.den
  | _ => false

theorem isNat_powerOfTen :
    ∀ e : Fin Float.exactlyRepresentablePowersOfTen.size,
      (split Float.exactlyRepresentablePowersOfTen[e]).isNat (10 ^ e.val) := by
  decide

theorem Parts.exists_of_isNat {p : Parts} {n : Nat} (h : p.isNat n) :
    ∃ b, p = .finite false b ∧ 2 ^ 52 ≤ b.m ∧ (b.m : ℚ) * 2 ^ b.q = n := by
  unfold Parts.isNat at h
  split at h
  · rename_i b
    rw [Bool.and_eq_true, decide_eq_true_eq, beq_iff_eq] at h
    refine ⟨b, rfl, h.1, ?_⟩
    have hden : (b.den : ℚ) ≠ 0 := Nat.cast_ne_zero.mpr b.den_pos.ne'
    rw [b.value_eq, h.2, Nat.cast_mul, mul_div_cancel_right₀ _ hden]
  · cases h

/-! ## Products and quotients -/

section Operations

variable {m n : Nat} (hm : 0 < m) (hn : 0 < n) (e f : Int)

theorem isRounding_mul_of_le (hgrid : e + f ≤ gridOf (m * n) (e + f)) :
    IsRounding (UnpackedFloat.mul Format.binary64 (.finite .positive m e hm) (.finite .positive n f hn))
      (m * 2 ^ e * (n * 2 ^ f)) := by
  refine ⟨m * n, e + f, .exact, ?_, hgrid, rfl⟩
  change (m : ℚ) * 2 ^ e * (n * 2 ^ f) / 2 ^ (e + f) = ((m * n : Nat) : ℚ)
  rw [div_eq_iff (two_zpow_pos _).ne', two_zpow_add]
  push_cast
  ring

theorem isRounding_mul (hmn : 2 ^ 52 ≤ m * n) :
    IsRounding (UnpackedFloat.mul Format.binary64 (.finite .positive m e hm) (.finite .positive n f hn))
      (m * 2 ^ e * (n * 2 ^ f)) := by
  have hlog : 52 ≤ (m * n).log2 := (Nat.le_log2 (by omega)).mpr hmn
  have hgrid := gridOf_eq (m * n) (e + f)
  exact isRounding_mul_of_le hm hn e f (by omega)

/-- A quotient is its whole part and what is left over. -/
theorem cast_div_eq (m : Nat) {n : Nat} (hn : 0 < n) : (m : ℚ) / n = (m / n : Nat) + (m % n : Nat) / (n : ℚ) := by
  have hpos : (0 : ℚ) < n := by exact_mod_cast hn
  have : (n : ℚ) * (m / n : Nat) + (m % n : Nat) = m := by exact_mod_cast Nat.div_add_mod m n
  rw [div_eq_iff hpos.ne', add_mul, div_mul_cancel₀ _ hpos.ne']
  linarith

theorem represents_accuracyOfFraction (hn : 0 < n) :
    Represents (ExtendedMantissa.ofMantissaAndAccuracy (m / n) (accuracyOfFraction (m % n) n)) (m / n) := by
  have hpos : (0 : ℚ) < n := by exact_mod_cast hn
  have hr : m % n < n := Nat.mod_lt m hn
  rw [cast_div_eq m hn]
  generalize m / n = q
  generalize m % n = r at hr
  have hlt : (r : ℚ) / n < 1 := (div_lt_one hpos).mpr (by exact_mod_cast hr)
  unfold accuracyOfFraction
  by_cases h0 : r = 0
  · rw [if_pos h0, h0, Nat.cast_zero, zero_div, add_zero]
    rfl
  have hgt : 0 < (r : ℚ) / n := div_pos (by exact_mod_cast Nat.pos_of_ne_zero h0) hpos
  rw [if_neg h0]
  rcases Nat.lt_trichotomy (2 * r) n with h | h | h
  · have : (r : ℚ) / n < 1 / 2 := by
      rw [div_lt_div_iff₀ hpos (by norm_num)]
      have : ((2 * r : Nat) : ℚ) < n := by exact_mod_cast h
      push_cast at this
      linarith
    rw [Nat.compare_eq_lt.mpr h]
    exact ⟨lt_add_of_pos_right _ hgt, add_lt_add_right this _⟩
  · have : (r : ℚ) / n = 1 / 2 := by
      rw [div_eq_div_iff hpos.ne' (by norm_num)]
      have : ((2 * r : Nat) : ℚ) = n := by exact_mod_cast h
      push_cast at this
      linarith
    rw [Nat.compare_eq_eq.mpr h, this]
    rfl
  · have : 1 / 2 < (r : ℚ) / n := by
      rw [div_lt_div_iff₀ (by norm_num) hpos]
      have : (n : ℚ) < ((2 * r : Nat) : ℚ) := by exact_mod_cast h
      push_cast at this
      linarith
    rw [Nat.compare_eq_gt.mpr h]
    exact ⟨add_lt_add_right this _, add_lt_add_right hlt _⟩

theorem two_pow_le_shiftLeft_div {m n k : Nat} (hm : 0 < m) (hn : 0 < n) (h : n.log2 + 53 ≤ m.log2 + k) :
    2 ^ 52 ≤ m <<< k / n := by
  have hlow := Nat.log2_self_le hm.ne'
  have hup := Nat.lt_log2_self (n := n)
  rw [Nat.le_div_iff_mul_le hn, Nat.shiftLeft_eq]
  calc 2 ^ 52 * n ≤ 2 ^ 52 * 2 ^ (n.log2 + 1) := Nat.mul_le_mul_left _ hup.le
    _ = 2 ^ (n.log2 + 53) := by rw [← Nat.pow_add]; congr 1; omega
    _ ≤ 2 ^ (m.log2 + k) := Nat.pow_le_pow_right (by decide) h
    _ = 2 ^ m.log2 * 2 ^ k := Nat.pow_add _ _ _
    _ ≤ m * 2 ^ k := Nat.mul_le_mul_right _ hlow

theorem isRounding_div :
    IsRounding (UnpackedFloat.div Format.binary64 (.finite .positive m e hm) (.finite .positive n f hn))
      (m * 2 ^ e / (n * 2 ^ f)) := by
  obtain ⟨t, ht⟩ : ∃ t, min (e - f) (Format.binary64.targetExponent (totalExponent m e - totalExponent n f)) = t :=
    ⟨_, rfl⟩
  have hdiv : UnpackedFloat.div Format.binary64 (.finite .positive m e hm) (.finite .positive n f hn) =
      roundWithAccuracy Format.binary64 .positive (m <<< (e - f - t).toNat / n) t
        (accuracyOfFraction (m <<< (e - f - t).toNat % n) n) := by
    rw [← ht]
    rfl
  have htle : t ≤ e - f := ht ▸ Int.min_le_left _ _
  refine ⟨_, _, _, ?_, ?_, hdiv⟩
  · have hval : (m : ℚ) * 2 ^ e / (n * 2 ^ f) / 2 ^ t = ((m <<< (e - f - t).toNat : Nat) : ℚ) / n := by
      have h2 : (2 : ℚ) ^ (e - f - t).toNat * 2 ^ t * 2 ^ f = 2 ^ e := by
        rw [← zpow_natCast, ← two_zpow_add, ← two_zpow_add]
        congr 1
        omega
      have hn' : (n : ℚ) ≠ 0 := Nat.cast_ne_zero.mpr hn.ne'
      have ht' := (two_zpow_pos t).ne'
      have hf' := (two_zpow_pos f).ne'
      rw [Nat.shiftLeft_eq, Nat.cast_mul, Nat.cast_pow, Nat.cast_ofNat, ← h2]
      field_simp
    rw [hval]
    exact represents_accuracyOfFraction hn
  · -- enough bits were shifted in for the quotient to fill the mantissa, or the grid is the least
    have hgrid := gridOf_eq (m <<< (e - f - t).toNat / n) t
    have htarget : Format.binary64.targetExponent (totalExponent m e - totalExponent n f) =
        max ((m.log2 : Int) + e - n.log2 - f - 53) (-1074) := by
      rw [targetExponent_eq, totalExponent, totalExponent]
      omega
    by_cases hleast : t ≤ -1074
    · omega
    · have hq := two_pow_le_shiftLeft_div hm hn (k := (e - f - t).toNat) (by omega)
      have hlog : 52 ≤ (m <<< (e - f - t).toNat / n).log2 := (Nat.le_log2 (by omega)).mpr hq
      omega

end Operations

section Doubles

variable {x y : Float} {b c : Binary} (hx : split x = .finite false b) (hy : split y = .finite false c)
variable (hb : 2 ^ 52 ≤ b.m) (hc : 2 ^ 52 ≤ c.m)
include hx hy hb hc

theorem exists_mul_eq :
    ∃ u, x * y = .ofModel (.pack u) ∧ IsRounding u (b.m * 2 ^ b.q * (c.m * 2 ^ c.q)) := by
  have hbpos : 0 < b.m := by omega
  have hcpos : 0 < c.m := by omega
  refine ⟨UnpackedFloat.mul Format.binary64 x.toModel.unpack y.toModel.unpack, rfl, ?_⟩
  rw [unpack_eq, unpack_eq, hx, hy, Parts.unpacked_pos hbpos, Parts.unpacked_pos hcpos]
  exact isRounding_mul hbpos hcpos _ _ (le_trans hb (Nat.le_mul_of_pos_right _ hcpos))

theorem exists_div_eq :
    ∃ u, x / y = .ofModel (.pack u) ∧ IsRounding u (b.m * 2 ^ b.q / (c.m * 2 ^ c.q)) := by
  have hbpos : 0 < b.m := by omega
  have hcpos : 0 < c.m := by omega
  refine ⟨UnpackedFloat.div Format.binary64 x.toModel.unpack y.toModel.unpack, rfl, ?_⟩
  rw [unpack_eq, unpack_eq, hx, hy, Parts.unpacked_pos hbpos, Parts.unpacked_pos hcpos]
  exact isRounding_div hbpos hcpos _ _

end Doubles

/-! ## Scientific notation -/

theorem ten_zpow_of_nonneg {e : Int} (he : 0 ≤ e) : (10 : ℚ) ^ e = 10 ^ e.natAbs := by
  rw [← zpow_natCast]
  congr 1
  omega

theorem ten_zpow_of_neg {e : Int} (he : e < 0) : (10 : ℚ) ^ e = (10 ^ e.natAbs)⁻¹ := by
  rw [← zpow_natCast, ← zpow_neg]
  congr 1
  omega

theorem isRounding_ofScientific {m : Nat} (hm : 0 < m) {e : Int} (hlow : -(2048 + m.log2 : Int) ≤ e)
    (hup : e ≤ 2048) : IsRounding (UnpackedFloat.ofScientific Format.binary64 m e) (m * 10 ^ e) := by
  have hpow : ∀ n : Nat, 0 < 10 ^ n := fun n => Nat.pow_pos (by decide)
  unfold UnpackedFloat.ofScientific
  rw [dif_neg hm.ne', if_neg (show ¬ e > 2 ^ 11 by omega), if_neg (show ¬ e < -(2 ^ 11 + m.log2 : Int) by omega)]
  by_cases he : 0 ≤ e
  · rw [if_pos he]
    have hbig : 2 ^ 52 ≤ m <<< 53 * 10 ^ e.toNat := by
      rw [Nat.shiftLeft_eq, mul_right_comm]
      calc 2 ^ 52 ≤ 1 * 2 ^ 53 := by decide
        _ ≤ m * 10 ^ e.toNat * 2 ^ 53 := Nat.mul_le_mul_right _ (Nat.mul_pos hm (hpow _))
    have hround := isRounding_mul (by simpa [Nat.pos_iff_ne_zero] using hm.ne') (hpow e.toNat)
      (-(53 : Nat) : Int) 0 hbig
    have hval : ((m <<< 53 : Nat) : ℚ) * 2 ^ (-(53 : Nat) : Int) * ((10 ^ e.toNat : Nat) * 2 ^ (0 : Int)) =
        m * 10 ^ e := by
      rw [Nat.shiftLeft_eq, ten_zpow_of_nonneg he, zpow_neg, zpow_natCast, zpow_zero, mul_one,
        show e.toNat = e.natAbs by omega, Nat.cast_mul, Nat.cast_pow, Nat.cast_pow, Nat.cast_ofNat, Nat.cast_ofNat,
        mul_inv_cancel_right₀ (by norm_num)]
    rw [hval] at hround
    exact hround
  · rw [if_neg he]
    have hround := isRounding_div hm (hpow (-e).toNat) 0 0
    have hval : (m : ℚ) * 2 ^ (0 : Int) / ((10 ^ (-e).toNat : Nat) * 2 ^ (0 : Int)) = m * 10 ^ e := by
      rw [ten_zpow_of_neg (by omega), zpow_zero, mul_one, mul_one, show (-e).toNat = e.natAbs by omega,
        div_eq_mul_inv]
      push_cast
      rfl
    rw [hval] at hround
    exact hround

/-- Both ways to compute a decimal round it once. -/
theorem exists_ofScientific_eq {m : Nat} (hm : 0 < m) {e : Int} (hlow : -(2048 + m.log2 : Int) ≤ e)
    (hup : e ≤ 2048) :
    ∃ u, Float.ofScientific m (e < 0) e.natAbs = .ofModel (.pack u) ∧ IsRounding u (m * 10 ^ e) := by
  unfold Float.ofScientific
  by_cases hfast : m < 2 ^ 53 ∧ e.natAbs ≤ 22
  · obtain ⟨hlt, he⟩ := hfast
    rw [dif_pos ⟨hlt, he⟩]
    have hsize : e.natAbs < Float.exactlyRepresentablePowersOfTen.size := by
      change e.natAbs < 23
      omega
    obtain ⟨b, hb, hbm, hval⟩ := Parts.exists_of_isNat (isNat_powerOfTen ⟨e.natAbs, hsize⟩)
    push_cast at hval
    by_cases hneg : e < 0
    · obtain ⟨u, hu, hround⟩ := exists_div_eq (split_toFloat hm hlt) hb (Binary.ofNat_m hm hlt).1 hbm
      rw [Binary.ofNat_value hm hlt, hval, div_eq_mul_inv, ← ten_zpow_of_neg hneg] at hround
      refine ⟨u, ?_, hround⟩
      rw [decide_eq_true hneg, if_pos rfl]
      exact hu
    · obtain ⟨u, hu, hround⟩ := exists_mul_eq (split_toFloat hm hlt) hb (Binary.ofNat_m hm hlt).1 hbm
      rw [Binary.ofNat_value hm hlt, hval, ← ten_zpow_of_nonneg (by omega)] at hround
      refine ⟨u, ?_, hround⟩
      rw [decide_eq_false hneg, if_neg Bool.false_ne_true]
      exact hu
  · rw [dif_neg hfast]
    refine ⟨UnpackedFloat.ofScientific Format.binary64 m e, ?_, isRounding_ofScientific hm hlow hup⟩
    have he : (if decide (e < 0) = true then Int.negOfNat e.natAbs else Int.ofNat e.natAbs) = e := by
      by_cases hneg : e < 0
      · rw [decide_eq_true hneg, if_pos rfl, Int.negOfNat_eq, Int.ofNat_eq_natCast]
        omega
      · rw [decide_eq_false hneg, if_neg Bool.false_ne_true, Int.ofNat_eq_natCast]
        omega
    rw [he]
    rfl

end PriceBoard.Decimal
