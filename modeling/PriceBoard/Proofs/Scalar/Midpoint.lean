import PriceBoard.Proofs.Scalar.Reading

/-!
# Midpoints of doubles

The midpoint of two doubles is rounded up to three times and never overflows
(`OfDoubles.is_midpoint`). It lies between them all the same (`OfDoubles.middle_between`):
twice a moderate number is a double, and so is half of a number, unless it is tiny and then
the other one is far away.
-/

namespace PriceBoard

namespace Decimal

variable {x : ℚ}

theorem abs_intCast (m : Int) : |(m : ℚ)| = (m.natAbs : Nat) := by rw [Nat.cast_natAbs, Int.cast_abs]

theorem IsDouble.abs_le (h : IsDouble x) : |x| ≤ largest := by
  obtain ⟨m, e, hm, -, hup, rfl⟩ := h
  have hle : (m.natAbs : ℚ) ≤ (2 ^ 53 - 1 : Nat) := by exact_mod_cast Nat.le_sub_one_of_lt hm
  rw [abs_mul, abs_of_pos (two_zpow_pos e), abs_intCast]
  exact mul_le_mul (hle.trans (by norm_num)) (two_zpow_le hup) (two_zpow_pos e).le (by norm_num)

/-- The least of the doubles whose mantissa is full. -/
def leastNormal : ℚ := 2 ^ (-1022 : Int)

theorem leastNormal_pos : 0 < leastNormal := two_zpow_pos _

theorem isDouble_leastNormal : IsDouble leastNormal :=
  ⟨1, -1022, by decide, by decide, by decide, by rw [Int.cast_one, one_mul, leastNormal]⟩

theorem leastNormal_le_largest : 16 * leastNormal ≤ largest := by
  have hone : leastNormal ≤ 1 := zpow_le_one_of_nonpos₀ (by norm_num) (by decide)
  exact le_largest (by linarith)

/-- A smaller number may lose its last bit when it is halved. -/
theorem IsDouble.half (h : IsDouble x) (hx : 2 * leastNormal ≤ |x|) : IsDouble (x / 2) := by
  obtain ⟨m, e, hm, hlow, hup, rfl⟩ := h
  have he : -1074 < e := by
    rw [abs_mul, abs_of_pos (two_zpow_pos e), abs_intCast] at hx
    have hlt : (2 : ℚ) ^ ((1 : Int) + -1022) < 2 ^ (53 + e) := by
      rw [two_zpow_add, two_zpow_add]
      exact lt_of_le_of_lt hx (mul_lt_mul_of_pos_right (by exact_mod_cast hm) (two_zpow_pos e))
    have := lt_of_two_zpow_lt hlt
    omega
  refine ⟨m, e - 1, hm, by omega, by omega, ?_⟩
  rw [zpow_sub₀ two_ne_zero, zpow_one, mul_div_assoc]

theorem IsDouble.double (h : IsDouble x) (hx : |x| ≤ largest / 2) : IsDouble (2 * x) := by
  obtain ⟨m, e, hm, hlow, hup, rfl⟩ := h
  rcases hup.lt_or_eq with hlt | rfl
  · refine ⟨m, e + 1, hm, by omega, by omega, ?_⟩
    rw [zpow_add_one₀ two_ne_zero]
    ring
  · -- at the largest exponent the mantissa has a bit to spare
    have hpos := two_zpow_pos 971
    rw [abs_mul, abs_of_pos hpos, largest, mul_div_right_comm, abs_intCast] at hx
    have hle : (m.natAbs : ℚ) ≤ (2 ^ 53 - 1) / 2 := le_of_mul_le_mul_right hx hpos
    have hlt : 2 * m.natAbs < 2 ^ 53 := by
      have hlt : 2 * (m.natAbs : ℚ) < 2 ^ 53 := by linarith only [hle]
      exact_mod_cast hlt
    refine ⟨2 * m, 971, by omega, by decide, le_refl _, ?_⟩
    rw [Int.cast_mul, Int.cast_ofNat, mul_assoc]

theorem isDouble_half_largest : IsDouble (largest / 2) :=
  isDouble_largest.half (le_trans (by linarith [leastNormal_pos, leastNormal_le_largest]) (le_abs_self _))

end Decimal

namespace Reading

open Decimal

/-- The midpoint of two numbers, as it is rounded. -/
def middle {π : Type} (A : Reading π) (a b : ℚ) : ℚ :=
  if |a| ≤ largest / 2 ∧ |b| ≤ largest / 2 then A.round (A.round (a + b) / 2)
  else A.round (A.round (a / 2) + A.round (b / 2))

namespace OfDoubles

variable {π : Type} [Scalar π] {A : Reading π} (hA : A.OfDoubles) {x y : π} {a b q r : ℚ}
include hA

/-! ## Rounding within bounds -/

theorem le_round (hb : IsDouble b) (h : b ≤ q) : b ≤ A.round q := hA.round_eq hb ▸ hA.round_mono h

theorem round_le (hb : IsDouble b) (h : q ≤ b) : A.round q ≤ b := hA.round_eq hb ▸ hA.round_mono h

theorem abs_round_le (hb : IsDouble b) (h : |q| ≤ b) : |A.round q| ≤ b :=
  abs_le.mpr ⟨hA.le_round hb.neg (abs_le.mp h).1, hA.round_le hb (abs_le.mp h).2⟩

theorem is_of_gives (h : A.Gives x q) (hq : |q| ≤ largest) : A.Is x (A.round q) := h.is (hA.limit_eq ▸ hq)

theorem is_add (hx : A.Is x a) (hy : A.Is y b) (h : |a + b| ≤ largest) : A.Is (x + y) (A.round (a + b)) := by
  obtain ⟨hfx, rfl⟩ := hx
  obtain ⟨hfy, rfl⟩ := hy
  exact hA.is_of_gives (hA.add hfx hfy) h

theorem is_half (hx : A.Is x a) (h : |a| ≤ largest) : A.Is (x / 2) (A.round (a / 2)) := by
  obtain ⟨hfinite, rfl⟩ := hx
  have htwo := hA.is_ofNat (π := π) (n := 2) (by decide)
  rw [hA.round_natCast (by decide), Nat.cast_ofNat] at htwo
  have hdiv := hA.div hfinite htwo.1 (by rw [htwo.2]; norm_num)
  rw [htwo.2] at hdiv
  refine hA.is_of_gives hdiv ?_
  rw [abs_div, abs_two]
  exact (half_le_self (abs_nonneg _)).trans h

/-! ## Midpoints -/

theorem is_midpoint (hx : A.Is x a) (hy : A.Is y b) : A.Is (Scalar.midpoint x y) (A.middle a b) := by
  have ha : IsDouble a := hx.2 ▸ hA.isDouble hx.1
  have hb : IsDouble b := hy.2 ▸ hA.isDouble hy.1
  have hmoderate :
      (Scalar.moderate x = true ∧ Scalar.moderate y = true) ↔ |a| ≤ largest / 2 ∧ |b| ≤ largest / 2 := by
    rw [hA.moderate_iff hx.1, hA.moderate_iff hy.1, hx.2, hy.2]
  unfold Scalar.midpoint middle
  by_cases h : |a| ≤ largest / 2 ∧ |b| ≤ largest / 2
  · rw [if_pos (hmoderate.mpr h), if_pos h]
    have hsum : |a + b| ≤ largest := (abs_add_le a b).trans (by linarith)
    exact hA.is_half (hA.is_add hx hy hsum) (hA.abs_round_le isDouble_largest hsum)
  · rw [if_neg (mt hmoderate.mp h), if_neg h]
    have half_le : ∀ {c : ℚ}, IsDouble c → |A.round (c / 2)| ≤ largest / 2 := fun hc => by
      refine hA.abs_round_le isDouble_half_largest ?_
      rw [abs_div, abs_two]
      linarith [hc.abs_le]
    refine hA.is_add (hA.is_half hx ha.abs_le) (hA.is_half hy hb.abs_le) ((abs_add_le _ _).trans ?_)
    linarith [half_le ha, half_le hb]

theorem round_half_cases (ha : IsDouble a) :
    A.round (a / 2) = a / 2 ∨ (|a| ≤ 2 * leastNormal ∧ |A.round (a / 2)| ≤ leastNormal) := by
  rcases le_or_gt (2 * leastNormal) |a| with h | h
  · exact .inl (hA.round_eq (ha.half h))
  · refine .inr ⟨h.le, hA.abs_round_le isDouble_leastNormal ?_⟩
    rw [abs_div, abs_two]
    linarith

theorem middle_between (ha : IsDouble a) (hb : IsDouble b) (h : a ≤ b) : a ≤ A.middle a b ∧ A.middle a b ≤ b := by
  unfold middle
  by_cases hm : |a| ≤ largest / 2 ∧ |b| ≤ largest / 2
  · rw [if_pos hm]
    have hlow := hA.le_round (q := a + b) (ha.double hm.1) (by linarith)
    have hup := hA.round_le (q := a + b) (hb.double hm.2) (by linarith)
    exact ⟨hA.le_round ha (by linarith), hA.round_le hb (by linarith)⟩
  · rw [if_neg hm]
    suffices hsum : a ≤ A.round (a / 2) + A.round (b / 2) ∧ A.round (a / 2) + A.round (b / 2) ≤ b from
      ⟨hA.le_round ha hsum.1, hA.round_le hb hsum.2⟩
    have hlarge := leastNormal_le_largest
    have hpos := leastNormal_pos
    rcases hA.round_half_cases ha with hea | ⟨hta, hra⟩ <;> rcases hA.round_half_cases hb with heb | ⟨htb, hrb⟩
    · rw [hea, heb]
      constructor <;> linarith
    · -- `a` is large and, as it is below `b`, negative
      have hfar : largest / 2 < |a| := not_le.mp fun ha => hm ⟨ha, by linarith⟩
      have hneg : a < -(largest / 2) := by
        rcases lt_abs.mp hfar with hfar | hfar <;> linarith [(abs_le.mp htb).2]
      rw [hea]
      constructor <;> linarith [(abs_le.mp htb).1, (abs_le.mp hrb).1, (abs_le.mp hrb).2]
    · have hfar : largest / 2 < |b| := not_le.mp fun hb => hm ⟨by linarith, hb⟩
      have hbig : largest / 2 < b := by
        rcases lt_abs.mp hfar with hfar | hfar <;> linarith [(abs_le.mp hta).1]
      rw [heb]
      constructor <;> linarith [(abs_le.mp hta).2, (abs_le.mp hra).1, (abs_le.mp hra).2]
    · exact absurd ⟨by linarith, by linarith⟩ hm

end OfDoubles

end Reading

end PriceBoard
