import PriceBoard.Decimal.Reader
import PriceBoard.Decimal.Shortest
import PriceBoard.Proofs.Decimal.Scientific

/-!
# Shortest digits read back

The digits chosen for a double lie among the numbers it covers
(`shortest_covers`), and reading a covered decimal gives the double
(`split_ofDecimal`).
-/

namespace PriceBoard.Decimal

open Float.Model Float.Model.UnpackedFloat

def Digits.value (d : Digits) : ℚ := d.digits * 10 ^ d.exponent

theorem ten_zpow_pos (e : Int) : (0 : ℚ) < 10 ^ e := zpow_pos (by norm_num) e

theorem tenNum_eq (e : Int) : tenNum e = 10 ^ e.toNat := rfl

theorem tenDen_eq (e : Int) : tenDen e = 10 ^ (-e).toNat := rfl

theorem roundDiv_cases (num den : Nat) (tie : Tie) :
    roundDiv num den tie = num / den ∨ roundDiv num den tie = num / den + 1 := by
  unfold roundDiv
  dsimp only
  split
  · exact .inl rfl
  · exact .inr rfl
  · exact .inr rfl
  · split
    · exact .inl rfl
    · exact .inr rfl

namespace Binary

variable {b : Binary} {x : ℚ}

theorem Covers.pos (hx : b.Covers x) (hpos : 0 < b.m) : 0 < x := by
  have hm : (1 : ℚ) ≤ b.m := by exact_mod_cast hpos
  refine lt_of_lt_of_le (mul_pos ?_ (two_zpow_pos b.q)) hx.1
  split <;> linarith

/-! ## Choosing digits -/

theorem covers_of_readsBack (hpos : 0 < b.m) {d : Nat} {e : Int} (h : b.readsBack d e) :
    b.Covers (Digits.mk d e).value := by
  -- everything over the denominator that `readsBack` has cleared
  obtain ⟨k, hk⟩ : ∃ k : ℚ, k = 4 * 2 ^ (-b.q).toNat * 10 ^ (-e).toNat := ⟨_, rfl⟩
  have hkpos : 0 < k := by rw [hk]; positivity
  have hscale : (2 : ℚ) ^ b.q * k = 4 * (2 ^ b.q.toNat * 10 ^ (-e).toNat) := by
    rw [zpow_eq_div (by norm_num) b.q, hk]
    field_simp
  have hx : (Digits.mk d e).value * k = ((4 * d * tenNum e * b.den : Nat) : ℚ) := by
    rw [Digits.value, zpow_eq_div (by norm_num) e, hk, tenNum_eq, den_eq]
    push_cast
    field_simp
  have hhigh : ((b.m : ℚ) + 1 / 2) * 2 ^ b.q * k = ((4 * b.m + 2) * (2 ^ b.q.toNat * tenDen e) : Nat) := by
    rw [mul_assoc, hscale, tenDen_eq]
    push_cast
    ring
  have hlow : ((b.m : ℚ) - if b.narrowBelow then 1 / 4 else 1 / 2) * 2 ^ b.q * k =
      ((4 * b.m - if b.narrowBelow then 1 else 2) * (2 ^ b.q.toNat * tenDen e) : Nat) := by
    rw [mul_assoc, hscale, tenDen_eq]
    cases b.narrowBelow
    · rw [if_neg Bool.false_ne_true, if_neg Bool.false_ne_true, Nat.cast_mul, Nat.cast_sub (by omega)]
      push_cast
      ring
    · rw [if_pos rfl, if_pos rfl, Nat.cast_mul, Nat.cast_sub (by omega)]
      push_cast
      ring
  have le_iff : ∀ {y z : ℚ} {i j : Nat}, y * k = i → z * k = j → (y ≤ z ↔ i ≤ j) := by
    intro y z i j hy hz
    rw [← mul_le_mul_iff_of_pos_right hkpos, hy, hz, Nat.cast_le]
  have lt_iff : ∀ {y z : ℚ} {i j : Nat}, y * k = i → z * k = j → (y < z ↔ i < j) := by
    intro y z i j hy hz
    rw [← mul_lt_mul_iff_of_pos_right hkpos, hy, hz, Nat.cast_lt]
  unfold readsBack at h
  dsimp only at h
  rcases Nat.mod_two_eq_zero_or_one b.m with hm | hm
  · rw [if_pos hm, Bool.and_eq_true, decide_eq_true_eq, decide_eq_true_eq] at h
    exact ⟨(le_iff hlow hx).mpr h.1, (le_iff hx hhigh).mpr h.2, fun ho => by omega⟩
  · rw [if_neg (by omega), Bool.and_eq_true, decide_eq_true_eq, decide_eq_true_eq] at h
    have hl := (lt_iff hlow hx).mpr h.1
    have hh := (lt_iff hx hhigh).mpr h.2
    refine ⟨hl.le, hh.le, fun _ => ⟨lt_of_le_of_lt ?_ hl, hh⟩⟩
    refine mul_le_mul_of_nonneg_right ?_ (two_zpow_pos b.q).le
    split <;> linarith

theorem covers_of_onGrid (hpos : 0 < b.m) {tie : Tie} {e : Int} {d : Digits} (h : b.onGrid tie e = some d) :
    b.Covers d.value := by
  unfold onGrid at h
  dsimp only at h
  generalize b.den * tenNum e = den at h
  generalize b.num * tenDen e = num at h
  cases hlow : b.readsBack (num / den) e <;> cases hhigh : b.readsBack (num / den + 1) e <;>
    rw [hlow, hhigh] at h <;> cases h
  · exact covers_of_readsBack hpos hhigh
  · exact covers_of_readsBack hpos hlow
  · rcases roundDiv_cases num den tie with h | h <;> rw [h]
    · exact covers_of_readsBack hpos hlow
    · exact covers_of_readsBack hpos hhigh

end Binary

theorem stripZeros_value (fuel : Nat) (d : Digits) : (stripZeros fuel d).value = d.value := by
  induction fuel generalizing d with
  | zero => rfl
  | succ fuel ih =>
    unfold stripZeros
    split
    · rename_i h
      rw [ih]
      have hten : 10 * (d.digits / 10) = d.digits := by omega
      have hcast : (10 : ℚ) * (d.digits / 10 : Nat) = d.digits := by exact_mod_cast hten
      unfold Digits.value
      rw [zpow_add_one₀ (by norm_num), ← hcast]
      ring
    · rfl

theorem exact_value (b : Binary) : (exact b).value = b.m * 2 ^ b.q := by
  unfold exact Digits.value
  by_cases hq : 0 ≤ b.q
  · rw [if_pos hq, zpow_zero, mul_one, b.value_eq, Binary.den_eq, show (-b.q).toNat = 0 by omega, pow_zero,
      Nat.cast_one, div_one]
  · rw [if_neg hq]
    have hpow : (10 : ℚ) ^ b.q = 2 ^ b.q * 5 ^ b.q := by rw [← mul_zpow]; norm_num
    have hfive : (5 : ℚ) ^ (-b.q).toNat * 5 ^ b.q = 1 := by
      rw [← zpow_natCast, ← zpow_add₀ (by norm_num), Int.toNat_of_nonneg (by omega), neg_add_cancel, zpow_zero]
    dsimp only
    rw [hpow, Nat.pow_eq, Nat.cast_mul, Nat.cast_pow, Nat.cast_ofNat]
    calc
      (b.m : ℚ) * 5 ^ (-b.q).toNat * (2 ^ b.q * 5 ^ b.q) = b.m * 2 ^ b.q * (5 ^ (-b.q).toNat * 5 ^ b.q) := by ring
      _ = b.m * 2 ^ b.q := by rw [hfive, mul_one]

theorem shortest_covers {b : Binary} (hpos : 0 < b.m) (tie : Tie) : b.Covers (shortest tie b).value := by
  unfold shortest
  rw [if_neg hpos.ne']
  dsimp only
  rw [stripZeros_value]
  cases hfound : (List.range 17).findSome? fun n : Nat => b.onGrid tie (b.scale - (n + 1)) with
  | none =>
    rw [Option.getD_none, exact_value]
    exact b.covers_self
  | some d =>
    obtain ⟨n, -, hn⟩ := List.exists_of_findSome?_eq_some hfound
    exact Binary.covers_of_onGrid hpos hn

/-! ## Reading -/

theorem length_digits {m : Nat} (hm : 0 < m) :
    10 ^ ((Nat.toDigits 10 m).length - 1) ≤ m ∧ m < 10 ^ (Nat.toDigits 10 m).length := by
  have hlen : 0 < (Nat.toDigits 10 m).length := Nat.length_toDigits_pos
  refine ⟨?_, (Nat.length_toDigits_le_iff (by decide) hlen).mp (le_refl _)⟩
  by_contra hlt
  rw [not_le] at hlt
  rcases Nat.eq_zero_or_pos ((Nat.toDigits 10 m).length - 1) with h | h
  · rw [h, pow_zero] at hlt
    omega
  · have := (Nat.length_toDigits_le_iff (by decide) h).mpr hlt
    omega

theorem length_digits_le_log2 {m : Nat} (hm : 0 < m) : (Nat.toDigits 10 m).length ≤ m.log2 + 1 := by
  have hpow : 2 ^ ((Nat.toDigits 10 m).length - 1) ≤ m :=
    le_trans (Nat.pow_le_pow_left (by decide) _) (length_digits hm).1
  have := (Nat.le_log2 hm.ne').mpr hpow
  omega

theorem two_zpow_lt_ten_zpow : (2 : ℚ) ^ (1075 : Int) < 10 ^ (400 : Int) := by
  calc (2 : ℚ) ^ (1075 : Int) ≤ 2 ^ (3 * 400 : Int) := two_zpow_le (by norm_num)
    _ = (2 ^ (3 : Int)) ^ (400 : Int) := zpow_mul _ _ _
    _ < 10 ^ (400 : Int) := zpow_lt_zpow_left₀ (by norm_num) (by norm_num) (by norm_num)

theorem lead_bounds {m : Nat} (hm : 0 < m) {e : Int} (hlow : (2 : ℚ) ^ (-1075 : Int) ≤ m * 10 ^ e)
    (hup : (m : ℚ) * 10 ^ e < 2 ^ (1024 : Int)) :
    -400 ≤ e + (Nat.toDigits 10 m).length ∧ e + (Nat.toDigits 10 m).length ≤ 400 := by
  obtain ⟨hd, hd'⟩ := length_digits hm
  have hten := ten_zpow_pos e
  have hlt_of_lt : ∀ {i j : Int}, (10 : ℚ) ^ i < 10 ^ j → i < j := fun h =>
    (zpow_lt_zpow_iff_right₀ (by norm_num)).mp h
  constructor
  · have : (10 : ℚ) ^ (-400 : Int) < 10 ^ ((Nat.toDigits 10 m).length + e) := by
      calc (10 : ℚ) ^ (-400 : Int) < 2 ^ (-1075 : Int) := by
            rw [zpow_neg, zpow_neg]
            exact inv_strictAnti₀ (two_zpow_pos _) two_zpow_lt_ten_zpow
        _ ≤ m * 10 ^ e := hlow
        _ ≤ 10 ^ (Nat.toDigits 10 m).length * 10 ^ e := by
          refine mul_le_mul_of_nonneg_right ?_ hten.le
          exact_mod_cast hd'.le
        _ = 10 ^ ((Nat.toDigits 10 m).length + e : Int) := by
          rw [zpow_add₀ (by norm_num), zpow_natCast]
    have := hlt_of_lt this
    omega
  · have : (10 : ℚ) ^ (((Nat.toDigits 10 m).length - 1 : Nat) + e) < 10 ^ (400 : Int) := by
      calc (10 : ℚ) ^ (((Nat.toDigits 10 m).length - 1 : Nat) + e : Int)
          = 10 ^ ((Nat.toDigits 10 m).length - 1) * 10 ^ e := by
            rw [zpow_add₀ (by norm_num), zpow_natCast]
        _ ≤ m * 10 ^ e := by
          refine mul_le_mul_of_nonneg_right ?_ hten.le
          exact_mod_cast hd
        _ < 2 ^ (1024 : Int) := hup
        _ ≤ 2 ^ (1075 : Int) := two_zpow_le (by norm_num)
        _ < 10 ^ (400 : Int) := two_zpow_lt_ten_zpow
    have := hlt_of_lt this
    omega

theorem exists_ofDecimal_eq {m : Nat} (hm : 0 < m) {e : Int} (hlow : (2 : ℚ) ^ (-1075 : Int) ≤ m * 10 ^ e)
    (hup : (m : ℚ) * 10 ^ e < 2 ^ (1024 : Int)) :
    ∃ u, ofDecimal m e = .ofModel (.pack u) ∧ IsRounding u (m * 10 ^ e) := by
  obtain ⟨hlead, hlead'⟩ := lead_bounds hm hlow hup
  have hlog := length_digits_le_log2 hm
  have hlen : 0 < (Nat.toDigits 10 m).length := Nat.length_toDigits_pos
  unfold ofDecimal
  rw [if_neg hm.ne']
  dsimp only
  rw [if_neg (by omega), if_neg (by omega)]
  exact exists_ofScientific_eq hm (by omega) (by omega)

theorem Binary.Covers.bounds {b : Binary} {x : ℚ} (hx : b.Covers x) (hb : b.Canonical) (hpos : 0 < b.m) :
    2 ^ (-1075 : Int) ≤ x ∧ x < 2 ^ (1024 : Int) := by
  have hq := two_zpow_pos b.q
  constructor
  · have hm : (1 : ℚ) ≤ b.m := by exact_mod_cast hpos
    have hleast : (2 : ℚ) ^ (-1074 : Int) ≤ 2 ^ b.q := two_zpow_le hb.least
    have hhalf : (2 : ℚ) ^ (-1074 : Int) = 2 * 2 ^ (-1075 : Int) := by
      rw [show (-1074 : Int) = 1 + -1075 by norm_num, two_zpow_add, zpow_one]
    have : (1 / 2 : ℚ) * 2 ^ b.q ≤ (b.m - if b.narrowBelow then 1 / 4 else 1 / 2) * 2 ^ b.q := by
      refine mul_le_mul_of_nonneg_right ?_ hq.le
      split <;> linarith
    have := hx.1
    linarith
  · have hm : (b.m : ℚ) + 1 ≤ 2 ^ 53 := by exact_mod_cast hb.lt
    calc x ≤ (b.m + 1 / 2) * 2 ^ b.q := hx.2.1
      _ < 2 ^ 53 * 2 ^ b.q := mul_lt_mul_of_pos_right (by linarith) hq
      _ = 2 ^ (53 + b.q) := by rw [two_zpow_add]; norm_cast
      _ ≤ 2 ^ (1024 : Int) := two_zpow_le (by have := hb.most; omega)

theorem split_ofDecimal {b : Binary} (hb : b.Canonical) (hpos : 0 < b.m) {d : Digits} (hd : b.Covers d.value) :
    split (ofDecimal d.digits d.exponent) = .finite false b := by
  have hm : 0 < d.digits := by
    rcases Nat.eq_zero_or_pos d.digits with h0 | h
    · have := hd.pos hpos
      rw [Digits.value, h0, Nat.cast_zero, zero_mul] at this
      exact absurd this (lt_irrefl _)
    · exact h
  obtain ⟨hlow, hup⟩ := hd.bounds hb hpos
  obtain ⟨u, hu, hround⟩ := exists_ofDecimal_eq hm hlow hup
  rw [hu, hround.of_covers hb hpos hd]
  exact split_pack hb false

theorem split_zero : split 0 = .finite false ⟨0, -1074, false⟩ := by decide

theorem isFinite_ofDecimal_nat {n : Nat} (hn : n < 2 ^ 64) : (ofDecimal n 0).isFinite := by
  rw [isFinite_iff]
  rcases Nat.eq_zero_or_pos n with h0 | hpos
  · exact ⟨false, _, by rw [h0]; exact split_zero⟩
  · have hval : (n : ℚ) * 10 ^ (0 : Int) = n := by rw [zpow_zero, mul_one]
    have hge : (1 : ℚ) ≤ n := by exact_mod_cast hpos
    have hlt : (n : ℚ) < 2 ^ (64 : Int) := by exact_mod_cast hn
    obtain ⟨u, hu, m, e, a, hrep, he, rfl⟩ := exists_ofDecimal_eq (m := n) (e := 0) hpos
      (by
        rw [hval]
        exact le_trans (two_zpow_le (b := 0) (by norm_num)) (by rw [zpow_zero]; exact hge))
      (by
        rw [hval]
        exact lt_of_lt_of_le hlt (two_zpow_le (by norm_num)))
    rw [hval] at hrep
    have hgrid : gridOf m e < 971 := by
      have ht := isGrid_gridOf hrep he
      rcases ht.le with h | h
      · omega
      · have := lt_of_two_zpow_lt (lt_of_le_of_lt h hlt)
        omega
    obtain ⟨b, hb, hround⟩ := exists_roundWithAccuracy_eq hrep he hgrid false
    refine ⟨false, b, ?_⟩
    rw [hu]
    exact hround ▸ split_pack hb false

end PriceBoard.Decimal
