import PriceBoard.Proofs.Decimal.NearestDouble

/-!
# Arithmetic on doubles

Every operation on finite doubles answers the double nearest to the exact result, and
overflows only beyond the largest double (`Rounds`). Doubles compare as their values do.
-/

namespace PriceBoard.Decimal

open Float.Model Float.Model.UnpackedFloat

/-! ## Values -/

def withSign (negative : Bool) (x : ℚ) : ℚ := if negative then -x else x

@[simp]
theorem withSign_zero (negative : Bool) : withSign negative 0 = 0 := by cases negative <;> simp [withSign]

theorem neg_withSign (negative : Bool) (x : ℚ) : -withSign negative x = withSign (!negative) x := by
  cases negative <;> simp [withSign]

theorem withSign_mul_withSign (n k : Bool) (x y : ℚ) : withSign n x * withSign k y = withSign (n ^^ k) (x * y) := by
  cases n <;> cases k <;> simp [withSign]

theorem withSign_div_withSign (n k : Bool) (x y : ℚ) : withSign n x / withSign k y = withSign (n ^^ k) (x / y) := by
  cases n <;> cases k <;> simp [withSign, neg_div, div_neg]

theorem abs_withSign {x : ℚ} (hx : 0 ≤ x) (negative : Bool) : |withSign negative x| = x := by
  cases negative
  · exact abs_of_nonneg hx
  · exact (abs_neg x).trans (abs_of_nonneg hx)

/-- The number that a double is; NaN and the infinities count as zero. -/
def Parts.value : Parts → ℚ
  | .finite negative b => withSign negative (b.m * 2 ^ b.q)
  | _ => 0

def value (x : Float) : ℚ := (split x).value

theorem Parts.value_zero {b : Binary} (h : b.m = 0) (negative : Bool) : (Parts.finite negative b).value = 0 := by
  simp [value, h]

/-! ## Standing for a rounded number -/

/-- `u` is the double nearest to `x`, if it is not too large to be one. -/
def Stands (u : UnpackedFloat) (x : ℚ) : Prop :=
  ∃ negative b, Binary.Normalised b ∧ u = (Parts.finite negative b).unpacked ∧
    (Parts.finite negative b).value = nearestDouble x

theorem Stands.neg {u : UnpackedFloat} {x : ℚ} (h : Stands u x) : Stands u.neg (-x) := by
  obtain ⟨negative, b, hb, rfl, hx⟩ := h
  refine ⟨!negative, b, hb, Parts.unpacked_neg negative b, ?_⟩
  rw [nearestDouble_neg, ← hx]
  exact (neg_withSign _ _).symm

theorem stands_zero (s : Sign) : Stands (.zero s) 0 := by
  have key : ∀ negative, Stands (.zero (signOf negative)) 0 := fun negative =>
    ⟨negative, ⟨0, -1074, false⟩, ⟨by decide, by decide, .inr rfl, rfl⟩, (Parts.unpacked_zero rfl negative).symm,
      (Parts.value_zero rfl negative).trans nearestDouble_zero.symm⟩
  cases s
  · exact key true
  · exact key false

theorem Binary.Canonical.isDouble {b : Binary} (hb : b.Canonical) (negative : Bool) :
    IsDouble (Parts.finite negative b).value := by
  have h := isDouble_natCast_mul hb.lt hb.least hb.most
  cases negative
  · exact h
  · exact h.neg

theorem stands_self {b : Binary} (hb : b.Canonical) (negative : Bool) :
    Stands (Parts.finite negative b).unpacked (Parts.finite negative b).value :=
  ⟨negative, b, hb.normalised, rfl, (hb.isDouble negative).nearestDouble_eq.symm⟩

theorem IsRounding.stands {u : UnpackedFloat} {x : ℚ} (h : IsRounding u x) (hx : 0 < x) : Stands u x := by
  obtain ⟨m, e, a, hrep, he, rfl⟩ := h
  obtain ⟨b, hb, -, hval, heq⟩ := exists_normalised_eq hrep he
  refine ⟨false, b, hb, heq false, ?_⟩
  rw [nearestDouble_of_nonneg hx.le, nearestMagnitude_eq hx (isGrid_gridOf hrep he) (firstRounded_roundsTo hrep he)]
  exact hval

/-! ## Overflow -/

def largest : ℚ := (2 ^ 53 - 1) * 2 ^ (971 : Int)

theorem isDouble_largest : IsDouble largest :=
  ⟨2 ^ 53 - 1, 971, by decide, by decide, le_rfl, by norm_num [largest]⟩

theorem le_largest {x : ℚ} (h : x ≤ 2 ^ 53 - 1) : x ≤ largest := by
  have hpow : (1 : ℚ) ≤ 2 ^ (971 : Int) := one_le_zpow₀ (by norm_num) (by decide)
  exact h.trans (le_mul_of_one_le_right (by norm_num) hpow)

/-- A magnitude above the largest exponent is larger than every double. -/
theorem Binary.Normalised.largest_lt {b : Binary} (hb : b.Normalised) (hq : 971 < b.q) :
    largest < b.m * 2 ^ b.q := by
  have hm : (2 : ℚ) ^ 52 ≤ b.m := by exact_mod_cast hb.normal.resolve_right (by omega)
  calc largest < 2 ^ 53 * 2 ^ (971 : Int) := mul_lt_mul_of_pos_right (by norm_num) (two_zpow_pos _)
    _ ≤ 2 ^ 52 * 2 ^ b.q := top_le_bottom hq
    _ ≤ b.m * 2 ^ b.q := mul_le_mul_of_nonneg_right hm (two_zpow_pos _).le

theorem isFinite_pack_infinity (s : Sign) : (Float.ofModel (.pack (.infinity s))).isFinite = false := by
  cases s <;> decide +kernel

theorem isFinite_pack_of_lt (s : Sign) {m : Nat} {e : Int} (hm : 0 < m) (he : 971 < e) :
    (Float.ofModel (.pack (.finite s m e hm))).isFinite = false := by
  have hexp : 2 ^ 11 ≤ (e + (1023 : Nat) + (52 : Nat)).toNat + 1 := by omega
  have hpack : UnpackedFloat.pack Format.binary64 (.finite s m e hm) =
      UnpackedFloat.pack Format.binary64 (.infinity s) := if_pos hexp
  have heq : Float.ofModel (.pack (.finite s m e hm)) = Float.ofModel (.pack (.infinity s)) :=
    eq_of_toBits_toNat (congrArg BitVec.toNat hpack)
  rw [heq]
  exact isFinite_pack_infinity s

/-- `x` is the double nearest to `y`, and finite unless `y` is beyond the largest double. -/
def Rounds (x : Float) (y : ℚ) : Prop :=
  (|y| ≤ largest → x.isFinite = true) ∧ (x.isFinite = true → value x = nearestDouble y)

theorem Stands.rounds {u : UnpackedFloat} {y : ℚ} (h : Stands u y) : Rounds (.ofModel (.pack u)) y := by
  obtain ⟨negative, b, hb, rfl, hy⟩ := h
  by_cases hq : b.q ≤ 971
  · have hsplit := split_pack (hb.canonical hq) negative
    refine ⟨fun _ => isFinite_iff.mpr ⟨negative, b, hsplit⟩, fun _ => ?_⟩
    rw [value, hsplit, hy]
  · have hbig := hb.largest_lt (not_le.mp hq)
    have hm : 0 < b.m := by
      have := hb.normal
      omega
    have hfinite := isFinite_pack_of_lt (signOf negative) hm (not_le.mp hq)
    rw [← Parts.unpacked_pos hm] at hfinite
    refine ⟨fun hle => ?_, fun h => ?_⟩
    · -- the rounded number would be no larger than the largest double
      have hround : |nearestDouble y| ≤ largest := by
        have hlow := nearestDouble_monotone (abs_le.mp hle).1
        have hup := nearestDouble_monotone (abs_le.mp hle).2
        rw [nearestDouble_neg, isDouble_largest.nearestDouble_eq] at hlow
        rw [isDouble_largest.nearestDouble_eq] at hup
        exact abs_le.mpr ⟨hlow, hup⟩
      rw [← hy, Parts.value, abs_withSign (magnitude_nonneg b.m b.q)] at hround
      exact absurd hbig (not_lt.mpr hround)
    · rw [hfinite] at h
      cases h

/-! ## Operations on finite doubles -/

theorem roundWithAccuracy_negative (m : Nat) (e : Int) (a : Accuracy) :
    roundWithAccuracy Format.binary64 .negative m e a =
      (roundWithAccuracy Format.binary64 .positive m e a).neg := by
  unfold roundWithAccuracy
  dsimp only
  rw [apply_dite UnpackedFloat.neg]
  rfl

theorem stands_normalize (n e : Int) (s : Sign) :
    Stands (UnpackedFloat.normalize Format.binary64 n e s) (n * 2 ^ e) := by
  have key {k : Nat} (hk : 0 < k) : Stands (UnpackedFloat.round Format.binary64 .positive k e) (k * 2 ^ e) :=
    (isRounding_round hk e).stands (magnitude_pos hk e)
  unfold UnpackedFloat.normalize
  rcases Int.lt_trichotomy n 0 with h | rfl | h
  · rw [Int.compare_eq_lt.mpr h]
    have hn : (n : ℚ) = -((-n).toNat : Nat) := by
      have : n = -((-n).toNat : Int) := by omega
      exact_mod_cast this
    have hround : UnpackedFloat.round Format.binary64 .negative (-n).toNat e =
        (UnpackedFloat.round Format.binary64 .positive (-n).toNat e).neg := roundWithAccuracy_negative ..
    rw [hn, neg_mul, hround]
    exact (key (by omega)).neg
  · rw [Int.compare_eq_eq.mpr rfl, Int.cast_zero, zero_mul]
    exact stands_zero s
  · rw [Int.compare_eq_gt.mpr h]
    have hn : (n : ℚ) = (n.toNat : Nat) := by exact_mod_cast (Int.toNat_of_nonneg h.le).symm
    rw [hn]
    exact key (by omega)

theorem cast_apply_signOf (negative : Bool) (m : Nat) :
    (((signOf negative).apply m : Int) : ℚ) = withSign negative m := by
  cases negative <;> simp [signOf, Sign.apply, withSign]

theorem sub_eq_add_neg_unpacked (u v : UnpackedFloat) :
    u.sub Format.binary64 v = u.add Format.binary64 v.neg := by
  cases u with
  | notANumber => rfl
  | infinity s => cases v <;> rfl
  | zero s => cases v <;> rfl
  | finite s m e hm =>
    cases v with
    | notANumber | infinity | zero => rfl
    | finite t =>
      cases t with
      | positive => rfl
      | negative => exact congrArg (UnpackedFloat.normalize Format.binary64 · _ _) (Int.sub_neg _ _)

/-- A product of mixed signs is the negative of that of the magnitudes, and a quotient likewise. -/
theorem mul_finite (n k : Bool) {m l : Nat} (hm : 0 < m) (hl : 0 < l) (e f : Int) :
    UnpackedFloat.mul Format.binary64 (.finite (signOf n) m e hm) (.finite (signOf k) l f hl) =
      if n ^^ k then (UnpackedFloat.mul Format.binary64 (.finite .positive m e hm) (.finite .positive l f hl)).neg
      else UnpackedFloat.mul Format.binary64 (.finite .positive m e hm) (.finite .positive l f hl) := by
  cases n <;> cases k
  · rfl
  · exact roundWithAccuracy_negative ..
  · exact roundWithAccuracy_negative ..
  · rfl

theorem div_finite (n k : Bool) {m l : Nat} (hm : 0 < m) (hl : 0 < l) (e f : Int) :
    UnpackedFloat.div Format.binary64 (.finite (signOf n) m e hm) (.finite (signOf k) l f hl) =
      if n ^^ k then (UnpackedFloat.div Format.binary64 (.finite .positive m e hm) (.finite .positive l f hl)).neg
      else UnpackedFloat.div Format.binary64 (.finite .positive m e hm) (.finite .positive l f hl) := by
  cases n <;> cases k
  · rfl
  · exact roundWithAccuracy_negative ..
  · exact roundWithAccuracy_negative ..
  · rfl

theorem Stands.withSign {u : UnpackedFloat} {x : ℚ} (h : Stands u x) (negative : Bool) :
    Stands (if negative then u.neg else u) (withSign negative x) := by
  cases negative
  · exact h
  · exact h.neg

theorem Binary.Canonical.exponent_mul_le {b c : Binary} (hb : b.Canonical) (hc : c.Canonical) (hbpos : 0 < b.m)
    (hcpos : 0 < c.m) : b.q + c.q ≤ gridOf (b.m * c.m) (b.q + c.q) := by
  have hgrid := gridOf_eq (b.m * c.m) (b.q + c.q)
  by_cases h : 2 ^ 52 ≤ b.m * c.m
  · have hlog : 52 ≤ (b.m * c.m).log2 := (Nat.le_log2 (by omega)).mpr h
    omega
  · -- both are subnormal
    have hbm := Nat.le_mul_of_pos_right b.m hcpos
    have hcm := Nat.le_mul_of_pos_left c.m hbpos
    have hbq := hb.normal
    have hcq := hc.normal
    omega

section Operands

variable {b c : Binary} (hb : b.Canonical) (hc : c.Canonical) (n k : Bool)
include hb hc

theorem stands_add :
    Stands (UnpackedFloat.add Format.binary64 (Parts.finite n b).unpacked (Parts.finite k c).unpacked)
      ((Parts.finite n b).value + (Parts.finite k c).value) := by
  rcases Nat.eq_zero_or_pos b.m with hb0 | hbpos
  · rw [Parts.unpacked_zero hb0, Parts.value_zero hb0, zero_add]
    rcases Nat.eq_zero_or_pos c.m with hc0 | hcpos
    · rw [Parts.unpacked_zero hc0, Parts.value_zero hc0]
      cases n <;> cases k <;> exact stands_zero _
    · have hself := stands_self hc k
      rw [Parts.unpacked_pos hcpos] at hself ⊢
      exact hself
  rcases Nat.eq_zero_or_pos c.m with hc0 | hcpos
  · have hself := stands_self hb n
    rw [Parts.unpacked_zero hc0, Parts.value_zero hc0, add_zero]
    rw [Parts.unpacked_pos hbpos] at hself ⊢
    exact hself
  -- the mantissas are brought to the smaller of the two exponents
  have hshift : ∀ (d : Binary) (negative : Bool), min b.q c.q ≤ d.q →
      (Parts.finite negative d).value =
        ((signOf negative).apply (d.m <<< (d.q - min b.q c.q).toNat : Nat) : Int) * 2 ^ min b.q c.q := by
    intro d negative hle
    have hd := shiftLeft_mul_zpow d.m (d.q - min b.q c.q).toNat d.q
    rw [show d.q - (d.q - min b.q c.q).toNat = min b.q c.q by omega] at hd
    rw [cast_apply_signOf, Parts.value, ← hd]
    cases negative <;> simp [withSign]
  rw [hshift b n (min_le_left _ _), hshift c k (min_le_right _ _), ← add_mul, ← Int.cast_add,
    Parts.unpacked_pos hbpos, Parts.unpacked_pos hcpos]
  exact stands_normalize _ _ _

theorem stands_sub :
    Stands (UnpackedFloat.sub Format.binary64 (Parts.finite n b).unpacked (Parts.finite k c).unpacked)
      ((Parts.finite n b).value - (Parts.finite k c).value) := by
  have hneg : -(Parts.finite k c).value = (Parts.finite (!k) c).value := neg_withSign _ _
  rw [sub_eq_add_neg_unpacked, Parts.unpacked_neg, sub_eq_add_neg, hneg]
  exact stands_add hb hc n (!k)

theorem stands_mul :
    Stands (UnpackedFloat.mul Format.binary64 (Parts.finite n b).unpacked (Parts.finite k c).unpacked)
      ((Parts.finite n b).value * (Parts.finite k c).value) := by
  rcases Nat.eq_zero_or_pos b.m with hb0 | hbpos
  · rw [Parts.unpacked_zero hb0, Parts.value_zero hb0, zero_mul]
    rcases Nat.eq_zero_or_pos c.m with hc0 | hcpos
    · rw [Parts.unpacked_zero hc0]
      exact stands_zero _
    · rw [Parts.unpacked_pos hcpos]
      exact stands_zero _
  rcases Nat.eq_zero_or_pos c.m with hc0 | hcpos
  · rw [Parts.unpacked_zero hc0, Parts.value_zero hc0, mul_zero, Parts.unpacked_pos hbpos]
    exact stands_zero _
  rw [Parts.unpacked_pos hbpos, Parts.unpacked_pos hcpos, mul_finite, Parts.value, Parts.value,
    withSign_mul_withSign]
  refine ((isRounding_mul_of_le hbpos hcpos _ _ (hb.exponent_mul_le hc hbpos hcpos)).stands ?_).withSign _
  exact mul_pos (magnitude_pos hbpos b.q) (magnitude_pos hcpos c.q)

omit hb hc in
theorem stands_div (hne : (Parts.finite k c).value ≠ 0) :
    Stands (UnpackedFloat.div Format.binary64 (Parts.finite n b).unpacked (Parts.finite k c).unpacked)
      ((Parts.finite n b).value / (Parts.finite k c).value) := by
  have hcpos : 0 < c.m := Nat.pos_of_ne_zero fun h0 => hne (Parts.value_zero h0 k)
  rw [Parts.unpacked_pos hcpos]
  rcases Nat.eq_zero_or_pos b.m with hb0 | hbpos
  · rw [Parts.unpacked_zero hb0, Parts.value_zero hb0, zero_div]
    exact stands_zero _
  rw [Parts.unpacked_pos hbpos, div_finite, Parts.value, Parts.value, withSign_div_withSign]
  refine ((isRounding_div hbpos hcpos _ _).stands ?_).withSign _
  exact div_pos (magnitude_pos hbpos b.q) (magnitude_pos hcpos c.q)

end Operands

section Doubles

variable {x y : Float} (hx : x.isFinite = true) (hy : y.isFinite = true)

include hx in
theorem isDouble_value : IsDouble (value x) := by
  obtain ⟨n, b, hb⟩ := isFinite_iff.mp hx
  rw [value, hb]
  exact (canonical_of_split hb).isDouble n

include hx hy

theorem rounds_of_stands (op : UnpackedFloat → UnpackedFloat → UnpackedFloat) (f : ℚ → ℚ → ℚ)
    (h : ∀ {b c : Binary}, b.Canonical → c.Canonical → ∀ n k,
      Stands (op (Parts.finite n b).unpacked (Parts.finite k c).unpacked)
        (f (Parts.finite n b).value (Parts.finite k c).value)) :
    Rounds (.ofModel (.pack (op x.toModel.unpack y.toModel.unpack))) (f (value x) (value y)) := by
  obtain ⟨n, b, hb⟩ := isFinite_iff.mp hx
  obtain ⟨k, c, hc⟩ := isFinite_iff.mp hy
  have hround := (h (canonical_of_split hb) (canonical_of_split hc) n k).rounds
  rwa [← hb, ← hc, ← unpack_eq, ← unpack_eq] at hround

theorem rounds_add : Rounds (x + y) (value x + value y) :=
  rounds_of_stands hx hy (UnpackedFloat.add Format.binary64) (· + ·) stands_add

theorem rounds_sub : Rounds (x - y) (value x - value y) :=
  rounds_of_stands hx hy (UnpackedFloat.sub Format.binary64) (· - ·) stands_sub

theorem rounds_mul : Rounds (x * y) (value x * value y) :=
  rounds_of_stands hx hy (UnpackedFloat.mul Format.binary64) (· * ·) stands_mul

theorem rounds_div (hne : value y ≠ 0) : Rounds (x / y) (value x / value y) := by
  obtain ⟨n, b, hb⟩ := isFinite_iff.mp hx
  obtain ⟨k, c, hc⟩ := isFinite_iff.mp hy
  have h := (stands_div (b := b) n k (c := c) (by rwa [value, hc] at hne)).rounds
  rwa [← hb, ← hc, ← unpack_eq, ← unpack_eq] at h

end Doubles

theorem rounds_ofNat (n : Nat) : Rounds (Float.ofNat n) n := by
  rcases Nat.eq_zero_or_pos n with rfl | hpos
  · have hsplit : split (Float.ofNat 0) = .finite false ⟨0, -1074, false⟩ := by decide +kernel
    refine ⟨fun _ => isFinite_iff.mpr ⟨_, _, hsplit⟩, fun _ => ?_⟩
    rw [value, hsplit, Nat.cast_zero, nearestDouble_zero]
    exact Parts.value_zero rfl false
  · obtain ⟨u, hu, hround⟩ := exists_ofScientific_eq hpos (e := 0) (by omega) (by decide)
    have hval : (n : ℚ) * 10 ^ (0 : Int) = n := by rw [zpow_zero, mul_one]
    have h := (hround.stands (by rw [hval]; exact_mod_cast hpos)).rounds
    rw [hval, ← hu] at h
    exact h

/-! ## Operations on other doubles -/

theorem isFinite_of_pack {u : UnpackedFloat} (h : (Float.ofModel (.pack u)).isFinite = true) :
    u.isFinite = true := by
  cases u with
  | notANumber => exact absurd h (by decide +kernel)
  | infinity s =>
    rw [isFinite_pack_infinity] at h
    cases h
  | zero | finite => rfl

section Strict

variable {x y : Float}

theorem isFinite_of_add_unpacked {u v : UnpackedFloat} (h : (u.add Format.binary64 v).isFinite = true) :
    u.isFinite = true ∧ v.isFinite = true := by
  cases u with
  | notANumber => cases v <;> cases h
  | infinity s =>
    cases v with
    | infinity t => cases s <;> cases t <;> cases h
    | notANumber | zero | finite => cases h
  | zero | finite =>
    cases v with
    | notANumber | infinity => cases h
    | zero | finite => exact ⟨rfl, rfl⟩

theorem isFinite_of_add (h : (x + y).isFinite = true) : x.isFinite = true ∧ y.isFinite = true :=
  isFinite_of_add_unpacked (isFinite_of_pack h)

theorem isFinite_of_sub (h : (x - y).isFinite = true) : x.isFinite = true ∧ y.isFinite = true := by
  have hsub := isFinite_of_pack h
  rw [sub_eq_add_neg_unpacked] at hsub
  obtain ⟨hu, hv⟩ := isFinite_of_add_unpacked hsub
  refine ⟨hu, ?_⟩
  change y.toModel.unpack.isFinite = true
  generalize y.toModel.unpack = v at hv
  cases v with
  | notANumber | infinity => cases hv
  | zero | finite => rfl

theorem isFinite_of_mul (h : (x * y).isFinite = true) : x.isFinite = true ∧ y.isFinite = true := by
  have key : ∀ {u v : UnpackedFloat}, (u.mul Format.binary64 v).isFinite = true →
      u.isFinite = true ∧ v.isFinite = true := by
    intro u v h
    cases u with
    | notANumber | infinity => cases v <;> cases h
    | zero | finite =>
      cases v with
      | notANumber | infinity => cases h
      | zero | finite => exact ⟨rfl, rfl⟩
  exact key (isFinite_of_pack h)

theorem isFinite_of_div (h : (x / y).isFinite = true) : x.isFinite = true := by
  have key : ∀ {u v : UnpackedFloat}, (u.div Format.binary64 v).isFinite = true → u.isFinite = true := by
    intro u v h
    cases u with
    | notANumber | infinity => cases v <;> cases h
    | zero | finite => rfl
  exact key (isFinite_of_pack h)

end Strict

end PriceBoard.Decimal
