import PriceBoard.Proofs.Decimal.Order

/-!
# Readings of scalars

A reading says which number a finite scalar is. Under a lawful one an operation answers
the exact result, rounded, and a number within the limit is rounded to a finite scalar.
The doubles that run have a lawful reading (`doubles_lawful`).
-/

namespace PriceBoard

open Decimal (IsDouble largest)

structure Reading (π : Type) where
  value : π → ℚ
  round : ℚ → ℚ
  limit : ℚ

namespace Reading

variable {π : Type} [Scalar π]

/-- `x` is `q` rounded, and finite unless `q` is beyond the limit. -/
def Gives (A : Reading π) (x : π) (q : ℚ) : Prop :=
  (|q| ≤ A.limit → Scalar.finite x = true) ∧ (Scalar.finite x = true → A.value x = A.round q)

/-- Whether operations round the exact result monotonically, and the integers of a byte are
left as they are. -/
structure Lawful (A : Reading π) : Prop where
  round_mono : Monotone A.round
  round_natCast : ∀ {n : Nat}, n ≤ 255 → A.round n = n
  limit_ge : 2 ^ 32 ≤ A.limit
  lt_iff : ∀ {x y : π}, Scalar.finite x = true → Scalar.finite y = true → (x < y ↔ A.value x < A.value y)
  le_iff : ∀ {x y : π}, Scalar.finite x = true → Scalar.finite y = true → (x ≤ y ↔ A.value x ≤ A.value y)
  beq_iff : ∀ {x y : π}, Scalar.finite x = true → Scalar.finite y = true → ((x == y) = true ↔ A.value x = A.value y)
  ofNat : ∀ n : Nat, A.Gives (Scalar.ofNat n : π) n
  add : ∀ {x y : π}, Scalar.finite x = true → Scalar.finite y = true → A.Gives (x + y) (A.value x + A.value y)
  sub : ∀ {x y : π}, Scalar.finite x = true → Scalar.finite y = true → A.Gives (x - y) (A.value x - A.value y)
  mul : ∀ {x y : π}, Scalar.finite x = true → Scalar.finite y = true → A.Gives (x * y) (A.value x * A.value y)
  div : ∀ {x y : π}, Scalar.finite x = true → Scalar.finite y = true → A.value y ≠ 0 →
    A.Gives (x / y) (A.value x / A.value y)
  nearest : ∀ {x : π} {top : Nat}, Scalar.finite x = true → 0 ≤ A.value x → A.value x ≤ top →
    Scalar.nearest top x = ⌊A.value x + 1 / 2⌋₊

/-- Whether the finite scalars are doubles, which rounding leaves as they are, and what is not
finite stays so. -/
structure OfDoubles (A : Reading π) : Prop extends A.Lawful where
  limit_eq : A.limit = largest
  isDouble : ∀ {x : π}, Scalar.finite x = true → IsDouble (A.value x)
  round_eq : ∀ {q : ℚ}, IsDouble q → A.round q = q
  moderate_iff : ∀ {x : π}, Scalar.finite x = true → (Scalar.moderate x = true ↔ |A.value x| ≤ largest / 2)
  finite_of_add : ∀ {x y : π}, Scalar.finite (x + y) = true → Scalar.finite x = true ∧ Scalar.finite y = true
  finite_of_sub : ∀ {x y : π}, Scalar.finite (x - y) = true → Scalar.finite x = true ∧ Scalar.finite y = true
  finite_of_mul : ∀ {x y : π}, Scalar.finite (x * y) = true → Scalar.finite x = true ∧ Scalar.finite y = true
  finite_of_div : ∀ {x y : π}, Scalar.finite (x / y) = true → Scalar.finite x = true

variable {A : Reading π} {x y : π} {q r : ℚ}

/-- `x` is finite and the number `q`. -/
def Is (A : Reading π) (x : π) (q : ℚ) : Prop := Scalar.finite x = true ∧ A.value x = q

theorem Gives.is (h : A.Gives x q) (hq : |q| ≤ A.limit) : A.Is x (A.round q) := ⟨h.1 hq, h.2 (h.1 hq)⟩

namespace Lawful

variable (hA : A.Lawful)
include hA

theorem round_zero : A.round 0 = 0 := by simpa using hA.round_natCast (n := 0) (by decide)

theorem round_one : A.round 1 = 1 := by simpa using hA.round_natCast (n := 1) (by decide)

theorem round_nonneg (hq : 0 ≤ q) : 0 ≤ A.round q := hA.round_zero ▸ hA.round_mono hq

theorem round_nonpos (hq : q ≤ 0) : A.round q ≤ 0 := hA.round_zero ▸ hA.round_mono hq

theorem round_le_one (hq : q ≤ 1) : A.round q ≤ 1 := hA.round_one ▸ hA.round_mono hq

theorem is_ofNat {n : Nat} (hn : n < 2 ^ 32) : A.Is (Scalar.ofNat n : π) (A.round n) := by
  refine (hA.ofNat n).is ?_
  rw [Nat.abs_cast]
  exact le_trans (by exact_mod_cast hn.le) hA.limit_ge

theorem is_zero : A.Is (0 : π) 0 := by
  have h := hA.is_ofNat (n := 0) (by decide)
  rwa [Nat.cast_zero, hA.round_zero] at h

theorem is_one : A.Is (1 : π) 1 := by
  have h := hA.is_ofNat (n := 1) (by decide)
  rwa [Nat.cast_one, hA.round_one] at h

theorem lt_iff_lt (hx : A.Is x q) (hy : A.Is y r) : x < y ↔ q < r := by rw [hA.lt_iff hx.1 hy.1, hx.2, hy.2]

theorem le_iff_le (hx : A.Is x q) (hy : A.Is y r) : x ≤ y ↔ q ≤ r := by rw [hA.le_iff hx.1 hy.1, hx.2, hy.2]

theorem beq_iff_eq (hx : A.Is x q) (hy : A.Is y r) : (x == y) = true ↔ q = r := by
  rw [hA.beq_iff hx.1 hy.1, hx.2, hy.2]

end Lawful

end Reading

/-! ## Doubles -/

def doubles : Reading Float where
  value := Decimal.value
  round := Decimal.nearestDouble
  limit := largest

theorem doubles_ofDoubles : doubles.OfDoubles where
  round_mono := Decimal.nearestDouble_monotone
  round_natCast {n} hn := by
    have h := Decimal.isDouble_natCast_mul (m := n) (e := 0) (by omega) (by decide) (by decide)
    rw [zpow_zero, mul_one] at h
    exact h.nearestDouble_eq
  limit_ge := Decimal.le_largest (by norm_num)
  lt_iff := Decimal.lt_iff_value
  le_iff := Decimal.le_iff_value
  beq_iff := Decimal.beq_iff_value
  ofNat := Decimal.rounds_ofNat
  add := Decimal.rounds_add
  sub := Decimal.rounds_sub
  mul := Decimal.rounds_mul
  div := Decimal.rounds_div
  nearest := Decimal.nearest_eq_floor
  limit_eq := rfl
  isDouble := Decimal.isDouble_value
  round_eq h := h.nearestDouble_eq
  moderate_iff := Decimal.isModerate_iff
  finite_of_add := Decimal.isFinite_of_add
  finite_of_sub := Decimal.isFinite_of_sub
  finite_of_mul := Decimal.isFinite_of_mul
  finite_of_div := Decimal.isFinite_of_div

theorem doubles_lawful : doubles.Lawful := doubles_ofDoubles.toLawful

end PriceBoard
