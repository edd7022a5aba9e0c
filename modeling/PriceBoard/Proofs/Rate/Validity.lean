import PriceBoard.Rate.Validity

/-!
# What valid rates are

The key of a valid rate is not blank, its prices are finite, and its mid lies
between its bid and its ask (`IsValid.wellFormed`).
-/

namespace PriceBoard

open Float.Model (UnpackedFloat)

theorem exists_compare {a b : UnpackedFloat} (ha : a.isFinite) (hb : b.isFinite) :
    ∃ o, a.compare b = some o ∧ b.compare a = some o.swap := by
  cases a with
  | notANumber | infinity => cases ha
  | zero s =>
    cases b with
    | notANumber | infinity => cases hb
    | zero => exact ⟨.eq, rfl, rfl⟩
    | finite t => cases t <;> exact ⟨_, rfl, rfl⟩
  | finite s m e hm =>
    cases b with
    | notANumber | infinity => cases hb
    | zero => cases s <;> exact ⟨_, rfl, rfl⟩
    | finite t n f hn =>
      have hswap : (compare f e).then (compare n m) = ((compare e f).then (compare m n)).swap := by
        rw [Ordering.swap_then, Int.compare_swap, Nat.compare_swap]
      cases s <;> cases t
      -- between negative numbers a larger magnitude is the smaller one
      · exact ⟨_, rfl, congrArg (fun o : Ordering => some o.swap) hswap⟩
      · exact ⟨_, rfl, rfl⟩
      · exact ⟨_, rfl, rfl⟩
      · exact ⟨_, rfl, congrArg some hswap⟩

theorem le_of_not_lt_of_isFinite {x y : Float} (hx : x.isFinite) (hy : y.isFinite) (h : ¬ y < x) : x ≤ y := by
  obtain ⟨o, hxy, hyx⟩ := exists_compare (a := x.toModel.unpack) (b := y.toModel.unpack) hx hy
  have hlt : ¬ (y.toModel.unpack.lt x.toModel.unpack) = true := fun hlt => h (decide_eq_true hlt)
  have hle : (x.toModel.unpack.le y.toModel.unpack) = true := by
    rw [UnpackedFloat.lt, hyx] at hlt
    rw [UnpackedFloat.le, hxy]
    cases o with
    | gt => exact absurd rfl hlt
    | lt | eq => rfl
  exact decide_eq_true hle

namespace Rate

structure WellFormed (r : Rate Float) : Prop where
  key : Text.isBlankText r.key = false
  bid : r.bid.isFinite
  ask : r.ask.isFinite
  mid : r.mid.isFinite
  bid_le_mid : r.bid ≤ r.mid
  mid_le_ask : r.mid ≤ r.ask

theorem IsValid.wellFormed {r : Rate Float} (h : r.IsValid) : r.WellFormed := by
  unfold IsValid fault? at h
  by_cases hk : Text.isBlankText r.key
  · rw [if_pos hk] at h
    cases h
  rw [if_neg hk] at h
  by_cases hf : Scalar.finite r.bid ∧ Scalar.finite r.ask ∧ Scalar.finite r.mid
  · rw [if_neg (not_not_intro hf)] at h
    by_cases hc : r.ask < r.bid
    · rw [if_pos hc] at h
      cases h
    rw [if_neg hc] at h
    by_cases hm : r.mid < r.bid ∨ r.ask < r.mid
    · rw [if_pos hm] at h
      cases h
    obtain ⟨hlow, hhigh⟩ := not_or.mp hm
    obtain ⟨hbid, hask, hmid⟩ := hf
    exact ⟨by simpa using hk, hbid, hask, hmid, le_of_not_lt_of_isFinite hbid hmid hlow,
      le_of_not_lt_of_isFinite hmid hask hhigh⟩
  · rw [if_pos hf] at h
    cases h

end Rate

end PriceBoard
