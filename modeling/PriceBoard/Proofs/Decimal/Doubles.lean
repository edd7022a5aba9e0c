import PriceBoard.Decimal.Binary
import Mathlib.Algebra.Group.Nat.Defs
import Mathlib.Tactic.Common

/-!
# What the parts of a double determine

The bits of a double are a sign, an exponent and a fraction. `split` reads them
as the arithmetic does (`unpack_eq`), every canonical magnitude is that of a
double (`split_pack`), and a finite double is determined by its parts
(`eq_of_split_eq`).
-/

namespace PriceBoard.Decimal

open Float.Model Float.Model.UnpackedFloat

/-! ## Fields -/

structure Fields where
  negative : Bool
  exponent : Nat
  fraction : Nat

namespace Fields

def bits (f : Fields) : Nat := f.negative.toNat * 2 ^ 63 + f.exponent * 2 ^ 52 + f.fraction

structure Fit (f : Fields) : Prop where
  exponent : f.exponent < 2 ^ 11
  fraction : f.fraction < 2 ^ 52

def parts (f : Fields) : Parts :=
  if f.exponent = 2047 then
    if f.fraction = 0 then .infinite f.negative else .nan
  else if f.exponent = 0 then .finite f.negative ⟨f.fraction, -1074, false⟩
  else
    .finite f.negative
      ⟨2 ^ 52 + f.fraction, Int.ofNat f.exponent - 1075, f.fraction == 0 && f.exponent != 1⟩

end Fields

theorem exists_fields (x : Float) : ∃ f : Fields, f.Fit ∧ x.toBits.toNat = f.bits := by
  have hlt : x.toBits.toNat < 2 ^ 64 := x.toBits.toNat_lt
  refine ⟨⟨decide (x.toBits.toNat / 2 ^ 63 = 1), x.toBits.toNat / 2 ^ 52 % 2 ^ 11, x.toBits.toNat % 2 ^ 52⟩,
    ⟨by dsimp only; omega, by dsimp only; omega⟩, ?_⟩
  unfold Fields.bits
  dsimp only
  rcases Nat.lt_or_ge x.toBits.toNat (2 ^ 63) with h | h
  · rw [decide_eq_false (by omega), Bool.toNat_false]
    omega
  · rw [decide_eq_true (by omega), Bool.toNat_true]
    omega

theorem eq_of_toBits_toNat {x y : Float} (h : x.toBits.toNat = y.toBits.toNat) : x = y := by
  have hbits : x.toBits = y.toBits := UInt64.toNat_inj.mp h
  obtain ⟨⟨c, hc⟩⟩ := x
  obtain ⟨⟨d, hd⟩⟩ := y
  obtain rfl : c = d := hbits
  rfl

theorem split_eq_parts {x : Float} {f : Fields} (hf : f.Fit) (hx : x.toBits.toNat = f.bits) :
    split x = f.parts := by
  obtain ⟨negative, exponent, fraction⟩ := f
  obtain ⟨he, hfr⟩ := hf
  dsimp only at he hfr
  have hbits : x.toBits.toNat = negative.toNat * 2 ^ 63 + exponent * 2 ^ 52 + fraction := hx
  have hn := Bool.toNat_lt negative
  have h1 : x.toBits.toNat / 2 ^ 52 % 2 ^ 11 = exponent := by omega
  have h2 : x.toBits.toNat % 2 ^ 52 = fraction := by omega
  have h3 : (x.toBits.toNat / 2 ^ 63 == 1) = negative := by
    cases negative <;> simp only [Bool.toNat_false, Bool.toNat_true] at hbits
    · exact beq_false_of_ne (by omega)
    · exact beq_iff_eq.mpr (by omega)
  unfold split Fields.parts
  simp only [Nat.pow_eq, h1, h2, h3]

/-! ## Magnitudes -/

structure Binary.Canonical (b : Binary) : Prop where
  lt : b.m < 2 ^ 53
  least : -1074 ≤ b.q
  most : b.q ≤ 971
  normal : 2 ^ 52 ≤ b.m ∨ b.q = -1074
  narrowBelow : b.narrowBelow = (b.m == 2 ^ 52 && b.q != -1074)

def Binary.fields (b : Binary) (negative : Bool) : Fields :=
  if b.m < 2 ^ 52 then ⟨negative, 0, b.m⟩ else ⟨negative, (b.q + 1075).toNat, b.m - 2 ^ 52⟩

theorem Fields.parts_eq_finite {f : Fields} (hf : f.Fit) {negative : Bool} {b : Binary}
    (h : f.parts = .finite negative b) : b.Canonical ∧ b.fields negative = f := by
  obtain ⟨sign, exponent, fraction⟩ := f
  obtain ⟨he, hfr⟩ := hf
  dsimp only at he hfr
  unfold Fields.parts at h
  dsimp only at h
  by_cases htop : exponent = 2047
  · rw [if_pos htop] at h
    by_cases hz : fraction = 0
    · rw [if_pos hz] at h
      cases h
    · rw [if_neg hz] at h
      cases h
  rw [if_neg htop] at h
  by_cases hlow : exponent = 0
  · rw [if_pos hlow] at h
    cases h
    refine ⟨⟨?_, Int.le_refl _, by dsimp only; omega, .inr rfl, ?_⟩, ?_⟩
    · dsimp only
      omega
    · dsimp only
      rw [beq_false_of_ne (by omega), Bool.false_and]
    · rw [Binary.fields, if_pos hfr, hlow]
  · rw [if_neg hlow] at h
    cases h
    simp only [Int.ofNat_eq_natCast]
    refine ⟨⟨?_, ?_, ?_, .inl (Nat.le_add_right _ _), ?_⟩, ?_⟩
    · dsimp only
      omega
    · dsimp only
      omega
    · dsimp only
      omega
    · dsimp only
      rw [Bool.eq_iff_iff, Bool.and_eq_true, Bool.and_eq_true, beq_iff_eq, beq_iff_eq, bne_iff_ne, bne_iff_ne]
      omega
    · unfold Binary.fields
      rw [if_neg (by dsimp only; omega), Fields.mk.injEq]
      exact ⟨rfl, by dsimp only; omega, by dsimp only; omega⟩

theorem Binary.Canonical.fields {b : Binary} (hb : b.Canonical) (negative : Bool) :
    (b.fields negative).Fit ∧ (b.fields negative).parts = .finite negative b := by
  obtain ⟨m, q, narrow⟩ := b
  obtain ⟨hlt, hleast, hmost, hnormal, hnarrow⟩ := hb
  dsimp only at hlt hleast hmost hnormal hnarrow
  unfold Binary.fields Fields.parts
  dsimp only
  by_cases hm : m < 2 ^ 52
  · obtain rfl : q = -1074 := hnormal.resolve_left (by omega)
    rw [if_pos hm]
    refine ⟨⟨by dsimp only; omega, hm⟩, ?_⟩
    rw [hnarrow, beq_false_of_ne (show m ≠ 2 ^ 52 by omega), Bool.false_and]
    rfl
  · rw [if_neg hm]
    refine ⟨⟨by dsimp only; omega, by dsimp only; omega⟩, ?_⟩
    dsimp only
    rw [if_neg (by omega), if_neg (by omega), hnarrow, Parts.finite.injEq, Binary.mk.injEq,
      Int.ofNat_eq_natCast]
    refine ⟨rfl, by omega, by omega, ?_⟩
    rw [Bool.eq_iff_iff, Bool.and_eq_true, Bool.and_eq_true, beq_iff_eq, beq_iff_eq, bne_iff_ne, bne_iff_ne]
    omega

theorem canonical_of_split {x : Float} {negative : Bool} {b : Binary} (h : split x = .finite negative b) :
    b.Canonical := by
  obtain ⟨f, hf, hx⟩ := exists_fields x
  exact (Fields.parts_eq_finite hf (split_eq_parts hf hx ▸ h)).1

theorem eq_of_split_eq {x y : Float} {negative : Bool} {b : Binary} (hx : split x = .finite negative b)
    (hy : split y = .finite negative b) : x = y := by
  have bits_eq : ∀ {z : Float}, split z = .finite negative b → z.toBits.toNat = (b.fields negative).bits := by
    intro z hz
    obtain ⟨f, hf, hbits⟩ := exists_fields z
    rw [hbits, (Fields.parts_eq_finite hf (split_eq_parts hf hbits ▸ hz)).2]
  exact eq_of_toBits_toNat ((bits_eq hx).trans (bits_eq hy).symm)

/-! ## What arithmetic works on -/

def signOf (negative : Bool) : Sign := if negative then .negative else .positive

def Parts.unpacked : Parts → UnpackedFloat
  | .nan => .notANumber
  | .infinite negative => .infinity (signOf negative)
  | .finite negative b =>
    if h : b.m = 0 then .zero (signOf negative)
    else .finite (signOf negative) b.m b.q (Nat.pos_of_ne_zero h)

theorem Parts.unpacked_zero {b : Binary} (h : b.m = 0) (negative : Bool) :
    (Parts.finite negative b).unpacked = .zero (signOf negative) := dif_pos h

theorem Parts.unpacked_pos {b : Binary} (h : 0 < b.m) (negative : Bool) :
    (Parts.finite negative b).unpacked = .finite (signOf negative) b.m b.q h := dif_neg (Nat.ne_of_gt h)

section Unpacked

variable {f : Fields} (hf : f.Fit) {w : BitVec Format.binary64.numBits} (hw : w.toNat = f.bits)
include hf hw

theorem unpackMantissa_toNat : (unpackMantissa w).toNat = f.fraction := by
  have hfr := hf.fraction
  unfold unpackMantissa
  simp only [BitVec.toNat_cast, BitVec.extractLsb_toNat, Nat.shiftRight_zero, hw, Fields.bits]
  omega

theorem unpackExponent_toNat : (unpackExponent w).toNat = f.exponent := by
  have hfr := hf.fraction
  have he := hf.exponent
  unfold unpackExponent
  simp only [BitVec.toNat_cast, BitVec.extractLsb_toNat, Nat.shiftRight_eq_div_pow, hw, Fields.bits]
  omega

theorem ofBitVec_unpackSign : Sign.ofBitVec (unpackSign w) = signOf f.negative := by
  have hfr := hf.fraction
  have he := hf.exponent
  have hs : (unpackSign w).toNat = f.negative.toNat := by
    have hn := Bool.toNat_lt f.negative
    unfold unpackSign
    simp only [BitVec.toNat_cast, BitVec.extractLsb_toNat, Nat.shiftRight_eq_div_pow, hw, Fields.bits]
    omega
  unfold Sign.ofBitVec signOf
  cases hn : f.negative <;> rw [hn] at hs
  · rw [if_pos (BitVec.eq_of_toNat_eq hs)]
    rfl
  · rw [if_neg (fun h0 => by rw [h0] at hs; cases hs)]
    rfl

theorem unpack_eq_parts : UnpackedFloat.unpack Format.binary64 w = f.parts.unpacked := by
  have hm := unpackMantissa_toNat hf hw
  have he := unpackExponent_toNat hf hw
  have hfr := hf.fraction
  have hex := hf.exponent
  have htop : unpackExponent w = -1#_ ↔ f.exponent = 2047 := by
    rw [← BitVec.toNat_inj, he]
    rfl
  have hlow : unpackExponent w = 0#_ ↔ f.exponent = 0 := by
    rw [← BitVec.toNat_inj, he]
    rfl
  have hzero : unpackMantissa w = 0#_ ↔ f.fraction = 0 := by
    rw [← BitVec.toNat_inj, hm]
    rfl
  have hmant : (1#1 ++ unpackMantissa w).toNat = 2 ^ 52 + f.fraction := by
    rw [BitVec.toNat_append, ← Nat.shiftLeft_add_eq_or_of_lt (unpackMantissa w).isLt, hm]
    rfl
  have hsign := ofBitVec_unpackSign hf hw
  unfold UnpackedFloat.unpack Fields.parts
  dsimp only
  by_cases h2047 : f.exponent = 2047
  · rw [if_pos (htop.mpr h2047), if_pos h2047, hsign]
    by_cases h0 : f.fraction = 0
    · rw [if_pos (hzero.mpr h0), if_pos h0]
      rfl
    · rw [if_neg (mt hzero.mp h0), if_neg h0]
      rfl
  rw [if_neg (mt htop.mp h2047), if_neg h2047]
  by_cases hsub : f.exponent = 0
  · rw [if_pos (hlow.mpr hsub), if_pos hsub]
    by_cases h0 : f.fraction = 0
    · rw [dif_pos (hzero.mpr h0), Parts.unpacked_zero h0, hsign]
    · rw [dif_neg (mt hzero.mp h0), Parts.unpacked_pos (Nat.pos_of_ne_zero h0), UnpackedFloat.finite.injEq,
        he, hsub]
      exact ⟨hsign, hm, rfl⟩
  · rw [if_neg (mt hlow.mp hsub), if_neg hsub, Parts.unpacked_pos (Nat.add_pos_left (by decide) _),
      UnpackedFloat.finite.injEq, he]
    exact ⟨hsign, hmant, rfl⟩

end Unpacked

theorem unpack_eq (x : Float) : x.toModel.unpack = (split x).unpacked := by
  obtain ⟨f, hf, hx⟩ := exists_fields x
  rw [split_eq_parts hf hx]
  exact unpack_eq_parts hf hx

/-! ## Packing -/

theorem packComponents_toNat (negative : Bool) {e m : Nat} (he : e < 2 ^ 11) (hm : m < 2 ^ 52) :
    (packComponents Format.binary64 (signOf negative) (BitVec.ofNat _ e) (BitVec.ofNat _ m)).toNat =
      (Fields.mk negative e m).bits := by
  have hs : (signOf negative).toBitVec.toNat = negative.toNat := by cases negative <;> rfl
  unfold packComponents Fields.bits
  rw [BitVec.toNat_append, BitVec.toNat_append, ← Nat.shiftLeft_add_eq_or_of_lt (BitVec.isLt _),
    ← Nat.shiftLeft_add_eq_or_of_lt (BitVec.isLt _), hs, BitVec.toNat_ofNat, BitVec.toNat_ofNat,
    Nat.mod_eq_of_lt he, Nat.mod_eq_of_lt hm, Nat.shiftLeft_eq, Nat.shiftLeft_eq]
  dsimp only
  omega

theorem split_pack {b : Binary} (hb : b.Canonical) (negative : Bool) :
    split (.ofModel (.pack (Parts.finite negative b).unpacked)) = .finite negative b := by
  obtain ⟨hfit, hparts⟩ := hb.fields negative
  rw [← hparts]
  refine split_eq_parts hfit ?_
  change (UnpackedFloat.pack Format.binary64 _).toNat = _
  have hlt := hb.lt
  have hleast := hb.least
  have hmost := hb.most
  rw [hparts]
  rcases Nat.eq_zero_or_pos b.m with h0 | hpos
  · rw [Parts.unpacked_zero h0, Binary.fields, if_pos (by omega), h0]
    exact packComponents_toNat negative (by decide) (by decide)
  rw [Parts.unpacked_pos hpos, Binary.fields]
  have hfits : ¬ 2 ^ 11 ≤ (b.q + (1023 : Nat) + (52 : Nat)).toNat + 1 := by omega
  have hexp : (b.q + (1023 : Nat) + (52 : Nat)).toNat = (b.q + 1075).toNat := by omega
  have hpack : UnpackedFloat.pack Format.binary64 (.finite (signOf negative) b.m b.q hpos) =
      if b.m.log2 + 1 = 53 then
        packComponents Format.binary64 (signOf negative) (BitVec.ofNat _ (b.q + 1075).toNat) (BitVec.ofNat _ b.m)
      else packComponents Format.binary64 (signOf negative) 0#_ (BitVec.ofNat _ b.m) := by
    rw [← hexp]
    exact if_neg hfits
  rw [hpack]
  by_cases hm : b.m < 2 ^ 52
  · have hlog := (Nat.log2_lt (Nat.ne_of_gt hpos)).mpr hm
    rw [if_neg (by omega), if_pos hm]
    exact packComponents_toNat negative (by decide) hm
  · have hlog : b.m.log2 = 52 := (Nat.log2_eq_iff (Nat.ne_of_gt hpos)).mpr ⟨by omega, hlt⟩
    have himplicit : BitVec.ofNat 52 b.m = BitVec.ofNat 52 (b.m - 2 ^ 52) := by
      apply BitVec.eq_of_toNat_eq
      rw [BitVec.toNat_ofNat, BitVec.toNat_ofNat]
      omega
    rw [hlog, if_pos rfl, if_neg hm, himplicit]
    exact packComponents_toNat negative (by omega) (by omega)

/-! ## Signs and finiteness -/

theorem Parts.unpacked_neg (negative : Bool) (b : Binary) :
    (Parts.finite negative b).unpacked.neg = (Parts.finite (!negative) b).unpacked := by
  rcases Nat.eq_zero_or_pos b.m with h0 | hpos
  · rw [unpacked_zero h0, unpacked_zero h0]
    cases negative <;> rfl
  · rw [unpacked_pos hpos, unpacked_pos hpos]
    cases negative <;> rfl

theorem split_neg {x : Float} {negative : Bool} {b : Binary} (h : split x = .finite negative b) :
    split (-x) = .finite (!negative) b := by
  change split (.ofModel (.pack x.toModel.unpack.neg)) = _
  rw [unpack_eq, h, Parts.unpacked_neg]
  exact split_pack (canonical_of_split h) _

theorem isFinite_iff {x : Float} : x.isFinite ↔ ∃ negative b, split x = .finite negative b := by
  change x.toModel.unpack.isFinite = true ↔ _
  rw [unpack_eq]
  cases hx : split x with
  | nan => exact ⟨nofun, nofun⟩
  | infinite negative => exact ⟨nofun, nofun⟩
  | finite negative b =>
    refine ⟨fun _ => ⟨negative, b, rfl⟩, fun _ => ?_⟩
    rcases Nat.eq_zero_or_pos b.m with h0 | hpos
    · rw [Parts.unpacked_zero h0]
      rfl
    · rw [Parts.unpacked_pos hpos]
      rfl

end PriceBoard.Decimal
