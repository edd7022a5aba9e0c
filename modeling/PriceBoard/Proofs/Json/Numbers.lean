import PriceBoard.Json.Reader
import PriceBoard.Proofs.Decimal.Digits
import PriceBoard.Proofs.Decimal.ReadBack

/-!
# Doubles on the wire

A finite double is written with a point or an exponent, so that it is never
taken for a whole number, and is read back (`takeReal_realText`). The others are
written as null, which is no number (`takeReal_null`), and nothing that is read
is anything but finite (`isFinite_of_takeReal`).
-/

namespace PriceBoard.Json

open Decimal

/-! ## Results -/

section Results

variable {ε α β : Type} {x : Except ε α} {f : α → Except ε β}

@[simp] theorem ok_bind (a : α) (f : α → Except ε β) : (Except.ok a >>= f) = f a := rfl

theorem bind_eq_ok {b : β} (h : (x >>= f) = .ok b) : ∃ a, x = .ok a ∧ f a = .ok b := by
  cases x with
  | error e => cases h
  | ok a => exact ⟨a, rfl, h⟩

theorem map_eq_ok {g : α → β} {b : β} (h : x.map g = .ok b) : ∃ a, x = .ok a ∧ g a = b := by
  cases x with
  | error e => cases h
  | ok a => exact ⟨a, rfl, Except.ok.inj h⟩

end Results

/-- What stands after a value inside an object or an array. -/
def Follows (rest : List Char) : Prop := ∃ c tail, rest = c :: tail ∧ (c = ',' ∨ c = '\x7d' ∨ c = ']')

theorem Follows.noDigit {rest : List Char} (h : Follows rest) : NoDigit rest := by
  obtain ⟨c, tail, rfl, hc⟩ := h
  intro d hd
  obtain rfl : c = d := Option.some.inj hd
  rcases hc with rfl | rfl | rfl <;> rfl

/-! ## The parts of a number -/

theorem takeDigits_append {ds rest : List Char} (hne : ds ≠ []) (h : AllDigits ds) (hr : NoDigit rest) :
    takeDigits (ds ++ rest) = .ok (ds, rest) := by
  unfold takeDigits
  rw [takeWhile_digits h hr, dropWhile_digits h hr]
  exact if_neg hne

theorem takeWhole_append {ds rest : List Char} (hne : ds ≠ []) (h : AllDigits ds) (hr : NoDigit rest)
    (hlead : ds.head? ≠ some '0' ∨ ds.length = 1) : takeWhole (ds ++ rest) = .ok (ds, rest) := by
  unfold takeWhole
  rw [takeDigits_append hne h hr]
  refine if_neg ?_
  rintro ⟨hzero, hlen⟩
  rcases hlead with h0 | h1
  · exact h0 hzero
  · omega

/-- The sign, the whole part, the places after a point and the exponent, if there are any. -/
structure Spelling where
  negative : Bool
  whole : List Char
  places : List Char
  exponent : Option Int

namespace Spelling

def exponentText : Option Int → List Char
  | none => []
  | some e => 'e' :: (if e < 0 then '-' else '+') :: digitChars e.natAbs

def text (s : Spelling) : List Char :=
  (if s.negative then ['-'] else []) ++ s.whole ++ (if s.places = [] then [] else '.' :: s.places) ++
    exponentText s.exponent

structure WellFormed (s : Spelling) : Prop where
  whole_ne : s.whole ≠ []
  whole : AllDigits s.whole
  places : AllDigits s.places
  lead : s.whole.head? ≠ some '0' ∨ s.whole.length = 1

variable {s : Spelling} {rest : List Char}

theorem noDigit_exponentText (e : Option Int) (hr : Follows rest) : NoDigit (exponentText e ++ rest) := by
  cases e with
  | none => exact hr.noDigit
  | some e =>
    intro c hc
    obtain rfl : 'e' = c := Option.some.inj hc
    rfl

theorem takeExponent_text (e : Option Int) (hr : Follows rest) :
    takeExponent (exponentText e ++ rest) = .ok (e, rest) := by
  cases e with
  | none =>
    obtain ⟨c, tail, rfl, hc⟩ := hr
    rcases hc with rfl | rfl | rfl <;> rfl
  | some e =>
    have hdigits := takeDigits_append (digitChars_ne_nil e.natAbs) (allDigits_digitChars _) hr.noDigit
    by_cases hneg : e < 0
    · simp only [exponentText, if_pos hneg, List.cons_append, takeExponent, takeSign, true_or, if_true, hdigits,
        natOfDigits_digitChars]
      congr 3
      omega
    · simp only [exponentText, if_neg hneg, List.cons_append, takeExponent, takeSign, true_or, if_true, hdigits,
        natOfDigits_digitChars, Bool.false_eq_true, if_false]
      congr 3
      omega

theorem takePlaces_text {places : List Char} (hp : AllDigits places) (e : Option Int) (hr : Follows rest) :
    takePlaces ((if places = [] then [] else '.' :: places) ++ (exponentText e ++ rest)) =
      .ok (places, exponentText e ++ rest) := by
  by_cases hne : places = []
  · rw [if_pos hne, hne, List.nil_append]
    cases e with
    | none =>
      obtain ⟨c, tail, rfl, hc⟩ := hr
      rcases hc with rfl | rfl | rfl <;> rfl
    | some e => rfl
  · rw [if_neg hne]
    exact takeDigits_append hne hp (noDigit_exponentText e hr)

theorem takeNumber_text (hs : s.WellFormed) (hr : Follows rest) :
    takeNumber (s.text ++ rest) =
      (assemble s.negative s.whole s.places s.exponent).map (·, rest) := by
  obtain ⟨negative, whole, places, exponent⟩ := s
  obtain ⟨hne, hwhole, hplaces, hlead⟩ := hs
  have hpoint : NoDigit ((if places = [] then [] else '.' :: places) ++ (exponentText exponent ++ rest)) := by
    by_cases h : places = []
    · rw [if_pos h]
      exact noDigit_exponentText exponent hr
    · rw [if_neg h]
      intro c hc
      obtain rfl : '.' = c := Option.some.inj hc
      rfl
  have hparts : takeNumber ((if negative then ['-'] else []) ++ (whole ++
      ((if places = [] then [] else '.' :: places) ++ (exponentText exponent ++ rest)))) =
        (assemble negative whole places exponent).map (·, rest) := by
    have hunsigned := takeWhole_append hne hwhole hpoint hlead
    cases negative with
    | true =>
      simp only [takeNumber, if_true, List.cons_append, List.nil_append, hunsigned, ok_bind,
        takePlaces_text hplaces exponent hr, takeExponent_text exponent hr]
      cases assemble true whole places exponent <;> rfl
    | false =>
      obtain ⟨d, ds, rfl⟩ := List.exists_cons_of_ne_nil hne
      have hminus : d ≠ '-' := by
        rintro rfl
        exact absurd (hwhole '-' List.mem_cons_self) (by decide)
      unfold takeNumber
      split
      rename_i minus cs hsign
      split at hsign
      · rename_i rest' heq
        exact absurd (List.cons.inj heq).1 hminus
      · cases hsign
        simp only [Bool.false_eq_true, if_false, List.nil_append, hunsigned, ok_bind,
          takePlaces_text hplaces exponent hr, takeExponent_text exponent hr]
        cases assemble false (d :: ds) places exponent <;> rfl
  simpa only [text, List.append_assoc] using hparts

/-- The decimal that the parts spell. -/
def digits (s : Spelling) : Digits := ⟨natOfDigits (s.whole ++ s.places), s.exponent.getD 0 - s.places.length⟩

/-- A spelling with a point or an exponent of a decimal of the value of `d`. -/
structure Spells (s : Spelling) (d : Digits) : Prop extends s.WellFormed where
  isReal : s.places ≠ [] ∨ s.exponent ≠ none
  value : s.digits.value = d.value

theorem exists_point_zero (d : Digits) (he : 0 ≤ d.exponent) (hd : d.digits = 0 → d.exponent = 0) :
    ∃ s : Spelling, s.Spells d ∧ s.negative = false ∧ wire.positional d = s.text := by
  have hall := allDigits_digitChars d.digits
  have htext : wire.positional d = digitChars d.digits ++ List.replicate d.exponent.toNat '0' ++ ['.', '0'] := by
    unfold Layout.positional
    exact if_pos he
  refine ⟨⟨false, digitChars d.digits ++ List.replicate d.exponent.toNat '0', ['0'], none⟩, ?_, rfl, ?_⟩
  · refine ⟨⟨?_, ?_, ?_, ?_⟩, .inl (List.cons_ne_nil _ _), ?_⟩
    · exact List.append_ne_nil_of_left_ne_nil (digitChars_ne_nil _) _
    · exact hall.append (allDigits_replicate _)
    · exact allDigits_replicate 1
    · rcases Nat.eq_zero_or_pos d.digits with h0 | hpos
      · rw [h0, hd h0]
        exact .inr rfl
      · refine .inl ?_
        dsimp only
        rw [List.head?_append_of_ne_nil _ (digitChars_ne_nil _)]
        exact head_digitChars hpos
    · have hnat : natOfDigits (digitChars d.digits ++ List.replicate d.exponent.toNat '0' ++ ['0']) =
          d.digits * 10 ^ d.exponent.toNat * 10 := by
        rw [natOfDigits_append, natOfDigits_append, natOfDigits_replicate, natOfDigits_digitChars,
          List.length_replicate]
        rfl
      unfold digits Digits.value
      dsimp only
      rw [hnat, Nat.cast_mul, Nat.cast_mul, Nat.cast_pow, Nat.cast_ofNat, ← zpow_natCast,
        Int.toNat_of_nonneg he, mul_assoc _ (10 : ℚ)]
      norm_num
  · rw [htext]
    simp [text, exponentText]

/-- The part before the point of a row that has a digit there. -/
theorem lead_take_padZeros {n places : Nat} {ds : List Char} (hds : padZeros (places + 1) (digitChars n) = ds) :
    (ds.take (ds.length - places)).head? ≠ some '0' ∨ (ds.take (ds.length - places)).length = 1 := by
  by_cases hshort : (digitChars n).length ≤ places + 1
  · have hlen := length_padZeros hshort
    rw [hds] at hlen
    refine .inr ?_
    rw [List.length_take]
    omega
  -- without padding the first digit is that of a number with several digits
  · have hpos : 0 < n := by
      rcases Nat.eq_zero_or_pos n with rfl | h
      · exact absurd (Nat.le_add_left 1 places) hshort
      · exact h
    have hsame : ds = digitChars n := by
      rw [← hds, padZeros, Nat.sub_eq_zero_of_le (by omega)]
      rfl
    refine .inl ?_
    rw [List.head?_take, hsame, if_neg (by omega)]
    exact head_digitChars hpos

theorem positional_neg (l : Layout) {d : Digits} {places : Nat} (hp : 0 < places)
    (he : d.exponent = -(places : Int)) {ds : List Char} (hds : padZeros (places + 1) (digitChars d.digits) = ds) :
    l.positional d = ds.take (ds.length - places) ++ '.' :: ds.drop (ds.length - places) := by
  have hplaces : (-d.exponent).toNat = places := by omega
  unfold Layout.positional
  dsimp only
  rw [if_neg (by omega), hplaces, hds]

theorem exists_places (d : Digits) (he : d.exponent < 0) :
    ∃ s : Spelling, s.Spells d ∧ s.negative = false ∧ wire.positional d = s.text := by
  obtain ⟨places, hplaces⟩ : ∃ n : Nat, d.exponent = -(n : Int) := ⟨d.exponent.natAbs, by omega⟩
  obtain ⟨ds, hds⟩ : ∃ ds, padZeros (places + 1) (digitChars d.digits) = ds := ⟨_, rfl⟩
  have hall : AllDigits ds := hds ▸ allDigits_padZeros _ (allDigits_digitChars _)
  have hval : natOfDigits ds = d.digits := by
    rw [← hds, natOfDigits_padZeros, natOfDigits_digitChars]
  have hlen : places < ds.length := hds ▸ le_length_padZeros (places + 1) _
  have hdrop : (ds.drop (ds.length - places)).length = places := by
    rw [List.length_drop]
    omega
  have hne : ds.drop (ds.length - places) ≠ [] := List.ne_nil_of_length_pos (by omega)
  have hwhole : ds.take (ds.length - places) ≠ [] := List.ne_nil_of_length_pos (by rw [List.length_take]; omega)
  refine ⟨⟨false, ds.take (ds.length - places), ds.drop (ds.length - places), none⟩, ?_, rfl, ?_⟩
  · refine ⟨⟨hwhole, fun c hc => hall c (List.mem_of_mem_take hc), fun c hc => hall c (List.mem_of_mem_drop hc),
      lead_take_padZeros hds⟩, .inl hne, ?_⟩
    unfold digits Digits.value
    dsimp only
    rw [List.take_append_drop, hval, hdrop, hplaces, Option.getD_none, Int.zero_sub]
  · rw [positional_neg wire (by omega) hplaces hds, text]
    dsimp only
    rw [if_neg hne]
    simp [exponentText]

theorem exists_scientific (d : Digits) :
    ∃ s : Spelling, s.Spells d ∧ s.negative = false ∧ Layout.scientific d = s.text := by
  have hall := allDigits_digitChars d.digits
  have hval := natOfDigits_digitChars d.digits
  unfold Layout.scientific
  dsimp only
  obtain ⟨c, cs, hcs⟩ := List.exists_cons_of_ne_nil (digitChars_ne_nil d.digits)
  rw [hcs] at hall hval ⊢
  refine ⟨⟨false, [c], cs, some (d.exponent + cs.length)⟩, ?_, rfl, ?_⟩
  · refine ⟨⟨List.cons_ne_nil _ _, ?_, ?_, .inr rfl⟩, .inr (by simp), ?_⟩
    · intro x hx
      exact hall x (by rw [List.mem_singleton.mp hx]; exact List.mem_cons_self)
    · intro x hx
      exact hall x (List.mem_cons_of_mem c hx)
    · unfold Digits.value digits
      simp only [List.singleton_append, hval, Option.getD_some]
      rw [show d.exponent + (cs.length : Int) - cs.length = d.exponent by omega]
  · cases cs with
    | nil => rfl
    | cons c' cs => rfl

end Spelling

/-! ## Prices -/

theorem shortest_zero {b : Binary} (h : b.m = 0) (tie : Tie) : shortest tie b = ⟨0, 0⟩ := if_pos h

theorem shortest_exponent {b : Binary} {tie : Tie} (h : (shortest tie b).digits = 0) :
    (shortest tie b).exponent = 0 := by
  rcases Nat.eq_zero_or_pos b.m with h0 | hpos
  · rw [shortest_zero h0]
  · have hvalue := (shortest_covers hpos tie).pos hpos
    rw [Digits.value, h, Nat.cast_zero, zero_mul] at hvalue
    exact absurd hvalue (lt_irrefl 0)

theorem exists_spelling (b : Binary) (negative : Bool) :
    ∃ s : Spelling, s.Spells (shortest .toEven b) ∧ s.negative = negative ∧ wire.finite negative b = s.text := by
  obtain ⟨s, hs, hneg, htext⟩ :
      ∃ s : Spelling, s.Spells (shortest .toEven b) ∧ s.negative = false ∧ wire.magnitude b = s.text := by
    have hlayout : wire.magnitude b = wire.positional (shortest .toEven b) ∨
        wire.magnitude b = Layout.scientific (shortest .toEven b) := ite_eq_or_eq _ _ _
    rcases hlayout with h | h <;> rw [h]
    · by_cases he : 0 ≤ (shortest .toEven b).exponent
      · exact Spelling.exists_point_zero _ he shortest_exponent
      · exact Spelling.exists_places _ (by omega)
    · exact Spelling.exists_scientific _
  refine ⟨{ s with negative }, ⟨⟨hs.whole_ne, hs.whole, hs.places, hs.lead⟩, hs.isReal, hs.value⟩, rfl, ?_⟩
  unfold Layout.finite
  rw [htext, Spelling.text, Spelling.text, hneg]
  simp

theorem split_digits {b : Binary} (hb : b.Canonical) {s : Spelling} (hs : s.Spells (shortest .toEven b)) :
    split (ofDecimal s.digits.digits s.digits.exponent) = .finite false b := by
  have hval := hs.value
  rcases Nat.eq_zero_or_pos b.m with h0 | hpos
  · obtain ⟨m, q, narrow⟩ := b
    obtain rfl : m = 0 := h0
    obtain rfl : q = -1074 := hb.normal.resolve_left (Nat.not_le_of_lt (Nat.two_pow_pos 52))
    obtain rfl : narrow = false := hb.narrowBelow
    rw [shortest_zero rfl, Digits.value, Digits.value, Nat.cast_zero, zero_mul] at hval
    have hzero : s.digits.digits = 0 := by
      exact_mod_cast (mul_eq_zero.mp hval).resolve_right (ten_zpow_pos _).ne'
    rw [ofDecimal, if_pos hzero]
    exact split_zero
  · refine split_ofDecimal hb hpos ?_
    rw [hval]
    exact shortest_covers hpos .toEven

theorem takeNumber_finite {x : Float} {negative : Bool} {b : Binary} (hx : split x = .finite negative b)
    {rest : List Char} (hr : Follows rest) :
    takeNumber (wire.finite negative b ++ rest) = .ok (.real x, rest) := by
  obtain ⟨s, hs, hneg, htext⟩ := exists_spelling b negative
  have hsplit := split_digits (canonical_of_split hx) hs
  have hfinite : (ofDecimal s.digits.digits s.digits.exponent).isFinite := isFinite_iff.mpr ⟨_, _, hsplit⟩
  have hsigned : signed negative (ofDecimal s.digits.digits s.digits.exponent) = x := by
    refine eq_of_split_eq ?_ hx
    cases negative with
    | false => exact hsplit
    | true => exact split_neg hsplit
  have hassemble : assemble negative s.whole s.places s.exponent = .ok (.real x) := by
    have hreal : ¬ (s.places = [] ∧ s.exponent = none) := by
      rintro ⟨hp, he⟩
      rcases hs.isReal with h | h
      · exact h hp
      · exact h he
    unfold assemble
    dsimp only
    rw [if_neg fun h => hreal ⟨h.1, h.2.1⟩, if_neg fun h => hreal ⟨h.1, h.2.1⟩]
    rw [← hsigned]
    exact if_pos hfinite
  rw [htext, Spelling.takeNumber_text hs.toWellFormed hr, hneg, hassemble]
  rfl

theorem exists_cons_finite (b : Binary) (negative : Bool) :
    ∃ c cs, wire.finite negative b = c :: cs ∧ (c = '-' ∨ isDigit c = true) := by
  obtain ⟨s, hs, -, htext⟩ := exists_spelling b negative
  rw [htext, Spelling.text]
  cases s.negative with
  | true => exact ⟨'-', _, rfl, .inl rfl⟩
  | false =>
    have hdigits := hs.whole
    obtain ⟨d, ds, hwhole⟩ := List.exists_cons_of_ne_nil hs.whole_ne
    rw [hwhole] at hdigits ⊢
    exact ⟨d, _, rfl, .inr (hdigits d List.mem_cons_self)⟩

theorem isSpace_of_isDigit {c : Char} (h : isDigit c = true) : isSpace c = false := by
  unfold isSpace
  by_contra hspace
  simp only [Bool.not_eq_false, Bool.or_eq_true, beq_iff_eq] at hspace
  rcases hspace with ((rfl | rfl) | rfl) | rfl <;> exact absurd h (by decide)

theorem takeReal_realText {x : Float} (hx : x.isFinite) {rest : List Char} (hr : Follows rest) :
    takeReal (realText x ++ rest) = .ok (x, rest) := by
  obtain ⟨negative, b, hsplit⟩ := isFinite_iff.mp hx
  have htext : realText x = wire.finite negative b := by
    unfold realText
    rw [hsplit]
  obtain ⟨c, cs, hcs, hc⟩ := exists_cons_finite b negative
  have hspace : isSpace c = false := by
    rcases hc with rfl | hc
    · rfl
    · exact isSpace_of_isDigit hc
  have hskip : skipSpace (wire.finite negative b ++ rest) = c :: (cs ++ rest) := by
    rw [hcs, skipSpace, List.cons_append, List.dropWhile_cons, hspace]
    rfl
  have htake := takeNumber_finite hsplit hr
  rw [hcs, List.cons_append] at htake
  unfold takeReal
  rw [htext, hskip]
  dsimp only
  rw [if_pos hc, htake]
  rfl

theorem realText_eq_null {x : Float} (hx : ¬ x.isFinite) : realText x = ['n', 'u', 'l', 'l'] := by
  unfold realText
  cases hsplit : split x with
  | nan => rfl
  | infinite negative => rfl
  | finite negative b => exact absurd (isFinite_iff.mpr ⟨negative, b, hsplit⟩) hx

theorem takeReal_null {x : Float} (hx : ¬ x.isFinite) (rest : List Char) :
    takeReal (realText x ++ rest) = .error (.shape (.wrongKind .null "f64")) := by
  rw [realText_eq_null hx]
  rfl

/-! ## What is read -/

theorem isFinite_signed {x : Float} (hx : x.isFinite) (negative : Bool) : (signed negative x).isFinite := by
  cases negative with
  | false => exact hx
  | true =>
    obtain ⟨sign, b, hsplit⟩ := isFinite_iff.mp hx
    exact isFinite_iff.mpr ⟨!sign, b, split_neg hsplit⟩

theorem isFinite_of_assemble {negative : Bool} {whole places : List Char} {exponent : Option Int} {n : Number}
    (h : assemble negative whole places exponent = .ok n) : n.toFloat.isFinite := by
  unfold assemble at h
  dsimp only at h
  split at h
  · rename_i hwhole
    cases h
    refine isFinite_signed ?_ _
    rw [Int.natAbs_natCast]
    exact isFinite_ofDecimal_nat hwhole.2.2.2
  · split at h
    · rename_i hwhole
      cases h
      refine isFinite_signed ?_ _
      rw [Int.natAbs_neg, Int.natAbs_natCast]
      exact isFinite_ofDecimal_nat (lt_of_le_of_lt hwhole.2.2.2.2 (by decide))
    · split at h
      · rename_i hfinite
        cases h
        exact isFinite_signed hfinite negative
      · cases h

theorem isFinite_of_takeNumber {cs rest : List Char} {n : Number} (h : takeNumber cs = .ok (n, rest)) :
    n.toFloat.isFinite := by
  unfold takeNumber at h
  split at h
  obtain ⟨⟨whole, cs₁⟩, -, h⟩ := bind_eq_ok h
  obtain ⟨⟨places, cs₂⟩, -, h⟩ := bind_eq_ok h
  obtain ⟨⟨exponent, cs₃⟩, -, h⟩ := bind_eq_ok h
  obtain ⟨m, hm, h⟩ := bind_eq_ok h
  cases h
  exact isFinite_of_assemble hm

theorem isFinite_of_takeReal {text rest : List Char} {x : Float} (h : takeReal text = .ok (x, rest)) :
    x.isFinite := by
  have hkind : ∀ cs : List Char, wrongKind "f64" cs ≠ .ok (x, rest) := by
    intro cs hcs
    unfold wrongKind at hcs
    split at hcs <;> cases hcs
  unfold takeReal at h
  split at h
  · split at h
    · obtain ⟨⟨n, cs⟩, hn, heq⟩ := map_eq_ok h
      cases heq
      exact isFinite_of_takeNumber hn
    · exact absurd h (hkind _)
  · cases h

end PriceBoard.Json
