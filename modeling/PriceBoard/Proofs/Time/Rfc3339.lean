import PriceBoard.Proofs.Decimal.Digits
import PriceBoard.Proofs.Time.Calendar
import PriceBoard.Time.Rfc3339

/-!
# Times are read back

Whatever spelling the reader accepts, the time it answers can be written
(`representable_of_read`), and what is written is read as the same time
(`read_wire`).
-/

namespace PriceBoard.Time

open Decimal
open Text (isBlank dropBlanks)

/-- The times that have an RFC 3339 text: years within the calendar's range, and
a leap second only after the 59th second of a minute. -/
structure Timestamp.Representable (t : Timestamp) : Prop where
  firstYear_le : firstYear ≤ (Date.ofDays t.day).year
  le_lastYear : (Date.ofDays t.day).year ≤ lastYear
  nanos : t.nanos < 2 * nanosPerSecond
  leap : t.isLeap = true → t.secondOfDay % 60 = 59

/-! ## Parts of the text -/

theorem isBlank_of_isDigit {c : Char} (h : isDigit c = true) : isBlank c = false := by
  unfold isDigit at h
  rw [Bool.and_eq_true, decide_eq_true_eq, decide_eq_true_eq] at h
  have hlow : '0'.toNat ≤ c.toNat := h.1
  have hup : c.toNat ≤ '9'.toNat := h.2
  simp only [Char.reduceToNat] at hlow hup
  simp only [isBlank, Bool.or_eq_false_iff, Bool.and_eq_false_iff, decide_eq_false_iff_not, beq_eq_false_iff_ne]
  omega

theorem dropBlanks_digits {ds : List Char} (hne : ds ≠ []) (h : AllDigits ds) (rest : List Char) :
    dropBlanks (ds ++ rest) = ds ++ rest := by
  obtain ⟨c, cs, rfl⟩ := List.exists_cons_of_ne_nil hne
  unfold dropBlanks
  rw [List.cons_append, List.dropWhile_cons, isBlank_of_isDigit (h c List.mem_cons_self)]
  rfl

theorem allDigits_twoDigits (n : Nat) : AllDigits (twoDigits n) := by
  intro c hc
  rcases List.mem_cons.mp hc with rfl | hc
  · exact isDigit_digitChar (by omega)
  · rw [List.mem_singleton.mp hc]
    exact isDigit_digitChar (by omega)

theorem natOfDigits_twoDigits {n : Nat} (h : n < 100) : natOfDigits (twoDigits n) = n := by
  unfold twoDigits
  rw [natOfDigits_cons, natOfDigits_cons, digitValue_digitChar (by omega), digitValue_digitChar (by omega)]
  simp only [List.length_cons, List.length_nil, natOfDigits, List.foldl_nil]
  omega

theorem takeNumber?_digits {ds : List Char} (hne : ds ≠ []) (h : AllDigits ds) (rest : List Char) :
    takeNumber? ds.length (ds ++ rest) = some (natOfDigits ds, rest) := by
  have htake : ((ds ++ rest).take ds.length).takeWhile isDigit = ds := by
    rw [List.take_left]
    simpa using takeWhile_digits h (show NoDigit [] from nofun)
  unfold takeNumber?
  dsimp only
  rw [dropBlanks_digits hne h, htake, if_neg hne, List.drop_left]

theorem takeNumber?_twoDigits {n : Nat} (h : n < 100) (rest : List Char) :
    takeNumber? 2 (twoDigits n ++ rest) = some (n, rest) := by
  have hne : twoDigits n ≠ [] := List.cons_ne_nil _ _
  have htake := takeNumber?_digits hne (allDigits_twoDigits n) rest
  rw [natOfDigits_twoDigits h] at htake
  exact htake

theorem takeMark?_cons {mark : Char} (h : isBlank mark = false) (rest : List Char) :
    takeMark? mark (mark :: rest) = some rest := by
  unfold takeMark? dropBlanks
  rw [List.dropWhile_cons, h]
  exact if_pos rfl

theorem takeYear?_digits {ds : List Char} (h : AllDigits ds) (hlen : ds.length = 4) (rest : List Char) :
    takeYear? (ds ++ rest) = some ((natOfDigits ds : Int), rest) := by
  have hne : ds ≠ [] := List.ne_nil_of_length_pos (by omega)
  have htake := takeNumber?_digits hne h rest
  rw [hlen] at htake
  obtain ⟨c, cs, rfl⟩ := List.exists_cons_of_ne_nil hne
  have hdigit := h c List.mem_cons_self
  unfold takeYear?
  rw [dropBlanks_digits hne h, List.cons_append]
  dsimp only
  -- a digit is no sign
  split
  · rename_i heq
    rw [(List.cons.inj heq).1] at hdigit
    exact absurd hdigit (by decide)
  · rename_i heq
    rw [(List.cons.inj heq).1] at hdigit
    exact absurd hdigit (by decide)
  · rw [← List.cons_append, htake]
    rfl

theorem takeYear?_signed (negative : Bool) {ds rest : List Char} (hne : ds ≠ []) (h : AllDigits ds)
    (hr : NoDigit rest) :
    takeYear? ((if negative then '-' else '+') :: (ds ++ rest)) =
      some (if negative then -(natOfDigits ds : Int) else natOfDigits ds, rest) := by
  have hrow : (ds ++ rest).takeWhile isDigit = ds := takeWhile_digits h hr
  cases negative with
  | true =>
    have hdrop : dropBlanks ('-' :: (ds ++ rest)) = '-' :: (ds ++ rest) := rfl
    unfold takeYear?
    simp only [if_true, hdrop, hrow, if_neg hne, List.drop_left, Option.map_some]
  | false =>
    have hdrop : dropBlanks ('+' :: (ds ++ rest)) = '+' :: (ds ++ rest) := rfl
    unfold takeYear?
    simp only [Bool.false_eq_true, if_false, hdrop, hrow, if_neg hne, List.drop_left, Option.map_some]

theorem takeYear?_yearText (year : Int) (rest : List Char) :
    takeYear? (yearText year ++ '-' :: rest) = some (year, '-' :: rest) := by
  obtain ⟨ds, hds⟩ : ∃ ds, padZeros 4 (digitChars year.natAbs) = ds := ⟨_, rfl⟩
  have hall : AllDigits ds := hds ▸ allDigits_padZeros 4 (allDigits_digitChars _)
  have hval : natOfDigits ds = year.natAbs := by rw [← hds, natOfDigits_padZeros, natOfDigits_digitChars]
  unfold yearText
  dsimp only
  rw [hds]
  by_cases hplain : 0 ≤ year ∧ year ≤ 9999
  · have hlen : ds.length = 4 := hds ▸ length_padZeros (length_digitChars_le (by decide) (by omega))
    rw [if_pos hplain, takeYear?_digits hall hlen, hval, Int.natAbs_of_nonneg hplain.1]
  · have hne : ds ≠ [] := List.ne_nil_of_length_pos (Nat.lt_of_lt_of_le (by decide) (hds ▸ le_length_padZeros 4 _))
    have hend : NoDigit ('-' :: rest) := by
      intro c hc
      obtain rfl : '-' = c := Option.some.inj hc
      rfl
    have hsigned := takeYear?_signed (decide (year < 0)) hne hall hend
    rw [if_neg hplain, List.cons_append]
    simp only [decide_eq_true_eq] at hsigned
    rw [hsigned, hval]
    congr 2
    split <;> omega

theorem takeFraction?_digits {ds : List Char} (hne : ds ≠ []) (h : AllDigits ds) (hlen : ds.length ≤ 9) :
    takeFraction? ('.' :: ds ++ ['Z']) = some (natOfDigits ds * 10 ^ (9 - ds.length), ['Z']) := by
  have hend : NoDigit ['Z'] := by
    intro c hc
    obtain rfl : 'Z' = c := Option.some.inj hc
    rfl
  unfold takeFraction?
  simp only [List.cons_append, takeWhile_digits h hend, dropWhile_digits h hend, if_neg hne,
    List.take_of_length_le hlen, Nat.pow_eq]

theorem takeFraction?_secondFraction {nanos : Nat} (h : nanos < nanosPerSecond) :
    takeFraction? (secondFraction nanos ++ ['Z']) = some (nanos, ['Z']) := by
  have hlt : nanos < 1000000000 := h
  -- the same row of digits at any of the three lengths
  have row : ∀ width n, 0 < width → width ≤ 9 → n < 10 ^ width →
      takeFraction? ('.' :: padZeros width (digitChars n) ++ ['Z']) = some (n * 10 ^ (9 - width), ['Z']) := by
    intro width n hpos hle hn
    have hlen := length_padZeros (length_digitChars_le hpos hn)
    have hne : padZeros width (digitChars n) ≠ [] := by
      intro hnil
      rw [hnil, List.length_nil] at hlen
      omega
    rw [takeFraction?_digits hne (allDigits_padZeros _ (allDigits_digitChars _)) (by omega), hlen,
      natOfDigits_padZeros, natOfDigits_digitChars]
  unfold secondFraction
  by_cases h0 : nanos = 0
  · rw [if_pos h0, h0]
    rfl
  rw [if_neg h0]
  by_cases h3 : nanos % 1000000 = 0
  · rw [if_pos h3, row 3 _ (by decide) (by decide) (by omega)]
    congr 2
    omega
  rw [if_neg h3]
  by_cases h6 : nanos % 1000 = 0
  · rw [if_pos h6, row 6 _ (by decide) (by decide) (by omega)]
    congr 2
    omega
  · rw [if_neg h6, row 9 _ (by decide) (by decide) hlt]
    congr 2
    omega

/-! ## The whole text -/

theorem seconds_eq (t : Timestamp) : t.seconds = t.day * secondsPerDay + t.secondOfDay := by
  unfold Timestamp.day Timestamp.secondOfDay secondsPerDay
  rw [Int.fdiv_eq_ediv_of_nonneg _ (by decide), Int.fmod_eq_emod_of_nonneg _ (by decide)]
  omega

theorem secondOfDay_lt (t : Timestamp) : t.secondOfDay < secondsPerDay := by
  unfold Timestamp.secondOfDay secondsPerDay
  rw [Int.fmod_eq_emod_of_nonneg _ (by decide)]
  omega

theorem toSeconds_ofSeconds (s : Nat) : (TimeOfDay.ofSeconds s).toSeconds = s := by
  unfold TimeOfDay.ofSeconds TimeOfDay.toSeconds
  dsimp only
  omega

theorem ofLocal?_ofDays {t : Timestamp} (h : t.Representable) :
    Timestamp.ofLocal? (Date.ofDays t.day)
      ⟨t.secondOfDay / 3600, t.secondOfDay / 60 % 60, t.secondOfDay % 60 + if t.isLeap then 1 else 0⟩
      (t.nanos % nanosPerSecond) 0 = some t := by
  have hday := secondOfDay_lt t
  have hvalid := isValid_ofDays t.day
  have hnanos := h.nanos
  unfold secondsPerDay at hday
  unfold nanosPerSecond at hnanos
  -- the time of day is what it was, and so are the nanoseconds
  have htime : ∀ second nanos : Nat, second = t.secondOfDay % 60 → nanos = t.nanos →
      (⟨(Date.ofDays t.day).toDays * secondsPerDay +
        (TimeOfDay.toSeconds ⟨t.secondOfDay / 3600, t.secondOfDay / 60 % 60, second⟩ : Nat) - 0, nanos⟩ :
        Timestamp) = t := by
    rintro second nanos rfl rfl
    have hseconds := toSeconds_ofSeconds t.secondOfDay
    unfold TimeOfDay.ofSeconds at hseconds
    rw [toDays_ofDays, hseconds, Int.sub_zero, ← seconds_eq]
  unfold Timestamp.ofLocal?
  dsimp only
  cases hleap : t.isLeap with
  | true =>
    have h59 := h.leap hleap
    have hlate : nanosPerSecond ≤ t.nanos := of_decide_eq_true hleap
    unfold nanosPerSecond at hlate ⊢
    rw [if_pos rfl, h59, if_pos, if_pos rfl, if_pos rfl, htime _ _ h59.symm (by omega),
      if_pos ⟨h.firstYear_le, h.le_lastYear⟩]
    exact ⟨h.firstYear_le, h.le_lastYear, hvalid, by omega, by omega, by omega, by decide⟩
  | false =>
    have hearly : ¬ nanosPerSecond ≤ t.nanos := of_decide_eq_false hleap
    unfold nanosPerSecond at hearly ⊢
    have hsecond : ¬ t.secondOfDay % 60 = 60 := by omega
    have hkept : t.nanos % 1000000000 = t.nanos := Nat.mod_eq_of_lt (by omega)
    rw [if_neg Bool.false_ne_true, Nat.add_zero, if_pos, if_neg hsecond, if_neg hsecond, hkept, htime _ _ rfl rfl,
      if_pos ⟨h.firstYear_le, h.le_lastYear⟩]
    exact ⟨h.firstYear_le, h.le_lastYear, hvalid, by omega, by omega, by omega, by decide⟩

theorem read_wire {t : Timestamp} (h : t.Representable) : Timestamp.read? t.wire = some t := by
  have hday := secondOfDay_lt t
  obtain ⟨-, hmonth, -, hdays⟩ := isValid_ofDays t.day
  have hle : daysInMonth (Date.ofDays t.day).year (Date.ofDays t.day).month ≤ 31 := by
    unfold daysInMonth
    split_ifs <;> decide
  unfold secondsPerDay at hday
  have hsecond : t.secondOfDay % 60 + (if t.isLeap then 1 else 0) < 100 := by
    split <;> omega
  -- each part in front of all that follows it
  have htext : t.wire = yearText (Date.ofDays t.day).year ++ '-' :: (twoDigits (Date.ofDays t.day).month ++
      '-' :: (twoDigits (Date.ofDays t.day).day ++ 'T' :: (twoDigits (t.secondOfDay / 3600) ++
        ':' :: (twoDigits (t.secondOfDay / 60 % 60) ++
          ':' :: (twoDigits (t.secondOfDay % 60 + if t.isLeap then 1 else 0) ++
            (secondFraction (t.nanos % nanosPerSecond) ++ ['Z'])))))) := by
    simp only [Timestamp.wire, Date.text, TimeOfDay.clock, TimeOfDay.ofSeconds, List.append_assoc, List.cons_append]
  unfold Timestamp.read?
  rw [htext, takeYear?_yearText]
  simp only [Option.bind_eq_bind, Option.bind_some, takeMark?_cons (show isBlank '-' = false from rfl),
    takeMark?_cons (show isBlank ':' = false from rfl), takeNumber?_twoDigits hsecond,
    takeNumber?_twoDigits (show t.secondOfDay / 3600 < 100 by omega),
    takeNumber?_twoDigits (show t.secondOfDay / 60 % 60 < 100 by omega),
    takeNumber?_twoDigits (show (Date.ofDays t.day).month < 100 by omega),
    takeNumber?_twoDigits (show (Date.ofDays t.day).day < 100 by omega),
    takeFraction?_secondFraction (Nat.mod_lt t.nanos (show 0 < nanosPerSecond by decide))]
  exact ofLocal?_ofDays h

/-! ## What is read -/

theorem fraction_lt {text rest : List Char} {nanos : Nat} (h : takeFraction? text = some (nanos, rest)) :
    nanos < nanosPerSecond := by
  unfold takeFraction? at h
  split at h
  · rename_i cs
    dsimp only at h
    split at h
    · cases h
    · obtain ⟨rfl, -⟩ := Prod.mk.inj (Option.some.inj h)
      obtain ⟨kept, hkept⟩ : ∃ kept, (cs.takeWhile isDigit).take 9 = kept := ⟨_, rfl⟩
      have hall : AllDigits kept := by
        intro c hc
        rw [← hkept] at hc
        exact (List.all_eq_true.mp List.all_takeWhile) c (List.mem_of_mem_take hc)
      have hlen : kept.length ≤ 9 := by
        rw [← hkept]
        exact List.length_take_le 9 _
      have hlt := natOfDigits_lt hall
      rw [hkept]
      calc natOfDigits kept * 10 ^ (9 - kept.length)
          < 10 ^ kept.length * 10 ^ (9 - kept.length) := Nat.mul_lt_mul_of_pos_right hlt (Nat.pow_pos (by decide))
        _ = nanosPerSecond := by
          rw [← Nat.pow_add, Nat.add_sub_cancel' hlen]
          rfl
  · obtain ⟨rfl, -⟩ := Prod.mk.inj (Option.some.inj h)
    decide

theorem offsetDigits_mod {text rest : List Char} {n : Nat} (h : takeOffsetDigits? text = some (n, rest)) :
    n % 60 = 0 := by
  unfold takeOffsetDigits? at h
  obtain ⟨⟨hours, _⟩, -, h⟩ := Option.bind_eq_some_iff.mp h
  obtain ⟨⟨minutes, _⟩, -, h⟩ := Option.bind_eq_some_iff.mp h
  dsimp only at h
  split at h
  · obtain ⟨rfl, -⟩ := Prod.mk.inj (Option.some.inj h)
    omega
  · cases h

theorem offset_mod_of_digits (sign : Nat → Int) {text rest : List Char} {offset : Int}
    (hsign : ∀ n, n % 60 = 0 → sign n % 60 = 0)
    (h : (takeOffsetDigits? text).map (fun (n, rest) => (sign n, rest)) = some (offset, rest)) :
    offset % 60 = 0 := by
  obtain ⟨⟨n, _⟩, hn, heq⟩ := Option.map_eq_some_iff.mp h
  rw [← (Prod.mk.inj heq).1]
  exact hsign n (offsetDigits_mod hn)

/-- Offsets are whole minutes, so they leave the second of a minute alone. -/
theorem offset_mod {text rest : List Char} {offset : Int} (h : takeOffset? text = some (offset, rest)) :
    offset % 60 = 0 := by
  unfold takeOffset? at h
  dsimp only at h
  split at h
  · rw [← (Prod.mk.inj (Option.some.inj h)).1]
    rfl
  split at h
  · split at h
    · rw [← (Prod.mk.inj (Option.some.inj h)).1]
      rfl
    split at h
    · exact offset_mod_of_digits (fun n => n) (fun n hn => by omega) h
    split at h
    · exact offset_mod_of_digits (fun n => -n) (fun n hn => by omega) h
    · cases h
  · cases h

theorem representable_of_ofLocal {d : Date} {clock : TimeOfDay} {nanos : Nat} {offset : Int} {t : Timestamp}
    (hnanos : nanos < nanosPerSecond) (hoffset : offset % 60 = 0)
    (h : Timestamp.ofLocal? d clock nanos offset = some t) : t.Representable := by
  unfold nanosPerSecond at hnanos
  unfold Timestamp.ofLocal? at h
  dsimp only at h
  split at h
  · split at h
    -- a leap second keeps the 59th second of its minute
    · split at h
      · rename_i hyear
        obtain rfl := Option.some.inj h
        refine ⟨hyear.1, hyear.2, ?_, fun _ => ?_⟩
        · unfold nanosPerSecond
          dsimp only
          omega
        · unfold Timestamp.secondOfDay secondsPerDay TimeOfDay.toSeconds
          rw [Int.fmod_eq_emod_of_nonneg _ (by decide)]
          dsimp only
          omega
      · cases h
    · split at h
      · rename_i hyear
        obtain rfl := Option.some.inj h
        refine ⟨hyear.1, hyear.2, ?_, fun hleap => ?_⟩
        · unfold nanosPerSecond
          dsimp only
          omega
        · have hlate := of_decide_eq_true hleap
          unfold nanosPerSecond at hlate
          dsimp only at hlate
          omega
      · cases h
  · cases h

theorem representable_of_read {text : List Char} {t : Timestamp} (h : Timestamp.read? text = some t) :
    t.Representable := by
  unfold Timestamp.read? at h
  obtain ⟨⟨year, _⟩, -, h⟩ := Option.bind_eq_some_iff.mp h
  obtain ⟨_, -, h⟩ := Option.bind_eq_some_iff.mp h
  obtain ⟨⟨month, _⟩, -, h⟩ := Option.bind_eq_some_iff.mp h
  obtain ⟨_, -, h⟩ := Option.bind_eq_some_iff.mp h
  obtain ⟨⟨day, cs⟩, -, h⟩ := Option.bind_eq_some_iff.mp h
  dsimp only at h
  split at h
  · cases h
  split at h
  · obtain ⟨⟨hour, _⟩, -, h⟩ := Option.bind_eq_some_iff.mp h
    obtain ⟨_, -, h⟩ := Option.bind_eq_some_iff.mp h
    obtain ⟨⟨minute, _⟩, -, h⟩ := Option.bind_eq_some_iff.mp h
    obtain ⟨_, -, h⟩ := Option.bind_eq_some_iff.mp h
    obtain ⟨⟨second, _⟩, -, h⟩ := Option.bind_eq_some_iff.mp h
    obtain ⟨⟨nanos, _⟩, hfraction, h⟩ := Option.bind_eq_some_iff.mp h
    obtain ⟨⟨offset, _⟩, hoffset, h⟩ := Option.bind_eq_some_iff.mp h
    dsimp only at h
    split at h
    · exact representable_of_ofLocal (fraction_lt hfraction) (offset_mod hoffset) h
    · cases h
  · cases h

end PriceBoard.Time
