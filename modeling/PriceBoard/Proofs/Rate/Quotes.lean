import PriceBoard.Feed.Quote
import PriceBoard.Proofs.Scalar.Midpoint
import PriceBoard.Rate.Validity

/-!
# Which quotes are valid

The rate of a bid and an ask is valid unless they cross, since the midpoint lies between them,
and a simulated quote never crosses unless its base price is negative (`validity_of_quotes`).
-/

namespace PriceBoard

section

variable {π : Type} [Scalar π] {A : Reading π} (hA : A.OfDoubles)
include hA

theorem Rate.fault?_ofQuote {bid ask : π} (hb : Scalar.finite bid = true) (ha : Scalar.finite ask = true)
    {key : String} (hkey : ∃ ch ∈ key.toList, Text.isBlank ch = false) (source : String) (now : Time.Timestamp) :
    (ofQuote key bid ask source now).fault? = if bid ≤ ask then none else some (.crossedBook key bid ask) := by
  have hmid := hA.is_midpoint ⟨hb, rfl⟩ ⟨ha, rfl⟩
  have hblank : ¬ Text.isBlankText key = true := by simpa [Text.isBlankText] using hkey
  have hfinite : Scalar.finite bid ∧ Scalar.finite ask ∧ Scalar.finite (Scalar.midpoint bid ask) := ⟨hb, ha, hmid.1⟩
  change (if Text.isBlankText key = true then _ else if ¬ (Scalar.finite bid ∧ Scalar.finite ask ∧
    Scalar.finite (Scalar.midpoint bid ask)) then _ else if ask < bid then _ else
      if Scalar.midpoint bid ask < bid ∨ ask < Scalar.midpoint bid ask then _ else _) = _
  rw [if_neg hblank, if_neg (not_not_intro hfinite)]
  by_cases hle : bid ≤ ask
  · have hbid : A.Is bid (A.value bid) := ⟨hb, rfl⟩
    have hask : A.Is ask (A.value ask) := ⟨ha, rfl⟩
    have hvalue := (hA.le_iff_le hbid hask).mp hle
    obtain ⟨hlow, hup⟩ := hA.middle_between (hA.isDouble hb) (hA.isDouble ha) hvalue
    have hcross : ¬ ask < bid := mt (hA.lt_iff_lt hask hbid).mp (not_lt.mpr hvalue)
    have hbelow : ¬ Scalar.midpoint bid ask < bid := mt (hA.lt_iff_lt hmid hbid).mp (not_lt.mpr hlow)
    have habove : ¬ ask < Scalar.midpoint bid ask := mt (hA.lt_iff_lt hask hmid).mp (not_lt.mpr hup)
    rw [if_neg hcross, if_neg (not_or.mpr ⟨hbelow, habove⟩), if_pos hle]
  · have hcross : ask < bid := (hA.lt_iff ha hb).mpr (not_le.mp (mt (hA.le_iff hb ha).mpr hle))
    rw [if_pos hcross, if_neg hle]
    rfl

theorem Rate.isValid_ofQuote_iff {bid ask : π} (hb : Scalar.finite bid = true) (ha : Scalar.finite ask = true)
    {key : String} (hkey : ∃ ch ∈ key.toList, Text.isBlank ch = false) (source : String) (now : Time.Timestamp) :
    (ofQuote key bid ask source now).IsValid ↔ bid ≤ ask := by
  unfold IsValid
  rw [fault?_ofQuote hA hb ha hkey]
  split
  · exact iff_of_true rfl ‹_›
  · exact iff_of_false nofun ‹_›

/-! ## Simulated quotes -/

namespace Instrument

variable {i : Instrument π} {variation spread : π} {now : Time.Timestamp} {source updatedBy : String}

/-- The half spread of a finite quote has the sign of the base price. -/
theorem sign_half (hfinite : Scalar.finite (i.base * spread / 2) = true) (hspread : 0 ≤ spread) :
    (0 ≤ i.base → 0 ≤ A.value (i.base * spread / 2)) ∧ (i.base < 0 → A.value (i.base * spread / 2) ≤ 0) := by
  have hproduct := hA.finite_of_div hfinite
  obtain ⟨hb, hs⟩ := hA.finite_of_mul hproduct
  have hbase : A.Is i.base (A.value i.base) := ⟨hb, rfl⟩
  have hmul : A.value (i.base * spread) = A.round (A.value i.base * A.value spread) := (hA.mul hb hs).2 hproduct
  have hhalf := (hA.is_half ⟨hproduct, rfl⟩ (hA.isDouble hproduct).abs_le).2
  have hnonneg := (hA.le_iff_le hA.is_zero ⟨hs, rfl⟩).mp hspread
  rw [hA.le_iff_le hA.is_zero hbase, hA.lt_iff_lt hbase hA.is_zero, hhalf]
  refine ⟨fun h => ?_, fun h => ?_⟩
  · have hle : 0 ≤ A.value (i.base * spread) := hmul ▸ hA.round_nonneg (mul_nonneg h hnonneg)
    exact hA.round_nonneg (by linarith)
  · have hle : A.value (i.base * spread) ≤ 0 :=
      hmul ▸ hA.round_nonpos (mul_nonpos_of_nonpos_of_nonneg h.le hnonneg)
    exact hA.round_nonpos (by linarith)

section

variable (hb : Scalar.finite (i.quote variation spread now source updatedBy).bid = true)
variable (ha : Scalar.finite (i.quote variation spread now source updatedBy).ask = true) (hspread : 0 ≤ spread)
include hb ha

/-- A quote lies on both sides of its target by half the spread, each side rounded. -/
theorem value_quote :
    ∃ target, A.value (i.quote variation spread now source updatedBy).bid =
        A.round (target - A.value (i.base * spread / 2)) ∧
      A.value (i.quote variation spread now source updatedBy).ask =
        A.round (target + A.value (i.base * spread / 2)) := by
  obtain ⟨htarget, hhalf⟩ := hA.finite_of_sub hb
  exact ⟨_, (hA.sub htarget hhalf).2 hb, (hA.add htarget hhalf).2 ha⟩

include hspread

theorem bid_le_ask (hbase : 0 ≤ i.base) :
    (i.quote variation spread now source updatedBy).bid ≤ (i.quote variation spread now source updatedBy).ask := by
  obtain ⟨target, hbid, hask⟩ := value_quote hA hb ha
  have hhalf := (i.sign_half hA (hA.finite_of_sub hb).2 hspread).1 hbase
  rw [hA.le_iff_le ⟨hb, hbid⟩ ⟨ha, hask⟩]
  exact hA.round_mono (by linarith)

theorem ask_le_bid (hbase : i.base < 0) :
    (i.quote variation spread now source updatedBy).ask ≤ (i.quote variation spread now source updatedBy).bid := by
  obtain ⟨target, hbid, hask⟩ := value_quote hA hb ha
  have hhalf := (i.sign_half hA (hA.finite_of_sub hb).2 hspread).2 hbase
  rw [hA.le_iff_le ⟨ha, hask⟩ ⟨hb, hbid⟩]
  exact hA.round_mono (by linarith)

end

end Instrument

end

/-- A quote of finite prices is valid if its bid is at most its ask, and crossed otherwise. A
simulated one is valid unless its base price is negative; then it is crossed if its prices differ. -/
theorem Rate.validity_of_quotes {π : Type} [Scalar π] {A : Reading π} (hA : A.OfDoubles) :
    (∀ (key : String) (bid ask : π) (source : String) (now : Time.Timestamp),
      (∃ ch ∈ key.toList, Text.isBlank ch = false) → Scalar.finite bid = true → Scalar.finite ask = true →
      let r := ofQuote key bid ask source now
      (r.IsValid ↔ bid ≤ ask) ∧ (¬ bid ≤ ask → r.fault? = some (.crossedBook key bid ask))) ∧
    ∀ (i : Instrument π) (variation spread : π) (now : Time.Timestamp) (source updatedBy : String),
      let r := i.quote variation spread now source updatedBy
      (∃ ch ∈ i.key.toList, Text.isBlank ch = false) → 0 ≤ spread → Scalar.finite r.bid = true →
      Scalar.finite r.ask = true →
      (0 ≤ i.base → r.IsValid) ∧
      (i.base < 0 → ¬ r.bid < r.ask ∧
        ((r.bid == r.ask) = false → r.fault? = some (.crossedBook i.key r.bid r.ask))) := by
  constructor
  · intro key bid ask source now hkey hb ha r
    refine ⟨isValid_ofQuote_iff hA hb ha hkey source now, fun hle => ?_⟩
    exact (fault?_ofQuote hA hb ha hkey source now).trans (if_neg hle)
  · intro i variation spread now source updatedBy r hkey hspread hb ha
    refine ⟨fun hbase => ?_, fun hbase => ?_⟩
    · exact (isValid_ofQuote_iff hA hb ha hkey source now).mpr (i.bid_le_ask hA hb ha hspread hbase)
    · have hge := (hA.le_iff ha hb).mp (i.ask_le_bid hA hb ha hspread hbase)
      refine ⟨mt (hA.lt_iff hb ha).mp (not_lt.mpr hge), fun hne => ?_⟩
      have hle : ¬ r.bid ≤ r.ask := fun hle => by
        rw [(hA.beq_iff hb ha).mpr (le_antisymm ((hA.le_iff hb ha).mp hle) hge)] at hne
        cases hne
      exact (fault?_ofQuote hA hb ha hkey source now).trans (if_neg hle)

/-- The least and the largest double on either side, and quotes of both signs. -/
theorem Rate.validity_of_quotes_far_apart :
    let least : Float := .ofBits 1
    let most : Float := .ofBits 0x7FEFFFFFFFFFFFFF
    let long : Instrument Float := ⟨"EURUSD", 1.085⟩
    let short : Instrument Float := ⟨"EURUSD", -1.085⟩
    let rise := long.quote 0.005 0.003 default "SIM" ""
    let fall := short.quote 0.005 0.003 default "SIM" ""
    doubles.OfDoubles ∧ (ofQuote "EURUSD" least most "DESK" default).IsValid ∧
    (ofQuote "EURUSD" most least "DESK" default).fault? = some (.crossedBook "EURUSD" most least) ∧
    rise.IsValid ∧
    (fall.bid == fall.ask) = false ∧ fall.fault? = some (.crossedBook "EURUSD" fall.bid fall.ask) := by
  intro least most long short rise fall
  obtain ⟨hquote, hsimulated⟩ := Rate.validity_of_quotes doubles_ofDoubles
  have hkey : ∃ ch ∈ "EURUSD".toList, Text.isBlank ch = false := ⟨'E', by decide, by decide⟩
  have hleast : Scalar.finite least = true := by decide +kernel
  have hmost : Scalar.finite most = true := by decide +kernel
  have hthin := (hquote "EURUSD" least most "DESK" default hkey hleast hmost).1.mpr (by decide +kernel)
  have hcrossed := (hquote "EURUSD" most least "DESK" default hkey hmost hleast).2 (by decide +kernel)
  have hrise := (hsimulated long 0.005 0.003 default "SIM" "" hkey (by decide +kernel) (by decide +kernel)
    (by decide +kernel)).1 (by decide +kernel)
  have hne : (fall.bid == fall.ask) = false := by decide +kernel
  have hfall := ((hsimulated short 0.005 0.003 default "SIM" "" hkey (by decide +kernel) (by decide +kernel)
    (by decide +kernel)).2 (by decide +kernel)).2 hne
  exact ⟨doubles_ofDoubles, hthin, hcrossed, hrise, hne, hfall⟩

end PriceBoard
