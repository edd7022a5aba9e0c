import Mathlib.Tactic.Common
import PriceBoard.Time.Calendar

/-!
# Days and dates

Every number of days is that of a valid date, its own (`toDays_ofDays`,
`isValid_ofDays`). A day lies in an era of 146097, there in a year that starts
in March, and there in a month; each of the three steps is undone by itself.
-/

namespace PriceBoard.Time

/-! ## Years of an era -/

def yearOfEra (e : Int) : Int := (e - e / 1460 + e / 36524 - e / 146096) / 365

def dayOfYear (e : Int) : Int := e - (365 * yearOfEra e + yearOfEra e / 4 - yearOfEra e / 100)

/-- The year whose first two months belong to the year `y` from March is a leap year. -/
def EndsInLeapDay (y : Int) : Prop := (y + 1) % 4 = 0 ∧ ((y + 1) % 100 ≠ 0 ∨ (y + 1) % 400 = 0)

section Era

variable {e : Int} (h0 : 0 ≤ e) (hlt : e < 146097)
include h0 hlt

theorem yearOfEra_bounds : 0 ≤ yearOfEra e ∧ yearOfEra e ≤ 399 := by
  unfold yearOfEra
  omega

/-- The last day of an era is the leap day of its last year. -/
theorem dayOfYear_bounds :
    0 ≤ dayOfYear e ∧ dayOfYear e ≤ 365 ∧ (dayOfYear e = 365 → EndsInLeapDay (yearOfEra e)) := by
  by_cases hlast : e = 146096
  · rw [hlast]
    exact ⟨by decide, by decide, fun _ => ⟨by decide, .inr (by decide)⟩⟩
  obtain ⟨y, hy⟩ : ∃ y, yearOfEra e = y := ⟨_, rfl⟩
  obtain ⟨c, hc⟩ : ∃ c, e / 36524 = c := ⟨_, rfl⟩
  have hyear : (e - e / 1460 + c) / 365 = y := by
    rw [← hy, yearOfEra, hc]
    omega
  -- centuries of days are centuries of years
  have hcentury : y / 100 = c := by
    have : c = 0 ∨ c = 1 ∨ c = 2 ∨ c = 3 := by omega
    rcases this with rfl | rfl | rfl | rfl <;> omega
  -- within a block of four years a day is lost every 1460
  have hblock : (e % 1460 + c - e / 1460) / 365 = y - 4 * (e / 1460) := by omega
  have hplace : y - 4 * (e / 1460) = -1 ∨ y - 4 * (e / 1460) = 0 ∨ y - 4 * (e / 1460) = 1 ∨
      y - 4 * (e / 1460) = 2 ∨ y - 4 * (e / 1460) = 3 := by omega
  unfold dayOfYear EndsInLeapDay
  rw [hy, hcentury]
  refine ⟨by omega, by omega, fun h => ⟨?_, .inl fun hend => by omega⟩⟩
  rcases hplace with h' | h' | h' | h' | h' <;> omega

end Era

/-! ## Dates -/

def monthFromMarch (d : Int) : Int := (5 * d + 2) / 153

/-- The date of the day `d` of the year `y` from March. -/
def dateFromMarch (y d : Int) : Date :=
  let month := if monthFromMarch d < 10 then monthFromMarch d + 3 else monthFromMarch d - 9
  ⟨if month ≤ 2 then y + 1 else y, month.toNat, (d - (153 * monthFromMarch d + 2) / 5 + 1).toNat⟩

theorem ofDays_eq (n : Int) :
    Date.ofDays n = dateFromMarch
      (yearOfEra ((n + 719468) % 146097) + (n + 719468) / 146097 * 400) (dayOfYear ((n + 719468) % 146097)) := by
  have he : n + 719468 - (n + 719468) / 146097 * 146097 = (n + 719468) % 146097 := by omega
  unfold Date.ofDays dateFromMarch monthFromMarch dayOfYear yearOfEra
  simp (disch := decide) only [Int.fdiv_eq_ediv_of_nonneg, he]

theorem le_daysInMonth {year : Int} {month day : Nat} (h31 : day ≤ 31)
    (h30 : month = 4 ∨ month = 6 ∨ month = 9 ∨ month = 11 → day ≤ 30)
    (h28 : month = 2 → day ≤ 28 ∨ day ≤ 29 ∧ isLeapYear year = true) : day ≤ daysInMonth year month := by
  unfold daysInMonth
  split
  · rename_i h2
    rcases h28 h2 with h | ⟨h, hleap⟩
    · split
      · omega
      · exact h
    · rw [if_pos hleap]
      exact h
  · split
    · rename_i h
      exact h30 h
    · exact h31

theorem monthStart_le (d : Int) : (153 * monthFromMarch d + 2) / 5 ≤ d := by
  unfold monthFromMarch
  omega

theorem dateFromMarch_day (y d : Int) :
    (dateFromMarch y d).day = (d - (153 * monthFromMarch d + 2) / 5 + 1).toNat := rfl

section Year

variable {y d : Int} (h0 : 0 ≤ d) (hle : d ≤ 365)
include h0 hle

theorem dateFromMarch_cases :
    (monthFromMarch d < 10 ∧ (dateFromMarch y d).year = y ∧
      ((dateFromMarch y d).month : Int) = monthFromMarch d + 3) ∨
      (10 ≤ monthFromMarch d ∧ monthFromMarch d < 12 ∧ (dateFromMarch y d).year = y + 1 ∧
        ((dateFromMarch y d).month : Int) = monthFromMarch d - 9) := by
  have hm : 0 ≤ monthFromMarch d ∧ monthFromMarch d < 12 := by
    unfold monthFromMarch
    omega
  unfold dateFromMarch
  by_cases h10 : monthFromMarch d < 10
  · refine .inl ⟨h10, ?_, ?_⟩
    · dsimp only
      rw [if_pos h10, if_neg (by omega)]
    · dsimp only
      rw [if_pos h10]
      omega
  · refine .inr ⟨by omega, hm.2, ?_, ?_⟩
    · dsimp only
      rw [if_neg h10, if_pos (by omega)]
    · dsimp only
      rw [if_neg h10]
      omega

theorem monthFromMarch_nonneg : 0 ≤ monthFromMarch d := by
  unfold monthFromMarch
  omega

theorem toDays_dateFromMarch :
    (dateFromMarch y d).toDays = y / 400 * 146097 + (y % 400 * 365 + y % 400 / 4 - y % 400 / 100 + d) - 719468 := by
  have hday := dateFromMarch_day y d
  have hstart := monthStart_le d
  have hnonneg := monthFromMarch_nonneg h0 hle
  have hcases := dateFromMarch_cases (y := y) h0 hle
  have hyear :
      (if (dateFromMarch y d).month ≤ 2 then (dateFromMarch y d).year - 1 else (dateFromMarch y d).year) = y := by
    rcases hcases with ⟨_, hy, hm⟩ | ⟨_, _, hy, hm⟩ <;> rw [hy]
    · exact if_neg (by omega)
    · rw [if_pos (by omega)]
      omega
  have hmonth : (((dateFromMarch y d).month : Int) + 9) % 12 = monthFromMarch d := by
    rcases hcases with ⟨_, _, hm⟩ | ⟨_, _, _, hm⟩ <;> rw [hm] <;> omega
  unfold Date.toDays
  simp (disch := decide) only [Int.fdiv_eq_ediv_of_nonneg, hyear, hmonth]
  omega

theorem isValid_dateFromMarch (hleap : d = 365 → EndsInLeapDay y) : (dateFromMarch y d).IsValid := by
  have hday := dateFromMarch_day y d
  have hstart := monthStart_le d
  have hnonneg := monthFromMarch_nonneg h0 hle
  have hcases := dateFromMarch_cases (y := y) h0 hle
  have hrange : monthFromMarch d * 153 ≤ 5 * d + 2 ∧ 5 * d + 2 < monthFromMarch d * 153 + 153 := by
    unfold monthFromMarch
    omega
  refine ⟨by omega, by omega, by omega, ?_⟩
  apply le_daysInMonth
  · omega
  · intro h
    omega
  · intro h
    by_cases hlast : d = 365
    · refine .inr ⟨by omega, ?_⟩
      obtain ⟨h4, h100⟩ := hleap hlast
      have hyear : (dateFromMarch y d).year = y + 1 := by omega
      rw [hyear]
      exact decide_eq_true ⟨h4, h100⟩
    · exact .inl (by omega)

end Year

theorem toDays_ofDays (n : Int) : (Date.ofDays n).toDays = n := by
  have h0 : 0 ≤ (n + 719468) % 146097 := by omega
  have hlt : (n + 719468) % 146097 < 146097 := by omega
  obtain ⟨hy0, hy⟩ := yearOfEra_bounds h0 hlt
  obtain ⟨hd0, hd, -⟩ := dayOfYear_bounds h0 hlt
  have hera : (yearOfEra ((n + 719468) % 146097) + (n + 719468) / 146097 * 400) / 400 = (n + 719468) / 146097 := by
    omega
  have hmod : (yearOfEra ((n + 719468) % 146097) + (n + 719468) / 146097 * 400) % 400 =
      yearOfEra ((n + 719468) % 146097) := by
    omega
  rw [ofDays_eq, toDays_dateFromMarch hd0 hd, hera, hmod, dayOfYear]
  omega

theorem isValid_ofDays (n : Int) : (Date.ofDays n).IsValid := by
  have h0 : 0 ≤ (n + 719468) % 146097 := by omega
  have hlt : (n + 719468) % 146097 < 146097 := by omega
  obtain ⟨hd0, hd, hleap⟩ := dayOfYear_bounds h0 hlt
  rw [ofDays_eq]
  refine isValid_dateFromMarch hd0 hd fun h => ?_
  obtain ⟨h4, h100⟩ := hleap h
  exact ⟨by omega, by omega⟩

end PriceBoard.Time
