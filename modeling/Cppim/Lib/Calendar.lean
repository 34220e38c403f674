import Mathlib.Algebra.Order.Ring.Int

/-! The Gregorian calendar, extended to all days before and after. Days are counted from
1 January 1970. Years are first taken to begin in March, so that the leap day is the last
day of a year and the lengths of the months follow one formula. -/

namespace Cppim.Lib.Calendar

structure Date where
  year : Int
  month : Int
  day : Int
  month_pos : 1 ≤ month
  month_le : month ≤ 12
  day_pos : 1 ≤ day
  day_le : day ≤ 31
  deriving Repr, DecidableEq

/-! ## Years that begin in March -/

/-- How many days the year `y` begins after the year 0. -/
def yearStart (y : Int) : Int := 365 * y + y / 4 - y / 100 + y / 400

/-- The year and the day of the year of the day `n` after 1 March of the year 0: whole
periods of 400 years, then centuries, then periods of four years, then years. The last
century of a period and the last year of four years are a day longer. -/
def yearOf (n : Int) : Int × Int :=
  let era := n / 146097
  let century := min 3 (n % 146097 / 36524)
  let inCentury := n % 146097 - 36524 * century
  let quad := inCentury / 1461
  let inQuad := inCentury % 1461
  let year := min 3 (inQuad / 365)
  (400 * era + 100 * century + 4 * quad + year, inQuad - 365 * year)

theorem yearOf_spec (n : Int) : 0 ≤ (yearOf n).2 ∧ (yearOf n).2 ≤ 365 ∧
    yearStart (yearOf n).1 + (yearOf n).2 = n := by
  simp only [yearOf, yearStart]
  generalize hera : n / 146097 = era
  generalize hcentury : min 3 (n % 146097 / 36524) = century
  generalize hquad : (n % 146097 - 36524 * century) / 1461 = quad
  generalize hyear : min 3 ((n % 146097 - 36524 * century) % 1461 / 365) = year
  have hc : 0 ≤ century ∧ century ≤ 3 := by omega
  have hq : 0 ≤ quad ∧ quad ≤ 24 := by omega
  have hy : 0 ≤ year ∧ year ≤ 3 := by omega
  have h4 : (400 * era + 100 * century + 4 * quad + year) / 4 =
      100 * era + 25 * century + quad := by omega
  have h100 : (400 * era + 100 * century + 4 * quad + year) / 100 = 4 * era + century := by omega
  have h400 : (400 * era + 100 * century + 4 * quad + year) / 400 = era := by omega
  rw [h4, h100, h400]
  omega

/-- The month, counted from March as zero, and the day of the month of a day of the year. -/
def monthOf (n : Int) : Int × Int :=
  ((5 * n + 2) / 153, n - (153 * ((5 * n + 2) / 153) + 2) / 5 + 1)

theorem monthOf_spec {n : Int} (hpos : 0 ≤ n) (hle : n ≤ 365) :
    0 ≤ (monthOf n).1 ∧ (monthOf n).1 ≤ 11 ∧ 1 ≤ (monthOf n).2 ∧ (monthOf n).2 ≤ 31 := by
  simp only [monthOf]
  omega

/-! ## Years that begin in January -/

/-- January and February are the last two months of the year before. -/
def fromMarch (year month day : Int) (hmonth : 0 ≤ month ∧ month ≤ 11)
    (hday : 1 ≤ day ∧ day ≤ 31) : Date where
  year := if month < 10 then year else year + 1
  month := if month < 10 then month + 3 else month - 9
  day := day
  month_pos := by split <;> omega
  month_le := by split <;> omega
  day_pos := hday.1
  day_le := hday.2

def ofDays (n : Int) : Date :=
  let y := yearOf (n + 719468)
  have hy := yearOf_spec (n + 719468)
  have hm := monthOf_spec hy.1 hy.2.1
  fromMarch y.1 (monthOf y.2).1 (monthOf y.2).2 ⟨hm.1, hm.2.1⟩ hm.2.2

def toDays (year month day : Int) : Int :=
  let y := if month ≤ 2 then year - 1 else year
  let m := if month ≤ 2 then month + 9 else month - 3
  yearStart y + ((153 * m + 2) / 5 + day - 1) - 719468

theorem toDays_fromMarch (year month day : Int) (hmonth : 0 ≤ month ∧ month ≤ 11)
    (hday : 1 ≤ day ∧ day ≤ 31) :
    toDays (fromMarch year month day hmonth hday).year (fromMarch year month day hmonth hday).month
      day = yearStart year + ((153 * month + 2) / 5 + day - 1) - 719468 := by
  by_cases h : month < 10
  · have hlate : ¬ month + 3 ≤ 2 := by omega
    simp only [toDays, fromMarch, if_pos h, if_neg hlate, Int.add_sub_cancel]
  · have hearly : month - 9 ≤ 2 := by omega
    simp only [toDays, fromMarch, if_neg h, if_pos hearly, Int.add_sub_cancel, Int.sub_add_cancel]

/-- A day is counted back from its date. -/
theorem toDays_ofDays (n : Int) :
    toDays (ofDays n).year (ofDays n).month (ofDays n).day = n := by
  obtain ⟨hpos, hle, hyear⟩ := yearOf_spec (n + 719468)
  obtain ⟨hm0, hm11, hd1, hd31⟩ := monthOf_spec hpos hle
  have hday : (153 * (monthOf (yearOf (n + 719468)).2).1 + 2) / 5 +
      (monthOf (yearOf (n + 719468)).2).2 - 1 = (yearOf (n + 719468)).2 := by
    simp only [monthOf]
    omega
  have hdays := toDays_fromMarch (yearOf (n + 719468)).1 _ _ ⟨hm0, hm11⟩ ⟨hd1, hd31⟩
  rw [hday, hyear, Int.add_sub_cancel] at hdays
  exact hdays

example : ((ofDays 0).year, (ofDays 0).month, (ofDays 0).day) = (1970, 1, 1) := by decide

example : ((ofDays 19782).year, (ofDays 19782).month, (ofDays 19782).day) = (2024, 2, 29) := by
  decide

end Cppim.Lib.Calendar
