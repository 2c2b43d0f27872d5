import ContractAlgebra.Time.Calendar
import Mathlib.Tactic.Common
import Mathlib.Tactic.Lift

/-!
# Days that are numbered and found again

Every day number is that of the day found for it (`CalendarDay.toDays_ofDays`), and that day exists
(`CalendarDay.isValid_ofDays`).

Both reckonings agree on the years of an era (`yearOfEra_spec`). The quotient that gives the year of
a day does not fall from one day to the next, so it is enough to look at the first day and the last
day of each year. The same goes for the months of a year (`monthFromMarch_spec`).
-/

namespace ContractAlgebra.CalendarDay

/-! ## The years of an era -/

/-- The days of an era before one of its years. -/
def daysBefore (year : Int) : Int :=
  365 * year + year / 4 - year / 100 + year / 400

/-- The days of an era before one of its days, without the leap days. -/
def commonDays (dayOfEra : Int) : Int :=
  dayOfEra - dayOfEra / 1460 + dayOfEra / 36524 - dayOfEra / 146096

/-- They grow with the days. -/
theorem commonDays_mono {day day' : Int} (h : day ≤ day') : commonDays day ≤ commonDays day' := by
  unfold commonDays
  omega

/-- The first and the last day of a year of an era are counted to it. -/
theorem commonDays_of_ends (year : Nat) (h : year < 400) :
    365 * (year : Int) ≤ commonDays (daysBefore year) ∧
      commonDays (daysBefore (year + 1) - 1) < 365 * (year + 1) := by
  -- the 400 years of an era
  have hall : ∀ year : Nat, year < 400 → 365 * (year : Int) ≤ commonDays (daysBefore year) ∧
      commonDays (daysBefore (year + 1) - 1) < 365 * (year + 1) := by
    decide +kernel
  exact hall year h

/-- A day of an era lies in the year that is found for it. -/
theorem yearOfEra_spec {day : Int} (h : 0 ≤ day) (h' : day < 146097) :
    ∃ year : Nat, commonDays day / 365 = year ∧ year < 400 ∧
      daysBefore year ≤ day ∧ day < daysBefore (year + 1) := by
  have hlow : commonDays 0 ≤ commonDays day := commonDays_mono h
  have hhigh : commonDays day ≤ commonDays 146096 := commonDays_mono (by omega)
  have hfirst : commonDays 0 = 0 := rfl
  have hlast : commonDays 146096 = 145999 := rfl
  obtain ⟨year, hyear⟩ := Int.eq_ofNat_of_zero_le (a := commonDays day / 365) (by omega)
  have hbound : year < 400 := by omega
  refine ⟨year, hyear, hbound, ?_, ?_⟩
  · -- the days before the first one of the year are counted to the year before it
    by_contra hbefore
    obtain ⟨previous, rfl⟩ : ∃ previous, year = previous + 1 := by
      refine Nat.exists_eq_add_one.mpr (Nat.pos_of_ne_zero ?_)
      rintro rfl
      exact hbefore h
    have hends := (commonDays_of_ends previous (by omega)).2
    have hmono : commonDays day ≤ commonDays (daysBefore (previous + 1) - 1) :=
      commonDays_mono (by push_cast at hbefore; omega)
    omega
  · -- the days from the first one of the next year on are counted to that year
    by_contra hafter
    have hnext : year + 1 < 400 := by
      by_contra hera
      obtain rfl : year = 399 := by omega
      exact hafter h'
    have hends := (commonDays_of_ends (year + 1) hnext).1
    have hmono : commonDays (daysBefore (year + 1)) ≤ commonDays day :=
      commonDays_mono (Int.not_lt.mp hafter)
    push_cast at hends
    omega

/-- How many days a year has from March to February. -/
def yearLength (year : Int) : Int :=
  daysBefore (year + 1) - daysBefore year

/-- A leap year is a fourth year, but among the hundredth ones only a fourth one of these. -/
theorem isLeap_iff {year : Int} :
    isLeap year = true ↔ year % 4 = 0 ∧ (year % 100 ≠ 0 ∨ year % 400 = 0) := by
  simp [isLeap]

/-- A leap day is the last day of the year that begins in the March before it. -/
theorem yearLength_eq (year : Int) : yearLength year = if isLeap (year + 1) then 366 else 365 := by
  unfold yearLength daysBefore
  split
  · next hleap =>
      have hleap := isLeap_iff.mp hleap
      omega
  · next hcommon =>
      rw [isLeap_iff] at hcommon
      omega

/-- Leap years come again in the next era. -/
theorem isLeap_add_era (year era : Int) : isLeap (year + era * 400) = isLeap year := by
  rw [Bool.eq_iff_iff, isLeap_iff, isLeap_iff]
  omega

/-! ## The months of a year -/

/-- The month of a day of a year, both counted from the start of March. -/
def monthFromMarch (day : Nat) : Nat :=
  (5 * day + 2) / 153

/-- The days of a year before one of its months. -/
def daysBeforeMonth (month : Nat) : Nat :=
  (153 * month + 2) / 5

/-- A month, counted from the start of January. -/
def monthOf (month : Nat) : Nat :=
  if month < 10 then month + 3 else month - 9

/-- A day of a year lies in the month that is found for it. Only February, which ends the year, has
its length from the year. -/
theorem monthFromMarch_spec {day : Nat} (h : day < 366) : monthFromMarch day < 12 ∧
    daysBeforeMonth (monthFromMarch day) ≤ day ∧
      (monthFromMarch day < 11 → day - daysBeforeMonth (monthFromMarch day) <
        daysInMonth 1 (monthOf (monthFromMarch day))) ∧
      (monthFromMarch day = 11 → daysBeforeMonth (monthFromMarch day) = 337) := by
  -- all days of a year that may have a leap day
  have hall : ∀ day < 366, monthFromMarch day < 12 ∧
      daysBeforeMonth (monthFromMarch day) ≤ day ∧
        (monthFromMarch day < 11 → day - daysBeforeMonth (monthFromMarch day) <
          daysInMonth 1 (monthOf (monthFromMarch day))) ∧
        (monthFromMarch day = 11 → daysBeforeMonth (monthFromMarch day) = 337) := by
    decide +kernel
  exact hall day h

/-- A month from March on is found again from its number, and February is the last of them. -/
theorem monthOf_spec {month : Nat} (h : month < 12) : 1 ≤ monthOf month ∧ monthOf month ≤ 12 ∧
    (monthOf month + 9) % 12 = month ∧ (monthOf month ≤ 2 ↔ 10 ≤ month) ∧
      (monthOf month = 2 ↔ month = 11) := by
  unfold monthOf
  split <;> omega

/-! ## Days -/

/-- The day that is found for a number: its place in its era, and in its year. -/
theorem exists_ofDays (days : Int) : ∃ (era : Int) (year day : Nat), year < 400 ∧
    (day : Int) < yearLength year ∧ days + epochOfEra = era * 146097 + daysBefore year + day ∧
      ofDays days = ⟨year + era * 400 + if monthOf (monthFromMarch day) ≤ 2 then 1 else 0,
        monthOf (monthFromMarch day), day - daysBeforeMonth (monthFromMarch day) + 1⟩ := by
  have hrange : 0 ≤ (days + epochOfEra) % 146097 ∧ (days + epochOfEra) % 146097 < 146097 := by omega
  have hsplit := Int.mul_ediv_add_emod (days + epochOfEra) 146097
  obtain ⟨year, hyear, hbound, hstart, hend⟩ := yearOfEra_spec hrange.1 hrange.2
  -- the day of the year is what is left of the day of the era
  obtain ⟨day, hday⟩ := Int.eq_ofNat_of_zero_le (Int.sub_nonneg.mpr hstart)
  have hlength : (day : Int) < yearLength year := by
    unfold yearLength
    omega
  have hshort : yearLength year ≤ 366 := by
    rw [yearLength_eq]
    split <;> omega
  have hday366 : day < 366 := by omega
  obtain ⟨hmonth, hfirst, _⟩ := monthFromMarch_spec hday366
  refine ⟨(days + epochOfEra) / 146097, year, day, hbound, hlength, by omega, ?_⟩
  -- the numbers in the definition are those of the lemmas above
  have hdayOfYear : (days + epochOfEra) % 146097 - (365 * (year : Int) + year / 4 - year / 100) = day := by
    unfold daysBefore at hday
    omega
  have hmonthFromMarch : (5 * (day : Int) + 2) / 153 = monthFromMarch day := rfl
  have hdaysBefore : (153 * (monthFromMarch day : Int) + 2) / 5 = daysBeforeMonth (monthFromMarch day) := rfl
  have hmonthOf : (if (monthFromMarch day : Int) < 10 then (monthFromMarch day : Int) + 3
      else monthFromMarch day - 9) = monthOf (monthFromMarch day) := by
    unfold monthOf
    split <;> split <;> omega
  unfold commonDays at hyear
  unfold ofDays
  simp only [hyear, hdayOfYear, hmonthFromMarch, hdaysBefore, hmonthOf, Int.toNat_natCast]
  congr 1
  · split <;> split <;> omega
  · omega

/-- A day is found for its number again. -/
theorem toDays_ofDays (days : Int) : (ofDays days).toDays = days := by
  obtain ⟨era, year, day, hyear, hday, hdays, hof⟩ := exists_ofDays days
  have hday366 : day < 366 := by
    rw [yearLength_eq] at hday
    split at hday <;> omega
  obtain ⟨hmonth, hfirst, _⟩ := monthFromMarch_spec hday366
  obtain ⟨_, _, hback, _⟩ := monthOf_spec hmonth
  rw [hof]
  -- only the bounds of the month count from here on
  generalize monthFromMarch day = month at hmonth hfirst hback
  unfold toDays
  dsimp only
  -- the reckoning back finds the year, the era and the month that the day was made of
  have hyearFromMarch : (if monthOf month ≤ 2 then
      ((year : Int) + era * 400 + if monthOf month ≤ 2 then 1 else 0) - 1
      else (year : Int) + era * 400 + if monthOf month ≤ 2 then 1 else 0) = year + era * 400 := by
    split <;> omega
  have hera : ((year : Int) + era * 400) / 400 = era := by omega
  have hyearOfEra : ((year : Int) + era * 400) % 400 = year := by omega
  have hmonthFromMarch : ((monthOf month : Int) + 9) % 12 = month := by omega
  have hbefore : (153 * (month : Int) + 2) / 5 = daysBeforeMonth month := rfl
  rw [hyearFromMarch, hera, hyearOfEra, hmonthFromMarch, hbefore]
  unfold daysBefore at hdays
  omega

/-- Months other than February have one length in all years. -/
theorem daysInMonth_of_ne {month : Nat} (h : month ≠ 2) (year year' : Int) :
    daysInMonth year month = daysInMonth year' month := by
  unfold daysInMonth
  rw [if_neg h, if_neg h]

/-- A day that exists, in any year. -/
structure IsDay (d : CalendarDay) : Prop where
  one_le_month : 1 ≤ d.month
  month_le : d.month ≤ 12
  one_le_day : 1 ≤ d.day
  day_le : d.day ≤ daysInMonth d.year d.month

/-- The day that is found for a number exists. -/
theorem isDay_ofDays (days : Int) : (ofDays days).IsDay := by
  obtain ⟨era, year, day, hyear, hday, hdays, hof⟩ := exists_ofDays days
  rw [yearLength_eq] at hday
  have hday366 : day < 366 := by split at hday <;> omega
  obtain ⟨hmonth, hfirst, hlength, hfebruary⟩ := monthFromMarch_spec hday366
  obtain ⟨hlow, hhigh, _, hearly, hsecond⟩ := monthOf_spec hmonth
  rw [hof]
  generalize monthFromMarch day = month at *
  refine ⟨hlow, hhigh, Nat.le_add_left 1 _, ?_⟩
  dsimp only
  by_cases hlast : month = 11
  · -- February has a leap day if the year from March to February has
    have htwo := hsecond.mpr hlast
    have hyearOf : (year : Int) + era * 400 + (if monthOf month ≤ 2 then 1 else 0) =
        (year : Int) + 1 + era * 400 := by
      rw [if_pos (hearly.mpr (by omega))]
      omega
    have hbefore := hfebruary hlast
    rw [hyearOf, htwo]
    unfold daysInMonth
    rw [if_pos rfl, isLeap_add_era]
    split <;> simp_all <;> omega
  · have hne : monthOf month ≠ 2 := fun htwo => hlast (hsecond.mp htwo)
    have hwithin := hlength (by omega)
    rw [daysInMonth_of_ne hne _ 1]
    omega

/-- If its year is one that dates are written in, it can be written. -/
theorem isValid_ofDays {days : Int} (h : isCommonYear (ofDays days).year = true) :
    (ofDays days).isValid = true := by
  obtain ⟨hlow, hhigh, hfirst, hlast⟩ := isDay_ofDays days
  simp [isValid, h, hlow, hhigh, hfirst, hlast]

end ContractAlgebra.CalendarDay
