import ContractAlgebra.Proofs.Time.Calendar

/-!
# One day after the other

The day that is found for the next number is the next day of the Gregorian calendar: the next one of
its month, the first of the next month after the last one, and the first of January after a year. With
the first day that is counted, this says which day is found for any number
(`CalendarDay.isCalendar_ofDays`).

A year is reckoned from March, so a day is followed by the next one of the year but for the leap day or
the one in place of it, which the first of March follows in the next year (`next_ofPlace_last`).
-/

namespace ContractAlgebra.CalendarDay

/-- The day after a day. -/
def next (d : CalendarDay) : CalendarDay :=
  if d.day < daysInMonth d.year d.month then { d with day := d.day + 1 }
  else if d.month < 12 then { d with month := d.month + 1, day := 1 }
  else ⟨d.year + 1, 1, 1⟩

/-- Days are numbered one after the other, from the first of January 1970 on and back from it. -/
structure IsCalendar (day : Int → CalendarDay) : Prop where
  epoch : day 0 = ⟨1970, 1, 1⟩
  next : ∀ n, day (n + 1) = (day n).next
  isDay : ∀ n, (day n).IsDay

/-! ## Places in an era -/

/-- The day at a place in an era: a year from March on, and a day of it. -/
def ofPlace (era : Int) (year day : Nat) : CalendarDay :=
  ⟨year + era * 400 + if monthOf (monthFromMarch day) ≤ 2 then 1 else 0,
    monthOf (monthFromMarch day), day - daysBeforeMonth (monthFromMarch day) + 1⟩

/-- The days before a year grow with the years. -/
theorem daysBefore_mono {year year' : Int} (h : year ≤ year') :
    daysBefore year ≤ daysBefore year' := by
  unfold daysBefore
  omega

/-- A number has one place. -/
theorem place_unique {era era' : Int} {year year' day day' : Nat} (hyear : year < 400)
    (hyear' : year' < 400) (hday : (day : Int) < yearLength year)
    (hday' : (day' : Int) < yearLength year')
    (h : era * 146097 + daysBefore year + day = era' * 146097 + daysBefore year' + day') :
    era = era' ∧ year = year' ∧ day = day' := by
  have hstart : daysBefore 0 = 0 := rfl
  have hstop : daysBefore 400 = 146097 := rfl
  have hlow : daysBefore 0 ≤ daysBefore year := daysBefore_mono (by omega)
  have hlow' : daysBefore 0 ≤ daysBefore year' := daysBefore_mono (by omega)
  have hhigh : daysBefore (year + 1) ≤ daysBefore 400 := daysBefore_mono (by omega)
  have hhigh' : daysBefore (year' + 1) ≤ daysBefore 400 := daysBefore_mono (by omega)
  unfold yearLength at hday hday'
  -- an era is as long as its years together, so a place in one is not in the next
  obtain rfl : era = era' := by omega
  -- an earlier year has ended before a later one starts
  rcases Nat.lt_trichotomy year year' with hlt | rfl | hlt
  · have hmono : daysBefore (year + 1) ≤ daysBefore year' := daysBefore_mono (by omega)
    omega
  · exact ⟨rfl, rfl, by omega⟩
  · have hmono : daysBefore (year' + 1) ≤ daysBefore year := daysBefore_mono (by omega)
    omega

/-- A day of a year is in the same month as the one before it, or is the first of the next month. -/
theorem monthFromMarch_succ {day : Nat} (h : day + 1 < 366) :
    (monthFromMarch (day + 1) = monthFromMarch day ∧
      (monthFromMarch day < 11 →
        day - daysBeforeMonth (monthFromMarch day) + 1 < daysInMonth 1 (monthOf (monthFromMarch day)))) ∨
    (monthFromMarch (day + 1) = monthFromMarch day + 1 ∧ monthFromMarch day < 11 ∧
      day - daysBeforeMonth (monthFromMarch day) + 1 = daysInMonth 1 (monthOf (monthFromMarch day)) ∧
        daysBeforeMonth (monthFromMarch day + 1) = day + 1) := by
  -- all days of a year but the last
  have hall : ∀ day < 365, (monthFromMarch (day + 1) = monthFromMarch day ∧
      (monthFromMarch day < 11 → day - daysBeforeMonth (monthFromMarch day) + 1 <
        daysInMonth 1 (monthOf (monthFromMarch day)))) ∨
      (monthFromMarch (day + 1) = monthFromMarch day + 1 ∧ monthFromMarch day < 11 ∧
        day - daysBeforeMonth (monthFromMarch day) + 1 =
          daysInMonth 1 (monthOf (monthFromMarch day)) ∧
        daysBeforeMonth (monthFromMarch day + 1) = day + 1) := by
    decide +kernel
  exact hall day (by omega)

/-- How long the February is that ends a year from March on. -/
theorem daysInMonth_february (era : Int) (year : Nat) :
    (daysInMonth (year + era * 400 + 1) 2 : Int) = yearLength year - 337 := by
  have hyear : (year : Int) + era * 400 + 1 = year + 1 + era * 400 := by omega
  rw [hyear, yearLength_eq]
  unfold daysInMonth
  rw [if_pos rfl, isLeap_add_era]
  split <;> rfl

/-- January follows December, and else the next month has the next number. -/
theorem monthOf_succ {month : Nat} (h : month < 11) :
    (monthOf month = 12 ∧ monthOf (month + 1) = 1) ∨
      (monthOf month < 12 ∧ monthOf (month + 1) = monthOf month + 1 ∧ monthOf month ≠ 2) := by
  unfold monthOf
  split <;> split <;> omega

/-- Within a year, the next day has the next place. -/
theorem next_ofPlace {era : Int} {year day : Nat} (h : (day : Int) + 1 < yearLength year) :
    (ofPlace era year day).next = ofPlace era year (day + 1) := by
  have hlength := yearLength_eq year
  have hday : day + 1 < 366 := by split at hlength <;> omega
  obtain ⟨hmonth, hfirst, _, hfebruary⟩ := monthFromMarch_spec (Nat.lt_of_succ_lt hday)
  obtain ⟨_, _, _, hearly, hsecond⟩ := monthOf_spec hmonth
  have hstep := monthFromMarch_succ hday
  unfold ofPlace next
  dsimp only
  generalize hm : monthFromMarch day = month at *
  rcases hstep with ⟨hsame, hwithin⟩ | ⟨hnext, hmonth, hlast, hstart⟩
  · -- the month goes on
    have hgoes : day - daysBeforeMonth month + 1 <
        daysInMonth (year + era * 400 + if monthOf month ≤ 2 then 1 else 0) (monthOf month) := by
      by_cases hfeb : month = 11
      · have hlength := daysInMonth_february era year
        have hbefore := hfebruary hfeb
        rw [if_pos (hearly.mpr (by omega)), hsecond.mpr hfeb]
        omega
      · rw [daysInMonth_of_ne (fun htwo => hfeb (hsecond.mp htwo)) _ 1]
        exact hwithin (by omega)
    rw [if_pos hgoes, hsame]
    congr 1
    omega
  · -- the month ends, and is not the February that ends the year
    have hends : ¬day - daysBeforeMonth month + 1 <
        daysInMonth (year + era * 400 + if monthOf month ≤ 2 then 1 else 0) (monthOf month) := by
      rw [daysInMonth_of_ne (fun htwo => by have := hsecond.mp htwo; omega) _ 1, hlast]
      exact Nat.lt_irrefl _
    rw [if_neg hends, hnext, hstart, Nat.sub_self]
    rcases monthOf_succ hmonth with ⟨htwelve, hone⟩ | ⟨hlt, hsucc, hne⟩
    · rw [if_neg (by omega), htwelve, hone]
      simp
    · rw [if_pos hlt, hsucc]
      congr 1
      split <;> split <;> omega

/-- A year begins with the first of March. -/
theorem ofPlace_zero (era : Int) (year : Nat) : ofPlace era year 0 = ⟨year + era * 400, 3, 1⟩ :=
  congrArg (CalendarDay.mk · 3 1) (Int.add_zero _)

/-- The first of March follows the last day of a year. -/
theorem next_ofPlace_last {era : Int} {year day : Nat} (h : (day : Int) + 1 = yearLength year) :
    (ofPlace era year day).next = ⟨year + era * 400 + 1, 3, 1⟩ := by
  have hlength := yearLength_eq year
  -- the last day of a year is in its last month, whether there is a leap day or not
  have hmonth : monthFromMarch day = 11 := by
    unfold monthFromMarch
    split at hlength <;> omega
  have hfebruary := daysInMonth_february era year
  have hplace : ofPlace era year day = ⟨year + era * 400 + 1, 2, day - 337 + 1⟩ := by
    unfold ofPlace
    rw [hmonth]
    rfl
  have hends : ¬day - 337 + 1 < daysInMonth (year + era * 400 + 1) 2 := by omega
  rw [hplace, next, if_neg hends]
  rfl

/-! ## Numbers -/

/-- The day that is found for the next number is the next one. -/
theorem ofDays_succ (days : Int) : ofDays (days + 1) = (ofDays days).next := by
  obtain ⟨era, year, day, hyear, hday, hdays, hof⟩ := exists_ofDays days
  obtain ⟨era', year', day', hyear', hday', hdays', hof'⟩ := exists_ofDays (days + 1)
  have hplace : ofDays days = ofPlace era year day := hof
  have hplace' : ofDays (days + 1) = ofPlace era' year' day' := hof'
  rw [hplace, hplace']
  -- the year goes on, or it ends with this day
  rcases Int.lt_or_eq_of_le (Int.add_one_le_of_lt hday) with hwithin | hlast
  · obtain ⟨rfl, rfl, rfl⟩ : era = era' ∧ year = year' ∧ day + 1 = day' :=
      place_unique hyear hyear' (by push_cast; exact hwithin) hday' (by push_cast; omega)
    exact (next_ofPlace hwithin).symm
  · rw [next_ofPlace_last hlast]
    unfold yearLength at hlast
    rcases Nat.lt_or_eq_of_le (Nat.succ_le_of_lt hyear) with hnext | hend
    · -- the next year of the era begins
      have hpositive : ((0 : Nat) : Int) < yearLength (year + 1 : Nat) := by
        rw [yearLength_eq]
        split <;> decide
      obtain ⟨rfl, rfl, rfl⟩ : era = era' ∧ year + 1 = year' ∧ 0 = day' :=
        place_unique hnext hyear' hpositive hday' (by push_cast; omega)
      rw [ofPlace_zero]
      congr 1
      push_cast
      omega
    · -- the next era begins
      obtain rfl : year = 399 := by omega
      have hpositive : ((0 : Nat) : Int) < yearLength (0 : Nat) := by decide
      have hera : daysBefore ((399 : Nat) + 1) = 146097 := rfl
      have hstart : daysBefore (0 : Nat) = 0 := rfl
      obtain ⟨rfl, rfl, rfl⟩ : era + 1 = era' ∧ 0 = year' ∧ 0 = day' :=
        place_unique (by decide) hyear' hpositive hday' (by omega)
      rw [ofPlace_zero]
      congr 1
      omega

/-- The days that are found for numbers are those of the calendar. -/
theorem isCalendar_ofDays : IsCalendar ofDays :=
  ⟨by decide, ofDays_succ, isDay_ofDays⟩

end ContractAlgebra.CalendarDay
