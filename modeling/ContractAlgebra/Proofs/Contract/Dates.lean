import ContractAlgebra.Proofs.Contract.Canonical
import ContractAlgebra.Proofs.Time.Gregorian
import ContractAlgebra.Proofs.Time.Zone

/-!
# Dates that are read back

Every time of a year of four digits is written as its day and its time of day, and what is written is
read as that time again, to the second: without zone, in any zone of whole minutes, and in brackets or
not (`Timestamp.dates_read_back`). In contract text the brackets keep the two atoms of a date together,
so it is read back wherever it stands.
-/

namespace ContractAlgebra.Timestamp

open Text

/-- A time in a year of four digits, in universal time. -/
structure InFourDigitYear (t : Int) : Prop where
  le_year : 1000 ≤ (CalendarDay.ofDays (t / 86400)).year
  year_le : (CalendarDay.ofDays (t / 86400)).year ≤ 9999

/-- The text of a time: its day of the calendar, and its second of that day. -/
def civilText (t : Int) : String :=
  render (.ofDays (t / 86400)) (t % 86400).toNat

/-- A text in brackets. -/
def bracketed (text : String) : String :=
  "<" ++ text ++ ">"

/-- A text is read as a time, in brackets or not, wherever it comes from. -/
def ReadsAs (text : String) (t : Int) : Prop :=
  ∀ index, readTimestamp index text = .ok t ∧ readTimestamp index (bracketed text) = .ok t

variable {t : Int}

/-! ## Writing -/

/-- Its day has a text. -/
theorem InFourDigitYear.hasText (h : InFourDigitYear t) : HasText (.ofDays (t / 86400)) :=
  hasText_ofDays h.le_year h.year_le

/-- A time in a year of four digits is far from the ends of the clock and of the calendar. -/
theorem InFourDigitYear.bounds (h : InFourDigitYear t) : -100000000000 < t ∧ t < 1000000000000 := by
  obtain ⟨hlow, hhigh⟩ := h
  obtain ⟨era, year, day, hyear, hday, hdays, hof⟩ := CalendarDay.exists_ofDays (t / 86400)
  rw [hof] at hlow hhigh
  dsimp only at hlow hhigh
  rw [CalendarDay.yearLength_eq] at hday
  unfold CalendarDay.daysBefore CalendarDay.epochOfEra at hdays
  -- the era has the hundreds of the year, and with it bounds the days
  have hera : 2 ≤ era ∧ era ≤ 25 := by split at hlow <;> omega
  split at hday <;> omega

/-- A time in a year of four digits is written as its day and time of day. -/
theorem InFourDigitYear.write_eq_ok (h : InFourDigitYear t) : write t = .ok (civilText t) := by
  obtain ⟨hlow, hhigh⟩ := h.bounds
  -- none of the refusals of the clock and of the calendar applies
  have hclock : ¬(t < -clockLimit ∨ clockLimit ≤ t) := by
    unfold clockLimit
    omega
  have hcalendar : ¬(t < calendarStart ∨ calendarStop ≤ t) := by
    unfold calendarStart calendarStop
    omega
  have hyear : CalendarDay.isCommonYear (CalendarDay.ofDays (t / 86400)).year = true := by
    obtain ⟨hlow, hhigh⟩ := h
    simp only [CalendarDay.isCommonYear, Bool.and_eq_true, decide_eq_true_eq]
    omega
  unfold write
  simp only [hclock, hcalendar, hyear, if_false, Bool.not_true, Bool.false_eq_true]
  rfl

/-- The zone of universal time is one of no minutes. -/
theorem InFourDigitYear.writeZoned_eq_ok (h : InFourDigitYear t) :
    writeZoned t = .ok (civilText t ++ " " ++ zoneText false 0) := by
  rw [writeZoned, h.write_eq_ok, String.append_assoc]
  rfl

/-- In brackets, nothing else is written. -/
theorem InFourDigitYear.writeBracketed_eq_ok (h : InFourDigitYear t) :
    writeBracketed t = .ok (bracketed (civilText t)) := by
  rw [writeBracketed, h.write_eq_ok]
  rfl

/-! ## Reading -/

/-- The brackets stand around the text. -/
theorem toList_bracketed (text : String) : (bracketed text).toList = '<' :: text.toList ++ ['>'] := by
  simp [bracketed, String.toList_append]

/-- The index matters only for the refusal. -/
theorem readsAs_of_read? {text : String} (h : read? text.toList = some t)
    (h' : read? ('<' :: text.toList ++ ['>']) = some t) : ReadsAs text t := by
  intro index
  rw [readTimestamp_eq_ok, readTimestamp_eq_ok, toList_bracketed]
  exact ⟨h, h'⟩

/-- The day and the second of a time make up that time. -/
theorem second_of_time (t : Int) : (t % 86400).toNat < 86400 ∧
    (CalendarDay.ofDays (t / 86400)).toDays * 86400 + (t % 86400).toNat = t := by
  rw [CalendarDay.toDays_ofDays]
  omega

/-- What is written is read back. -/
theorem InFourDigitYear.readsAs (h : InFourDigitYear t) : ReadsAs (civilText t) t := by
  obtain ⟨hsecond, htime⟩ := second_of_time t
  apply readsAs_of_read?
  · exact (read?_render h.hasText hsecond).trans (congrArg some htime)
  · exact (read?_bracketed h.hasText hsecond).trans (congrArg some htime)

/-- The day and time of day in a zone, with that zone, are read as the time they are of. -/
theorem readsAs_zoned {minutes : Int} (h : InFourDigitYear (t + 60 * minutes))
    (hminutes : minutes.natAbs < 1440) (colon : Bool) :
    ReadsAs (civilText (t + 60 * minutes) ++ " " ++ zoneText colon minutes) t := by
  obtain ⟨hsecond, htime⟩ := second_of_time (t + 60 * minutes)
  obtain ⟨hread, hread'⟩ := read?_zoned h.hasText hsecond colon hminutes rfl
  rw [htime, Int.add_sub_cancel] at hread hread'
  exact readsAs_of_read? hread hread'

/-- In universal time the zone may be written or not. -/
theorem InFourDigitYear.readsAs_universal (h : InFourDigitYear t) :
    ReadsAs (civilText t ++ " " ++ zoneText false 0) t := by
  have hself : t + 60 * 0 = t := Int.add_zero t
  have hyear : InFourDigitYear (t + 60 * 0) := hself.symm ▸ h
  have hread := readsAs_zoned hyear (by decide) false
  rwa [hself] at hread

/-! ## Dates of contract text -/

/-- A time of 32 bits lies in a year of four digits. -/
theorem inFourDigitYear_of_date (date : UInt32) : InFourDigitYear date.toNat :=
  ⟨(hasText_ofDate date).le_year, (hasText_ofDate date).bounds.2.2.2.2⟩

/-- The atoms of a written time of 32 bits are read as that date, whatever stands around them. -/
theorem readDate_civilText (date : UInt32) :
    Bracketed (atoms (bracketed (civilText date.toNat))) ∧ ∀ index rest,
      readDate index (atoms (bracketed (civilText date.toNat)) ++ rest) =
        .ok (date, (atoms (bracketed (civilText date.toNat))).length) := by
  obtain ⟨hsecond, htime⟩ := second_of_time date.toNat
  obtain ⟨hbracketed, hread, _⟩ :=
    bracketed_render (inFourDigitYear_of_date date).hasText hsecond (toList_bracketed _)
  rw [htime] at hread
  exact ⟨hbracketed, fun _ _ => readDate_of_bracketed hbracketed hread⟩

/-- Days are those of the calendar, and times of years of four digits are read back from what is
written for them: without zone and in universal time, from the day and time of day in any zone of whole
minutes that is less than a day, and from the atoms of a date at any place in a contract. -/
theorem dates_read_back :
    CalendarDay.IsCalendar CalendarDay.ofDays ∧
      (∀ t, InFourDigitYear t → ∃ plain zoned, plain = civilText t ∧ write t = .ok plain ∧
        writeZoned t = .ok zoned ∧ writeBracketed t = .ok (bracketed plain) ∧
          ReadsAs plain t ∧ ReadsAs zoned t) ∧
      (∀ t minutes, InFourDigitYear (t + 60 * minutes) → -1440 < minutes → minutes < 1440 →
        ∃ civil, write (t + 60 * minutes) = .ok civil ∧
          ∀ colon, ReadsAs (civil ++ " " ++ zoneText colon minutes) t) ∧
      (∀ t, 0 ≤ t → t ≤ 2 ^ 32 - 1 → ∃ text, writeBracketed t = .ok text ∧ Bracketed (atoms text) ∧
        ∀ before after, ∃ date : UInt32, (date.toNat : Int) = t ∧
          readDate before.length ((before ++ atoms text ++ after).drop before.length) =
            .ok (date, (atoms text).length)) := by
  -- the calendar, times as they are written, times in other zones, and dates in contract text
  refine ⟨CalendarDay.isCalendar_ofDays, ?_, ?_, ?_⟩
  · intro t h
    exact ⟨_, _, rfl, h.write_eq_ok, h.writeZoned_eq_ok, h.writeBracketed_eq_ok, h.readsAs,
      h.readsAs_universal⟩
  · intro t minutes h hlow hhigh
    exact ⟨_, h.write_eq_ok, readsAs_zoned h (by omega)⟩
  · intro t hlow hhigh
    obtain ⟨date, rfl⟩ : ∃ date : UInt32, (date.toNat : Int) = t :=
      ⟨_, toNat_of_fitsDate (fitsDate_iff.mpr ⟨hlow, by unfold dateLimit; omega⟩)⟩
    obtain ⟨hbracketed, hread⟩ := readDate_civilText date
    refine ⟨_, (inFourDigitYear_of_date date).writeBracketed_eq_ok, hbracketed, ?_⟩
    intro before after
    rw [List.append_assoc, List.drop_left]
    exact ⟨date, rfl, hread _ _⟩

/-- Half an hour into March of 1900, which is no leap year, it was still February an hour west. -/
theorem dates_read_back_of_westOfMarch : InFourDigitYear (-2203889400 + 60 * -60) ∧
    readTimestamp none "<28/02/1900 23:30:00 -01:00>" = .ok (-2203889400) := by
  have hyear : InFourDigitYear (-2203889400 + 60 * -60) := ⟨by decide, by decide⟩
  obtain ⟨civil, hcivil, hread⟩ :=
    dates_read_back.2.2.1 (-2203889400) (-60) hyear (by decide) (by decide)
  have hwritten : write (-2203889400 + 60 * -60) = .ok "28/02/1900 23:30:00" := by decide +kernel
  obtain rfl : "28/02/1900 23:30:00" = civil := Except.ok.inj (hwritten.symm.trans hcivil)
  exact ⟨hyear, (hread true none).2⟩

end ContractAlgebra.Timestamp
