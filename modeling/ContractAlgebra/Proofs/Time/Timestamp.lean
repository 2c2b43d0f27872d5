import ContractAlgebra.Time.Timestamp
import ContractAlgebra.Proofs.Text.Numeral
import ContractAlgebra.Proofs.Text.Runs
import ContractAlgebra.Proofs.Time.Calendar

/-!
# Timestamps that are read back

A timestamp is written as the text of a day and that of a time within it, with a blank between them
(`toList_render`). Each of the two is read as what it was written for, and its words are what is read
of a text, in brackets or not (`read?_words`). So the whole is read as the time that it denotes
(`read?_bracketed`).
-/

namespace ContractAlgebra

open Text

namespace Text

/-! ## Characters -/

/-- A text of ASCII digits. -/
def AllDigits (text : List Char) : Prop :=
  ∀ c ∈ text, c.isDigit = true

/-- An ASCII digit is no blank. -/
theorem isBlank_of_isDigit {c : Char} (h : c.isDigit = true) : isBlank c = false :=
  isBlank_of_digit (digit?_of_isDigit h)

/-- A row of digits is read digit by digit. -/
theorem mapM_digit? {text : List Char} {digits : List Nat} (h : Spells text digits) :
    text.mapM digit? = some digits := by
  obtain ⟨-, hvalues⟩ := h
  induction hvalues with
  | nil => rfl
  | cons hd _ ih => simp [List.mapM_cons, hd, ih]

end Text

/-- Brackets around a text are taken off again. -/
theorem unbracket_bracketed (text : List Char) : unbracket ('<' :: text ++ ['>']) = text := by
  simp [unbracket]

/-- Nothing is taken off a text that does not begin with a bracket. -/
theorem unbracket_of_head? {text : List Char} (h : text.head? ≠ some '<') : unbracket text = text := by
  unfold unbracket
  split
  · exact absurd rfl h
  · rfl

namespace Timestamp

/-! ## Numbers of two digits and years -/

/-- A number below 60 is written with two digits, and read back wherever it is in range. -/
theorem twoDigits_spec {n : Nat} (h : n < 60) : AllDigits (twoDigits n).toList ∧
    (1 ≤ n → n ≤ 31 → day? (twoDigits n).toList = some n) ∧
      (1 ≤ n → n ≤ 12 → month? (twoDigits n).toList = some n) ∧
        (n < 24 → hour? (twoDigits n).toList = some n) ∧
          sixtieth? (twoDigits n).toList = some n := by
  have hall : ∀ n < 60, (twoDigits n).toList.all Char.isDigit = true ∧
      (1 ≤ n → n ≤ 31 → day? (twoDigits n).toList = some n) ∧
        (1 ≤ n → n ≤ 12 → month? (twoDigits n).toList = some n) ∧
          (n < 24 → hour? (twoDigits n).toList = some n) ∧
            sixtieth? (twoDigits n).toList = some n := by
    decide +kernel
  obtain ⟨hdigits, hread⟩ := hall n h
  exact ⟨List.all_eq_true.mp hdigits, hread⟩

/-- A year of four digits is read back. -/
theorem year?_toString (year : Nat) (h : 1000 ≤ year) (h' : year ≤ 9999) :
    AllDigits (toString year).toList ∧ year? (toString year).toList = some year := by
  have htext : (toString year).toList = Nat.toDigits 10 year := by
    rw [Nat.toString_eq_ofList_toDigits, String.toList_ofList]
  obtain ⟨digits, hspells, hvalue⟩ := spells_toDigits year
  -- from 1000 to 9999 there are four digits
  have hlength : digits.length = 4 := by
    have hle : (Nat.toDigits 10 year).length ≤ 4 := by
      rw [Nat.length_toDigits_le_iff (by decide) (by decide)]
      omega
    have hgt : ¬(Nat.toDigits 10 year).length ≤ 3 := by
      rw [Nat.length_toDigits_le_iff (by decide) (by decide)]
      omega
    rw [hspells.length_eq]
    omega
  rw [htext]
  constructor
  · intro c hc
    exact Nat.isDigit_of_mem_toDigits (by decide) (by decide) hc
  · unfold year? digits?
    simp [mapM_digit? hspells, hlength, guard, hvalue]

/-! ## Days and times -/

/-- The text of a day. -/
def dayText (d : CalendarDay) : List Char :=
  (twoDigits d.day).toList ++ '/' :: ((twoDigits d.month).toList ++ '/' :: (toString d.year).toList)

/-- The text of a second of a day. -/
def timeText (second : Nat) : List Char :=
  (twoDigits (second / 3600)).toList ++ ':' :: ((twoDigits (second / 60 % 60)).toList ++
    ':' :: (twoDigits (second % 60)).toList)

/-- A timestamp is the text of its day, a blank and the text of its time. -/
theorem toList_render (d : CalendarDay) (second : Nat) :
    (render d second).toList = dayText d ++ ' ' :: timeText second := by
  simp [render, dayText, timeText, String.toList_append]

/-- Three texts of digits are told apart by a mark between them. -/
theorem splitOnP_marked {mark : Char} (hmark : mark.isDigit = false) {a b c : List Char}
    (ha : AllDigits a) (hb : AllDigits b) (hc : AllDigits c) :
    (a ++ mark :: (b ++ mark :: c)).splitOnP (· == mark) = [a, b, c] := by
  -- no digit is the mark
  have hfree : ∀ {text : List Char}, AllDigits text → ∀ c ∈ text, (c == mark) = false := by
    intro text htext c hc
    rw [beq_eq_false_iff_ne]
    rintro rfl
    rw [htext c hc] at hmark
    cases hmark
  rw [List.splitOnP_append_cons_of_forall_mem (hfree ha) mark (beq_self_eq_true mark),
    List.splitOnP_append_cons_of_forall_mem (hfree hb) mark (beq_self_eq_true mark),
    List.splitOnP_eq_singleton (hfree hc)]

variable {d : CalendarDay} {second : Nat}

/-- A day of the calendar whose year has four digits. -/
structure HasText (d : CalendarDay) : Prop where
  isValid : d.isValid = true
  le_year : 1000 ≤ d.year

/-- The day that is found for a number has a text if its year has four digits. -/
theorem hasText_ofDays {days : Int} (h : 1000 ≤ (CalendarDay.ofDays days).year)
    (h' : (CalendarDay.ofDays days).year ≤ 9999) : HasText (.ofDays days) := by
  refine ⟨CalendarDay.isValid_ofDays ?_, h⟩
  simp only [CalendarDay.isCommonYear, Bool.and_eq_true, decide_eq_true_eq]
  exact ⟨by omega, h'⟩

/-- The parts of a day that has a text are in range. -/
theorem HasText.bounds (h : HasText d) : 1 ≤ d.month ∧ d.month ≤ 12 ∧ 1 ≤ d.day ∧ d.day ≤ 31 ∧
    d.year ≤ 9999 := by
  have hvalid := h.isValid
  simp only [CalendarDay.isValid, CalendarDay.isCommonYear, Bool.and_eq_true,
    decide_eq_true_eq] at hvalid
  obtain ⟨⟨⟨⟨⟨_, hyear⟩, hmonth⟩, hmonth'⟩, hday⟩, hday'⟩ := hvalid
  -- no month is longer than 31 days
  have hlength : CalendarDay.daysInMonth d.year d.month ≤ 31 := by
    unfold CalendarDay.daysInMonth
    split
    · split <;> decide
    · split <;> decide
  exact ⟨hmonth, hmonth', hday, Nat.le_trans hday' hlength, hyear⟩

/-- The three parts of a day's text are numbers, and these are read back. -/
theorem HasText.parts (h : HasText d) :
    (AllDigits (twoDigits d.day).toList ∧ day? (twoDigits d.day).toList = some d.day) ∧
      (AllDigits (twoDigits d.month).toList ∧ month? (twoDigits d.month).toList = some d.month) ∧
        AllDigits (toString d.year).toList ∧ year? (toString d.year).toList = some d.year.toNat := by
  obtain ⟨hmonth, hmonth', hday, hday', hyear⟩ := h.bounds
  have hlow := h.le_year
  obtain ⟨hdayDigits, hdayRead, _⟩ := twoDigits_spec (n := d.day) (by omega)
  obtain ⟨hmonthDigits, _, hmonthRead, _⟩ := twoDigits_spec (n := d.month) (by omega)
  have htext : toString d.year = toString d.year.toNat := by
    rw [← Int.toNat_of_nonneg (a := d.year) (by omega)]
    rfl
  obtain ⟨hyearDigits, hyearRead⟩ := year?_toString d.year.toNat (by omega) (by omega)
  rw [htext]
  exact ⟨⟨hdayDigits, hdayRead hday hday'⟩, ⟨hmonthDigits, hmonthRead hmonth hmonth'⟩,
    hyearDigits, hyearRead⟩

/-- The text of a day is read as its number. -/
theorem HasText.days?_dayText (h : HasText d) : days? (dayText d) = some d.toDays := by
  obtain ⟨⟨hday, hdayRead⟩, ⟨hmonth, hmonthRead⟩, hyear, hyearRead⟩ := h.parts
  have hlow := h.le_year
  have hself : CalendarDay.mk (d.year.toNat : Int) d.month d.day = d := by
    rw [Int.toNat_of_nonneg (by omega)]
  unfold days? dayText
  rw [splitOnP_marked rfl hday hmonth hyear]
  simp only [bind, Option.bind, hyearRead, hmonthRead, hdayRead, hself, h.isValid, guard, if_true,
    pure]

/-- The three parts of a time are numbers, and its text is read back. -/
theorem timeText_parts (h : second < 86400) :
    AllDigits (twoDigits (second / 3600)).toList ∧
      AllDigits (twoDigits (second / 60 % 60)).toList ∧ AllDigits (twoDigits (second % 60)).toList ∧
        secondOfDay? (timeText second) = some second := by
  obtain ⟨hhour, _, _, hhourRead, _⟩ := twoDigits_spec (n := second / 3600) (by omega)
  obtain ⟨hminute, _, _, _, hminuteRead⟩ := twoDigits_spec (n := second / 60 % 60) (by omega)
  obtain ⟨hsecond, _, _, _, hsecondRead⟩ := twoDigits_spec (n := second % 60) (by omega)
  -- the hours, minutes and seconds that are left add up to the second
  have hsum : 3600 * (second / 3600) + 60 * (second / 60 % 60) + second % 60 = second := by omega
  refine ⟨hhour, hminute, hsecond, ?_⟩
  unfold secondOfDay? timeText
  rw [splitOnP_marked rfl hhour hminute hsecond]
  simp [hhourRead (by omega), hminuteRead, hsecondRead, hsum]

/-! ## Whole timestamps -/

/-- What is true of digits and of a mark is true of numbers with the mark between them. -/
theorem forall_mem_marked {p : Char → Prop} (hdigit : ∀ c, c.isDigit = true → p c) {mark : Char}
    (hmark : p mark) {a b c : List Char} (ha : AllDigits a) (hb : AllDigits b) (hc : AllDigits c) :
    ∀ x ∈ a ++ mark :: (b ++ mark :: c), p x := by
  have hall : ∀ {text : List Char}, AllDigits text → ∀ x ∈ text, p x :=
    fun htext x hx => hdigit x (htext x hx)
  simp only [List.forall_mem_append, List.forall_mem_cons]
  exact ⟨hall ha, hmark, hall hb, hmark, hall hc⟩

/-- What is true of digits and slashes is true of the text of a day. -/
theorem HasText.forall_mem_dayText (h : HasText d) {p : Char → Prop}
    (hdigit : ∀ c, c.isDigit = true → p c) (hmark : p '/') : ∀ c ∈ dayText d, p c := by
  obtain ⟨⟨hday, _⟩, ⟨hmonth, _⟩, hyear, _⟩ := h.parts
  exact forall_mem_marked hdigit hmark hday hmonth hyear

/-- What is true of digits and colons is true of the text of a time. -/
theorem forall_mem_timeText (h : second < 86400) {p : Char → Prop}
    (hdigit : ∀ c, c.isDigit = true → p c) (hmark : p ':') : ∀ c ∈ timeText second, p c := by
  obtain ⟨hhour, hminute, hsecond, _⟩ := timeText_parts h
  exact forall_mem_marked hdigit hmark hhour hminute hsecond

/-- The text of a day is a word. -/
theorem HasText.isWord_dayText (h : HasText d) : IsWord (dayText d) where
  ne_nil := by simp [dayText]
  unbroken := h.forall_mem_dayText (fun _ => isBlank_of_isDigit) rfl

/-- The text of a time is a word. -/
theorem isWord_timeText (h : second < 86400) : IsWord (timeText second) where
  ne_nil := by simp [timeText]
  unbroken := forall_mem_timeText h (fun _ => isBlank_of_isDigit) rfl

/-- A timestamp is read by its words: its day, its time and perhaps a zone. -/
theorem read?_words (h : HasText d) (hsecond : second < 86400) {zones : List (List Char)}
    (hzones : ∀ zone ∈ zones, IsWord zone) {words : List (List Char)}
    (hwords : words = dayText d :: timeText second :: zones) :
    read? (unwords words) = ofWords? words ∧
      read? ('<' :: unwords words ++ ['>']) = ofWords? words := by
  have hall : ∀ word ∈ words, IsWord word := by
    rw [hwords, List.forall_mem_cons, List.forall_mem_cons]
    exact ⟨h.isWord_dayText, isWord_timeText hsecond, hzones⟩
  obtain ⟨hfirst, hlast⟩ := isBlank_of_end_unwords hall
  -- the first word is a day, which begins with a digit
  have hopen : (unwords words).head? ≠ some '<' := by
    rw [hwords, unwords_cons_cons, List.head?_append_of_ne_nil _ h.isWord_dayText.ne_nil]
    intro hhead
    refine h.forall_mem_dayText (p := (· ≠ '<')) ?_ (by decide) _ (List.mem_of_head? hhead) rfl
    rintro _ hdigit rfl
    cases hdigit
  constructor
  · rw [read?, trim, trimBy_of_ends hfirst hlast, unbracket_of_head? hopen, words_unwords hall]
  -- in brackets, the two ends are the brackets, and no blanks
  · have htrim : trimBy isBlank ('<' :: unwords words ++ ['>']) = '<' :: unwords words ++ ['>'] := by
      apply trimBy_of_ends
      · intro c hc
        cases hc
        rfl
      · intro c hc
        rw [List.getLast?_concat] at hc
        cases hc
        rfl
    rw [read?, trim, htrim, unbracket_bracketed, words_unwords hall]

/-- A timestamp without zone denotes the second of its day. -/
theorem ofWords?_render (h : HasText d) (hsecond : second < 86400) :
    ofWords? [dayText d, timeText second] = some (d.toDays * 86400 + second) := by
  obtain ⟨_, _, _, htime⟩ := timeText_parts hsecond
  simp [ofWords?, h.days?_dayText, htime]

/-- The words of a timestamp are its day and its time. -/
theorem toList_render_eq_unwords (d : CalendarDay) (second : Nat) :
    (render d second).toList = unwords [dayText d, timeText second] := by
  rw [toList_render, unwords_cons_cons]
  simp [unwords, List.intercalate]

/-- A timestamp is read as the time that it was written for. -/
theorem read?_render (h : HasText d) (hsecond : second < 86400) :
    read? (render d second).toList = some (d.toDays * 86400 + second) := by
  rw [toList_render_eq_unwords, (read?_words h hsecond (List.forall_mem_nil _) rfl).1,
    ofWords?_render h hsecond]

/-- In brackets it is read as the same time. -/
theorem read?_bracketed (h : HasText d) (hsecond : second < 86400) :
    read? ('<' :: (render d second).toList ++ ['>']) = some (d.toDays * 86400 + second) := by
  rw [toList_render_eq_unwords, (read?_words h hsecond (List.forall_mem_nil _) rfl).2,
    ofWords?_render h hsecond]

end Timestamp

end ContractAlgebra
