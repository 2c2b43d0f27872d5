import ContractAlgebra.Proofs.Time.Timestamp

/-!
# Zones that are read back

A zone of whole minutes is written as a sign, its hours and its minutes, with a colon between them or
without (`zoneText`). It is read as the offset that it was written for (`zone?_zoneText`), so a
timestamp that ends with it denotes its day and time less the zone (`ofWords?_zoned`).
-/

namespace ContractAlgebra.Timestamp

open Text

/-- The text of a zone, given in minutes: a sign, the hours and the minutes, and perhaps a colon
between these. -/
def zoneText (colon : Bool) (minutes : Int) : String :=
  (if minutes < 0 then "-" else "+") ++ twoDigits (minutes.natAbs / 60) ++
    (if colon then ":" else "") ++ twoDigits (minutes.natAbs % 60)

/-! ## Texts -/

/-- A number of two digits, digit by digit. -/
theorem exists_twoDigits {n : Nat} (h : n < 60) : ∃ t u, (twoDigits n).toList = [t, u] ∧
    (∀ c ∈ [t, u], c.isDigit = true) ∧
      (∃ digits, digits? [t, u] = some digits ∧ ofDigits digits = n) ∧
        sixtieth? [t, u] = some n := by
  -- sixty cases
  have hall : ∀ n < 60, (twoDigits n).toList = [Nat.digitChar (n / 10), Nat.digitChar (n % 10)] ∧
      [Nat.digitChar (n / 10), Nat.digitChar (n % 10)].all Char.isDigit = true ∧
        digits? [Nat.digitChar (n / 10), Nat.digitChar (n % 10)] = some [n / 10, n % 10] ∧
          ofDigits [n / 10, n % 10] = n := by
    decide +kernel
  obtain ⟨htext, hdigits, hread, hvalue⟩ := hall n h
  obtain ⟨_, _, _, _, hsixtieth⟩ := twoDigits_spec h
  rw [htext] at hsixtieth
  exact ⟨_, _, htext, List.all_eq_true.mp hdigits, ⟨_, hread, hvalue⟩, hsixtieth⟩

/-- The mark between the hours and the minutes of a zone. -/
def colonText (colon : Bool) : List Char :=
  if colon then [':'] else []

/-- A zone is a sign and two numbers of two digits, perhaps with a colon between them. -/
theorem toList_zoneText (colon : Bool) (minutes : Int) : (zoneText colon minutes).toList =
    (if minutes < 0 then '-' else '+') :: ((twoDigits (minutes.natAbs / 60)).toList ++
      (colonText colon ++ (twoDigits (minutes.natAbs % 60)).toList)) := by
  simp only [zoneText, String.toList_append, colonText]
  split <;> cases colon <;> simp

/-- A zone is a word. -/
theorem isWord_zoneText (colon : Bool) {minutes : Int} (h : minutes.natAbs < 1440) :
    IsWord (zoneText colon minutes).toList := by
  obtain ⟨hhours, _⟩ := twoDigits_spec (n := minutes.natAbs / 60) (by omega)
  obtain ⟨hminutes, _⟩ := twoDigits_spec (n := minutes.natAbs % 60) (by omega)
  rw [toList_zoneText]
  refine ⟨List.cons_ne_nil _ _, ?_⟩
  simp only [List.forall_mem_cons, List.forall_mem_append]
  -- the sign, the hours, the colon if there is one, and the minutes
  refine ⟨by split <;> rfl, fun c hc => isBlank_of_isDigit (hhours c hc), ?_,
    fun c hc => isBlank_of_isDigit (hminutes c hc)⟩
  cases colon
  · exact List.forall_mem_nil _
  · exact List.forall_mem_singleton.mpr rfl

/-! ## Reading -/

/-- A condition that holds lets the reading go on. -/
theorem guard_of {p : Prop} [Decidable p] (h : p) : (guard p : Option Unit) = some () :=
  if_pos h

/-- A zone is read part by part. -/
theorem zone?_of_parts {sign t u : Char} {hours : List Nat} {rest minutesText : List Char}
    {minutes : Nat} (hsign : sign = '+' ∨ sign = '-') (hhours : digits? [t, u] = some hours)
    (hrest : afterColon? (rest.head? = some ':') rest = some minutesText)
    (hminutes : zoneMinutes? (rest.head? = some ':') minutesText = some minutes)
    (hday : ofDigits hours * 3600000000 + minutes < 86400000000) :
    zone? (sign :: t :: u :: rest) =
      some (signed (sign = '-') (ofDigits hours * 3600000000 + minutes)) := by
  rw [zone?]
  -- one step after the other, as the bound of a day is too great to be computed with
  refine Option.bind_eq_some_iff.mpr ⟨(), guard_of hsign, ?_⟩
  refine Option.bind_eq_some_iff.mpr ⟨hours, hhours, ?_⟩
  refine Option.bind_eq_some_iff.mpr ⟨minutesText, hrest, ?_⟩
  refine Option.bind_eq_some_iff.mpr ⟨minutes, hminutes, ?_⟩
  exact Option.bind_eq_some_iff.mpr ⟨(), guard_of hday, rfl⟩

/-- The mark between hours and minutes is taken off where it stands. -/
theorem afterColon?_colonText (colon : Bool) {t u : Char} (h : t.isDigit = true) :
    decide ((colonText colon ++ [t, u]).head? = some ':') = colon ∧
      afterColon? colon (colonText colon ++ [t, u]) = some [t, u] := by
  cases colon
  -- without a colon, the minutes begin with a digit
  · have hne : t ≠ ':' := by
      rintro rfl
      cases h
    refine ⟨by simp [colonText, hne], ?_⟩
    unfold afterColon?
    split
    · next heq => exact absurd (List.cons.inj heq).1 hne
    · rfl
  · exact ⟨rfl, rfl⟩

/-- A zone of less than a day is read as the offset that it was written for. -/
theorem zone?_zoneText (colon : Bool) {minutes : Int} (h : minutes.natAbs < 1440) :
    zone? (zoneText colon minutes).toList = some (minutes * 60000000) := by
  -- there are less than 24 hours, so both numbers are written with two digits
  obtain ⟨t, u, hhours, _, ⟨digits, hdigits, hvalue⟩, _⟩ :=
    exists_twoDigits (n := minutes.natAbs / 60) (by omega)
  obtain ⟨t', u', hminutes, hdigit, _, hsixtieth⟩ :=
    exists_twoDigits (n := minutes.natAbs % 60) (by omega)
  obtain ⟨hcolon, hafter⟩ :=
    afterColon?_colonText colon (u := u') (hdigit t' (List.mem_cons_self ..))
  have hrest : zoneMinutes? colon [t', u'] = some (minutes.natAbs % 60 * 60000000) := by
    simp [zoneMinutes?, hsixtieth]
  have hoffset : ofDigits digits * 3600000000 + minutes.natAbs % 60 * 60000000 =
      minutes.natAbs * 60000000 := by
    omega
  -- the sign is left open until the parts are read
  have hread : ∀ sign, sign = '+' ∨ sign = '-' →
      zone? (sign :: t :: u :: (colonText colon ++ [t', u'])) =
        some (signed (sign = '-') (minutes.natAbs * 60000000)) := by
    intro sign hsign
    rw [← hoffset]
    apply zone?_of_parts hsign hdigits
    · rw [hcolon]
      exact hafter
    · rw [hcolon]
      exact hrest
    · omega
  rw [toList_zoneText, hhours, hminutes]
  -- the sign tells which of the two offsets it is
  by_cases hneg : minutes < 0
  · rw [if_pos hneg]
    refine (hread '-' (Or.inr rfl)).trans (congrArg some ?_)
    simp only [signed, decide_true, if_true]
    omega
  · rw [if_neg hneg]
    refine (hread '+' (Or.inl rfl)).trans (congrArg some ?_)
    simp only [signed, Char.reduceEq, decide_false, Bool.false_eq_true, if_false]
    omega

/-- A whole number of seconds is not rounded. -/
theorem wholeSeconds_of_seconds (seconds : Int) : wholeSeconds (seconds * 1000000) = seconds := by
  unfold wholeSeconds
  rw [if_pos (by omega)]
  omega

variable {d : CalendarDay} {second : Nat}

/-- A timestamp with a zone denotes its day and time in that zone. -/
theorem ofWords?_zoned (h : HasText d) (hsecond : second < 86400) (colon : Bool) {minutes : Int}
    (hminutes : minutes.natAbs < 1440) :
    ofWords? [dayText d, timeText second, (zoneText colon minutes).toList] =
      some (d.toDays * 86400 + second - 60 * minutes) := by
  obtain ⟨_, _, _, htime⟩ := timeText_parts hsecond
  have hseconds : (d.toDays * 86400 + (second : Int)) * 1000000 - minutes * 60000000 =
      (d.toDays * 86400 + second - 60 * minutes) * 1000000 := by
    omega
  simp only [ofWords?, h.days?_dayText, htime, zone?_zoneText colon hminutes, bind, Option.bind, pure]
  rw [hseconds, wholeSeconds_of_seconds]

/-- A timestamp with a zone is read as the time that it denotes, in brackets or not. -/
theorem read?_zoned (h : HasText d) (hsecond : second < 86400) (colon : Bool) {minutes : Int}
    (hminutes : minutes.natAbs < 1440) {text : List Char}
    (htext : text = (render d second ++ " " ++ zoneText colon minutes).toList) :
    read? text = some (d.toDays * 86400 + second - 60 * minutes) ∧
      read? ('<' :: text ++ ['>']) = some (d.toDays * 86400 + second - 60 * minutes) := by
  have hunwords : text = unwords [dayText d, timeText second, (zoneText colon minutes).toList] := by
    rw [htext, unwords_cons_cons, unwords_cons_cons, String.toList_append, String.toList_append,
      toList_render]
    simp [unwords, List.intercalate]
  have hread := read?_words h hsecond
    (List.forall_mem_singleton.mpr (isWord_zoneText colon hminutes)) rfl
  rw [hunwords, ← ofWords?_zoned h hsecond colon hminutes]
  exact hread

end ContractAlgebra.Timestamp
