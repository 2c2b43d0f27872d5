import ContractAlgebra.Text.Fraction
import ContractAlgebra.Text.Numeral
import ContractAlgebra.Time.Calendar
import ContractAlgebra.Time.Slice

/-!
# Written timestamps

A timestamp is written as day, month and year between slashes, then hours, minutes and seconds
between colons, then perhaps a zone: `31/12/1999 23:59:59 +0100`. Without a zone it is in universal
time. Angle brackets may stand around the whole.

When a timestamp is read, every number but the year may have one digit or two, and the year has
four. A leading digit that bounds the number is an ASCII digit; the others may be of any script.
When one is written, every number but the year has two digits, and the year as many as it needs.
-/

namespace ContractAlgebra

/-- Takes off a pair of angle brackets around a text. -/
def unbracket : List Char → List Char
  | '<' :: rest => if rest.getLast? = some '>' then rest.dropLast else '<' :: rest
  | text => text

namespace Timestamp

open Text

/-! ## Reading -/

/-- The value of an ASCII digit. -/
def asciiDigit? (c : Char) : Option Nat :=
  if '0' ≤ c ∧ c ≤ '9' then some (c.toNat - '0'.toNat) else none

/-- The value of an ASCII digit that lies between two bounds. -/
def digitBetween? (low high : Nat) (c : Char) : Option Nat :=
  (asciiDigit? c).filter fun d => low ≤ d && d ≤ high

/-- Reads a number of one or two digits. `units` reads a digit that stands alone, and the last digit
after a given number of tens. -/
def field? (units : Option Nat → Char → Option Nat) : List Char → Option Nat
  | [u] => units none u
  | [t, u] => do
    let tens ← asciiDigit? t
    let unit ← units (some tens) u
    return 10 * tens + unit
  | _ => none

/-- A day of a month, from 1 to 31. -/
def day? : List Char → Option Nat :=
  field? fun
    | none | some 0 => digitBetween? 1 9
    | some 1 | some 2 => digit?
    | some 3 => digitBetween? 0 1
    | _ => fun _ => none

/-- A month, from 1 to 12. -/
def month? : List Char → Option Nat :=
  field? fun
    | none | some 0 => digitBetween? 1 9
    | some 1 => digitBetween? 0 2
    | _ => fun _ => none

/-- An hour, from 0 to 23. -/
def hour? : List Char → Option Nat :=
  field? fun
    | none | some 0 | some 1 => digit?
    | some 2 => digitBetween? 0 3
    | _ => fun _ => none

/-- A minute or a second, from 0 to 59. There are no leap seconds. -/
def sixtieth? : List Char → Option Nat :=
  field? fun
    | none => digit?
    | some tens => fun u => if tens ≤ 5 then digit? u else none

/-- A row of digits of any script. -/
def digits? (text : List Char) : Option (List Nat) :=
  text.mapM digit?

/-- A year of four digits. -/
def year? (text : List Char) : Option Nat := do
  let digits ← digits? text
  guard (digits.length = 4)
  return ofDigits digits

/-- The number of an existing day, written with slashes. -/
def days? (text : List Char) : Option Int :=
  match text.splitOnP (· == '/') with
  | [day, month, year] => do
    let d : CalendarDay := ⟨← year? year, ← month? month, ← day? day⟩
    guard d.isValid
    return d.toDays
  | _ => none

/-- The seconds of a day up to a time, written with colons. -/
def secondOfDay? (text : List Char) : Option Nat :=
  match text.splitOnP (· == ':') with
  | [hour, minute, second] =>
    return 3600 * (← hour? hour) + 60 * (← sixtieth? minute) + (← sixtieth? second)
  | _ => none

/-- Takes off a colon if colons are wanted. -/
def afterColon? (wanted : Bool) : List Char → Option (List Char)
  | ':' :: rest => if wanted then some rest else none
  | rest => if wanted then none else some rest

/-- The microseconds of a fraction of a second, written with one to six digits. -/
def fraction? (text : List Char) : Option Nat := do
  let digits ← digits? text
  guard (1 ≤ digits.length && digits.length ≤ 6)
  return ofDigits digits * Nat.pow 10 (6 - digits.length)

/-- The microseconds in the minutes of a zone and in the seconds and fraction that may follow. -/
def zoneMinutes? (colons : Bool) (text : List Char) : Option Nat :=
  match text with
  | t :: u :: rest => do
    let minutes ← sixtieth? [t, u]
    let seconds ← if rest.isEmpty then some 0 else
      match ← afterColon? colons rest with
      | [t, u] => (sixtieth? [t, u]).map (· * 1000000)
      | t :: u :: '.' :: rest => do pure ((← sixtieth? [t, u]) * 1000000 + (← fraction? rest))
      | _ => none
    return minutes * 60000000 + seconds
  | _ => none

/-- The offset of a zone in microseconds: `Z`, or a sign, hours and minutes, and perhaps seconds.
Colons stand between all of these or between none. An offset is less than a day. -/
def zone? : List Char → Option Int
  | ['Z'] => some 0
  | sign :: t :: u :: rest => do
    guard (sign = '+' ∨ sign = '-')
    let hours ← digits? [t, u]
    let colons := rest.head? = some ':'
    let minutes ← zoneMinutes? colons (← afterColon? colons rest)
    let offset := ofDigits hours * 3600000000 + minutes
    guard (offset < 86400000000)
    return signed (sign = '-') offset
  | _ => none

/-- The whole seconds in a number of microseconds. The quotient is kept to 53 significant bits
before its fraction is dropped, so just below a large whole second it counts as that second. -/
def wholeSeconds (microseconds : Int) : Int :=
  if microseconds % 1000000 = 0 then microseconds / 1000000
  else
    let magnitude := microseconds.natAbs
    let places := 52 - (magnitude / 1000000).log2
    let scaled := roundDiv (magnitude * Nat.pow 2 places) 1000000
    signed (microseconds < 0) (scaled / Nat.pow 2 places)

/-- The time that the words of a timestamp denote. -/
def ofWords? : List (List Char) → Option Int
  | [date, time] => return (← days? date) * 86400 + (← secondOfDay? time)
  | [date, time, zone] => do
    let civil := (← days? date) * 86400 + (← secondOfDay? time)
    return wholeSeconds (civil * 1000000 - (← zone? zone))
  | _ => none

/-- The time that a timestamp denotes, brackets around it allowed. -/
def read? (text : List Char) : Option Int :=
  ofWords? (words (unbracket (trim text)))

/-! ## Writing -/

/-- Why a time has no date. -/
inductive Unwritable where
  /-- The date lies before year 1 or after year 9999. -/
  | year
  /-- The year does not fit the calendar's signed 32-bit count from 1900. -/
  | calendar
  /-- The time does not fit the clock's signed 64 bits. -/
  | clock
  deriving DecidableEq, Repr

/-- 2 to the power of 63: the clock counts seconds from minus this number up to just below it. -/
def clockLimit : Int := 0x8000000000000000

/-- The first second of the first year that the calendar counts. -/
def calendarStart : Int := -67768040609740800

/-- The first second after the last year that the calendar counts. -/
def calendarStop : Int := 67768036191676800

/-- A number with at least two digits. -/
def twoDigits (n : Nat) : String :=
  if n < 10 then "0" ++ toString n else toString n

/-- The text of a day and a second in it, in universal time. -/
def render (d : CalendarDay) (second : Nat) : String :=
  twoDigits d.day ++ "/" ++ twoDigits d.month ++ "/" ++ toString d.year ++ " " ++
    twoDigits (second / 3600) ++ ":" ++ twoDigits (second / 60 % 60) ++ ":" ++
    twoDigits (second % 60)

/-- Writes a time as a timestamp without zone. -/
def write (t : Int) : Except Unwritable String := do
  if t < -clockLimit ∨ clockLimit ≤ t then throw .clock
  if t < calendarStart ∨ calendarStop ≤ t then throw .calendar
  let d := CalendarDay.ofDays (t / 86400)
  if !CalendarDay.isCommonYear d.year then throw .year
  return render d (t % 86400).toNat

/-- Writes a time as a timestamp with the zone of universal time. -/
def writeZoned (t : Int) : Except Unwritable String :=
  return (← write t) ++ " +0000"

/-- Writes a time as a timestamp in brackets. -/
def writeBracketed (t : Int) : Except Unwritable String :=
  return "<" ++ (← write t) ++ ">"

end Timestamp

/-- The dates of a slice: one for a single instant, else both ends, or the start alone if there is
no end. -/
def Slice.dateRange (slice : Slice) : Except Timestamp.Unwritable String := do
  let start ← Timestamp.writeZoned slice.start
  match slice.stop with
  | .unbounded => return start ++ " and onwards"
  | .instant stop =>
    if stop = slice.start then return start
    return start ++ " - " ++ (← Timestamp.writeZoned stop)

end ContractAlgebra
