import ContractAlgebra.Text.Blank
import ContractAlgebra.Text.Digit

/-!
# Integer numerals

Two grammars live here. A *numeral* is what a number may be typed as: one sign, then digits with
single underscores between them. An *integer atom* of a contract is stricter, as it has no
underscores. Both allow blanks around them and digits of any script; but around a numeral the four
information separators are no blanks.

A numeral has at most `maxDigits` digits, leading zeros counted; longer ones denote nothing, and no
number is written with more.
-/

namespace ContractAlgebra.Text

/-- The most digits that a number is read or written with. -/
def maxDigits : Nat := 4300

/-- Takes one sign off a text; `true` stands for a minus. -/
def splitSign : List Char → Bool × List Char
  | '-' :: rest => (true, rest)
  | '+' :: rest => (false, rest)
  | rest => (false, rest)

/-- Reads a non-empty row of digits in which single underscores may stand between two digits. -/
def groupedDigits? : List Char → Option (List Nat)
  | [] => none
  | c :: rest =>
    match digit? c, rest with
    | none, _ => none
    | some d, [] => some [d]
    | some d, '_' :: rest => (groupedDigits? rest).map (d :: ·)
    | some d, rest => (groupedDigits? rest).map (d :: ·)

/-- Gives a magnitude its sign. -/
def signed (negative : Bool) (magnitude : Nat) : Int :=
  if negative then -magnitude else magnitude

/-- The blanks that may stand around a numeral. -/
def isNumeralBlank (c : Char) : Bool :=
  isBlank c && !(0x1C ≤ c.toNat && c.toNat ≤ 0x1F)

/-- The integer that a numeral denotes. -/
def int? (text : List Char) : Option Int := do
  let (negative, body) := splitSign (trimBy isNumeralBlank text)
  let digits ← groupedDigits? body
  guard (digits.length ≤ maxDigits)
  return signed negative (ofDigits digits)

/-- Whether a text is a sign and digits, blanks around it aside. -/
def isIntegerAtom (text : List Char) : Bool :=
  let body := (splitSign (trim text)).2
  !body.isEmpty && body.all isDigit

/-- Whether a number is short enough to be written: whether it lies below 10 to the power of
`maxDigits`. The power is taken in two steps, so that evaluation takes each of them at once. -/
def isShort (n : Int) : Bool :=
  n.natAbs < Nat.pow (Nat.pow 10 43) 100

/-- The decimal text of a number, if it is short enough to be written. -/
def decimal? (n : Int) : Option String :=
  if isShort n then some (toString n) else none

end ContractAlgebra.Text
