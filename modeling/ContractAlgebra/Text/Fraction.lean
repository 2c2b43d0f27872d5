/-!
# Decimal fractions

A decimal fraction is shown as the binary number of 53 significant bits next to it: with the fewest
digits that are read as that number again, and with an exponent only if it is very large or small.
-/

namespace ContractAlgebra.Text

/-- Rounds a quotient to the nearest integer, halves to the even one. -/
def roundDiv (num den : Nat) : Nat :=
  let quotient := num / den
  let double := 2 * (num % den)
  if den < double || (double == den && quotient % 2 == 1) then quotient + 1 else quotient

/-- A number in decimal digits, of which `exponent` more follow or, if negative, are a fraction. -/
structure Fraction where
  negative : Bool
  digits : Nat
  exponent : Int
  deriving DecidableEq, Repr

namespace Fraction

/-- How many digits a number has. -/
def width (digits : Nat) : Nat :=
  (toString digits).length

/-- The number with at most so many digits, the last of them rounded. -/
def round (f : Fraction) (count : Nat) : Fraction :=
  let dropped := width f.digits - count
  { f with digits := roundDiv f.digits (Nat.pow 10 dropped), exponent := f.exponent + dropped }

/-- The magnitude of a number with 53 significant bits. -/
def magnitude (f : Fraction) : Float :=
  .ofScientific f.digits (f.exponent < 0) f.exponent.natAbs

/-- The first of the 53 bits, 2 to the power of 52, which is not stored. -/
def hiddenBit : Nat := 0x10000000000000

/-- The digits of a number of 53 significant bits, all of them. -/
def ofMagnitude (x : Float) : Fraction :=
  let bits := x.toBits.toNat
  let biased := bits / hiddenBit % 0x800
  let mantissa := bits % hiddenBit + if biased = 0 then 0 else hiddenBit
  let power : Int := ((max biased 1 : Nat) : Int) - 1075
  if 0 ≤ power then ⟨false, mantissa * Nat.pow 2 power.natAbs, 0⟩
  else ⟨false, mantissa * Nat.pow 5 power.natAbs, power⟩

/-- The power of ten of the first digit. -/
def scale (f : Fraction) : Int :=
  f.exponent + width f.digits - 1

/-- The most digits that are needed to tell numbers of 53 bits apart. -/
def maxWidth : Nat := 17

/-- The number with the fewest digits that has a given magnitude, and the nearest of them. -/
def shortest (x : Float) : Fraction :=
  let exact := ofMagnitude x
  let candidates := (List.range maxWidth).map fun i => exact.round (i + 1)
  (candidates.find? fun f => f.magnitude == x).getD (exact.round maxWidth)

/-- The digits without the zeros at their end. -/
def significant (f : Fraction) : List Char :=
  ((toString f.digits).toList.reverse.dropWhile (· == '0')).reverse

/-- Digits with a point after the first `whole` of them, and zeros where there are no digits. -/
def positional (digits : List Char) (whole : Int) : List Char :=
  if whole ≤ 0 then '0' :: '.' :: (List.replicate whole.natAbs '0' ++ digits)
  else
    let fraction := digits.drop whole.natAbs
    digits.take whole.natAbs ++ List.replicate (whole.natAbs - digits.length) '0' ++
      '.' :: (if fraction.isEmpty then ['0'] else fraction)

/-- One digit, a point and the other digits, and the power of ten of the first digit. -/
def scientific (digits : List Char) (power : Int) : List Char :=
  let fraction := digits.drop 1
  let size := (toString power.natAbs).toList
  digits.take 1 ++ (if fraction.isEmpty then [] else '.' :: fraction) ++
    'e' :: (if power < 0 then '-' else '+') :: (List.replicate (2 - size.length) '0' ++ size)

/-- The magnitude of a number as it is shown. Beyond a power of 308 numbers are infinite, and below
one of -324 they are zero. -/
def magnitudeText (f : Fraction) : List Char :=
  if f.digits = 0 ∨ f.scale < -330 then ['0', '.', '0']
  else if 310 < f.scale then ['i', 'n', 'f']
  else if f.magnitude == 0.0 then ['0', '.', '0']
  else if f.magnitude.isInf then ['i', 'n', 'f']
  else
    let short := shortest f.magnitude
    let power := short.scale
    if -4 ≤ power ∧ power < 16 then positional short.significant (power + 1)
    else scientific short.significant power

/-- A number as it is shown. -/
def text (f : Fraction) : String :=
  String.ofList ((if f.negative then ['-'] else []) ++ f.magnitudeText)

end Fraction

end ContractAlgebra.Text
