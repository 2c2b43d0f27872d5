/-!
# Ranges of words

A word of bytecode is a signed 64-bit integer, and so is a constant factor of a contract. Truncation
dates are unsigned 32-bit integers.
-/

namespace ContractAlgebra

/-- 2 to the power of 63: words lie from minus this number up to just below it. -/
def wordLimit : Int := 0x8000000000000000

/-- 2 to the power of 64: how many words there are. -/
def wordSpan : Nat := 0x10000000000000000

/-- 2 to the power of 32: dates lie below this number. -/
def dateLimit : Int := 0x100000000

/-- Whether a number is a signed 64-bit integer. -/
def fitsWord (n : Int) : Bool :=
  -wordLimit ≤ n && n < wordLimit

/-- Whether a number is an unsigned 32-bit integer. -/
def fitsDate (n : Int) : Bool :=
  0 ≤ n && n < dateLimit

end ContractAlgebra
