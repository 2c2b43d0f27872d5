import ContractAlgebra.Text.Numeral
import Mathlib.Algebra.Group.Nat.Defs

/-!
# Numbers that can be written

A number is written if it has at most `maxDigits` digits (`Text.isShort_iff`), and a row of numbers if
each of them is. What shows a number of any size may therefore have no text.
-/

namespace ContractAlgebra.Text

variable {n : Int}

/-- Numbers are short below the power of ten with `maxDigits` zeros. -/
theorem isShort_iff : isShort n = true ↔ n.natAbs < Nat.pow 10 maxDigits := by
  -- the exponents stay variables, so that neither power is ever computed
  have hpow : ∀ steps rounds : Nat, Nat.pow (Nat.pow 10 steps) rounds = Nat.pow 10 (steps * rounds) :=
    fun steps rounds => (Nat.pow_mul 10 steps rounds).symm
  have hdigits : 43 * 100 = maxDigits := by decide
  unfold isShort
  rw [hpow, hdigits, decide_eq_true_iff]

/-- Numbers are too long from that power on. -/
theorem not_isShort_iff : isShort n = false ↔ Nat.pow 10 maxDigits ≤ n.natAbs := by
  rw [← Nat.not_lt, ← isShort_iff, Bool.not_eq_true]

/-- Numbers of twenty digits, and so all words, are far from being too long. -/
theorem pow_twenty_le : 10 ^ 20 ≤ Nat.pow 10 maxDigits := by
  -- the bound is kept apart from the number of digits, so that its power is never computed
  have hpow : ∀ digits, 20 ≤ digits → 10 ^ 20 ≤ Nat.pow 10 digits := by
    intro digits hdigits
    exact Nat.pow_le_pow_right (by decide) hdigits
  exact hpow _ (by decide)

/-- Numbers of twenty digits are short. -/
theorem isShort_of_lt (h : n.natAbs < 10 ^ 20) : isShort n = true :=
  isShort_iff.mpr (Nat.lt_of_lt_of_le h pow_twenty_le)

/-- The first number that is too long. -/
def tooLong : Int := Nat.pow (Nat.pow 10 43) 100

/-- Between 0 and a short number all are short. -/
theorem isShort_of_le {m : Int} (hzero : 0 ≤ m) (hle : m ≤ n) (hn : isShort n = true) :
    isShort m = true := by
  rw [isShort_iff] at hn ⊢
  omega

/-! ## Writing -/

/-- A short number is written in decimal. -/
theorem decimal?_of_short (h : isShort n = true) : decimal? n = some (toString n) := by
  rw [decimal?, if_pos h]

/-- Only short numbers have a text. -/
@[simp] theorem isSome_decimal? (n : Int) : (decimal? n).isSome = isShort n := by
  unfold decimal?
  cases isShort n <;> rfl

/-- A row of numbers is written if each number is. -/
theorem isSome_mapM_decimal? (numbers : List Int) :
    (numbers.mapM decimal?).isSome = numbers.all isShort := by
  induction numbers with
  | nil => rfl
  | cons n numbers ih =>
      rw [List.mapM_cons, List.all_cons, ← ih, ← isSome_decimal?]
      -- a number without a text leaves the row without one
      cases decimal? n with
      | none => rfl
      | some text => cases numbers.mapM decimal? <;> rfl

end ContractAlgebra.Text
