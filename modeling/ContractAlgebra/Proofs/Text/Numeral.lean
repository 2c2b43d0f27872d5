import ContractAlgebra.Text.Numeral
import Mathlib.Algebra.Group.Nat.Defs
import Mathlib.Data.List.Forall2
import Mathlib.Data.Option.Basic

/-!
# Numerals as a relation

A numeral, blanks and underscores aside, is a sign or none and then digits of any script (`Numeral`).
Among texts without blanks these are just the integer atoms (`isIntegerAtom_iff`), and the integer
that is read from one is what the digits spell, unless there are too many of them (`int?_numeral`).
The decimal text of an integer is a numeral for it (`numeral_toString`), so it is read as that integer
if there are not too many digits (`int?_toString`).
-/

namespace ContractAlgebra.Text

/-! ## Rows of digits -/

/-- A row of digits of any script, with their values. -/
structure Spells (text : List Char) (digits : List Nat) : Prop where
  ne_nil : text ≠ []
  values : List.Forall₂ (fun c d => digit? c = some d) text digits

/-- A digit stands in one of the blocks, as far from its zero as its value says. -/
theorem digit?_eq_some {c : Char} {d : Nat} (h : digit? c = some d) :
    d < 10 ∧ ∃ z ∈ digitZeros, c.toNat = z + d := by
  unfold digit? at h
  obtain ⟨z, hfind, hd⟩ := Option.map_eq_some_iff.mp h
  have hrange := List.find?_some hfind
  simp only [Bool.and_eq_true, decide_eq_true_eq] at hrange
  exact ⟨by omega, z, List.mem_of_find?_eq_some hfind, by omega⟩

/-- No digit is a blank. -/
theorem isBlank_of_digit {c : Char} {d : Nat} (h : digit? c = some d) : isBlank c = false := by
  obtain ⟨hd, z, hz, hc⟩ := digit?_eq_some h
  -- every digit of every script is tried
  have hall : ∀ z ∈ digitZeros, ∀ d < 10, isBlank (Char.ofNat (z + d)) = false := by decide
  rw [← Char.ofNat_toNat c, hc]
  exact hall z hz d hd

/-- Each character of a row of digits is a digit. -/
theorem Spells.digit_of_mem {text : List Char} {digits : List Nat} (h : Spells text digits) {c : Char}
    (hc : c ∈ text) : ∃ d, digit? c = some d := by
  obtain ⟨-, hvalues⟩ := h
  induction hvalues with
  | nil => cases hc
  | cons hd _ ih =>
      rcases List.mem_cons.mp hc with rfl | hc
      · exact ⟨_, hd⟩
      · exact ih hc

/-- A text is a row of digits if it has some, and nothing else. -/
theorem exists_spells_iff {text : List Char} :
    (∃ digits, Spells text digits) ↔ text ≠ [] ∧ ∀ c ∈ text, isDigit c = true := by
  constructor
  · intro h
    obtain ⟨digits, h⟩ := h
    refine ⟨h.ne_nil, fun c hc => ?_⟩
    obtain ⟨d, hd⟩ := h.digit_of_mem hc
    rw [isDigit, hd]
    rfl
  · intro h
    obtain ⟨hne, hall⟩ := h
    have hvalues : ∃ digits, List.Forall₂ (fun c d => digit? c = some d) text digits := by
      -- the induction goes through the empty text, which is no row of digits
      clear hne
      induction text with
      | nil => exact ⟨[], .nil⟩
      | cons c text ih =>
          obtain ⟨hc, hall⟩ := List.forall_mem_cons.mp hall
          obtain ⟨d, hd⟩ := Option.isSome_iff_exists.mp hc
          obtain ⟨digits, hdigits⟩ := ih hall
          exact ⟨d :: digits, .cons hd hdigits⟩
    obtain ⟨digits, hdigits⟩ := hvalues
    exact ⟨digits, hne, hdigits⟩

/-- A character has at most one value as a digit. -/
theorem Spells.eq {text : List Char} {digits digits' : List Nat} (h : Spells text digits)
    (h' : Spells text digits') : digits = digits' := by
  obtain ⟨-, hvalues⟩ := h
  obtain ⟨-, hvalues'⟩ := h'
  induction hvalues generalizing digits' with
  | nil =>
      cases hvalues'
      rfl
  | cons hd _ ih =>
      cases hvalues' with
      | cons hd' hvalues' => rw [Option.some.inj (hd.symm.trans hd'), ih hvalues']

/-- A row of digits has as many values as characters. -/
theorem Spells.length_eq {text : List Char} {digits : List Nat} (h : Spells text digits) :
    digits.length = text.length :=
  h.values.length_eq.symm

/-- A row of digits is read as the digits in it. -/
theorem groupedDigits?_spells {text : List Char} {digits : List Nat} (h : Spells text digits) :
    groupedDigits? text = some digits := by
  obtain ⟨hne, hvalues⟩ := h
  induction hvalues with
  | nil => exact absurd rfl hne
  | @cons c d text digits hd hvalues ih =>
      cases hvalues with
      | nil => simp [groupedDigits?, hd]
      | @cons c' d' text digits hd' hvalues =>
          -- the next character is a digit, so the underscore case does not arise
          have hgroup : c' ≠ '_' := by
            intro hc'
            rw [hc'] at hd'
            cases hd'
          have hrest := ih (List.cons_ne_nil _ _)
          unfold groupedDigits?
          rw [hd]
          split
          next hnone => cases hnone
          next hlast => cases hlast
          next hunder =>
            cases hunder
            exact absurd rfl hgroup
          next hsome _ _ =>
            cases hsome
            rw [hrest]
            rfl

/-! ## Signs -/

/-- A sign or none, and a row of digits. `negative` tells whether the sign is a minus. -/
inductive Numeral : (text : List Char) → (negative : Bool) → (digits : List Nat) → Prop where
  | plain {text digits} : Spells text digits → Numeral text false digits
  | plus {text digits} : Spells text digits → Numeral ('+' :: text) false digits
  | minus {text digits} : Spells text digits → Numeral ('-' :: text) true digits

/-- A row of digits starts with no sign. -/
theorem splitSign_spells {text : List Char} {digits : List Nat} (h : Spells text digits) :
    splitSign text = (false, text) := by
  unfold splitSign
  split
  · obtain ⟨d, hd⟩ := h.digit_of_mem (List.mem_cons_self ..)
    cases hd
  · obtain ⟨d, hd⟩ := h.digit_of_mem (List.mem_cons_self ..)
    cases hd
  · rfl

/-- A numeral is what is left of it without its sign. -/
theorem numeral_iff {text : List Char} {negative : Bool} {digits : List Nat} :
    Numeral text negative digits ↔ ∃ body, splitSign text = (negative, body) ∧ Spells body digits := by
  constructor
  · intro h
    cases h with
    | plain h => exact ⟨text, splitSign_spells h, h⟩
    | plus h => exact ⟨_, rfl, h⟩
    | minus h => exact ⟨_, rfl, h⟩
  · intro h
    obtain ⟨body, hsplit, h⟩ := h
    -- the sign that was split off is the constructor
    unfold splitSign at hsplit
    split at hsplit
    · cases hsplit
      exact .minus h
    · cases hsplit
      exact .plus h
    · cases hsplit
      exact .plain h

/-- A text is a numeral for one sign and one row of digits. -/
theorem Numeral.eq {text : List Char} {negative negative' : Bool} {digits digits' : List Nat}
    (h : Numeral text negative digits) (h' : Numeral text negative' digits') :
    negative = negative' ∧ digits = digits' := by
  obtain ⟨body, hsplit, h⟩ := numeral_iff.mp h
  obtain ⟨body', hsplit', h'⟩ := numeral_iff.mp h'
  obtain ⟨rfl, rfl⟩ := Prod.mk.inj (hsplit.symm.trans hsplit')
  exact ⟨rfl, h.eq h'⟩

/-- A numeral has no more digits than characters. -/
theorem Numeral.length_le {text : List Char} {negative : Bool} {digits : List Nat}
    (h : Numeral text negative digits) : digits.length ≤ text.length := by
  cases h with
  | plain h => exact Nat.le_of_eq h.length_eq
  | plus h => exact Nat.le_succ_of_le (Nat.le_of_eq h.length_eq)
  | minus h => exact Nat.le_succ_of_le (Nat.le_of_eq h.length_eq)

/-- There are signs and digits in a numeral, and nothing else. -/
theorem Numeral.sign_or_digit_of_mem {text : List Char} {negative : Bool} {digits : List Nat}
    (h : Numeral text negative digits) {c : Char} (hc : c ∈ text) :
    c = '+' ∨ c = '-' ∨ ∃ d, digit? c = some d := by
  cases h with
  | plain h => exact Or.inr (Or.inr (h.digit_of_mem hc))
  | plus h =>
      rcases List.mem_cons.mp hc with rfl | hc
      · exact Or.inl rfl
      · exact Or.inr (Or.inr (h.digit_of_mem hc))
  | minus h =>
      rcases List.mem_cons.mp hc with rfl | hc
      · exact Or.inr (Or.inl rfl)
      · exact Or.inr (Or.inr (h.digit_of_mem hc))

/-- There are no blanks in a numeral. -/
theorem Numeral.isBlank_of_mem {text : List Char} {negative : Bool} {digits : List Nat}
    (h : Numeral text negative digits) {c : Char} (hc : c ∈ text) : isBlank c = false := by
  rcases h.sign_or_digit_of_mem hc with rfl | rfl | ⟨d, hd⟩
  · rfl
  · rfl
  · exact isBlank_of_digit hd

/-! ## Reading -/

/-- A text keeps its two ends where they are not to be trimmed off. -/
theorem trimBy_of_ends {p : Char → Bool} {text : List Char}
    (hfirst : ∀ c, text.head? = some c → p c = false)
    (hlast : ∀ c, text.getLast? = some c → p c = false) : trimBy p text = text := by
  -- trimming looks at one end, and then at the other in the reversed text
  have hkeeps : ∀ text : List Char, (∀ c, text.head? = some c → p c = false) →
      text.dropWhile p = text := by
    intro text h
    cases text with
    | nil => rfl
    | cons c text => exact List.dropWhile_cons_of_neg (by simp [h c rfl])
  unfold trimBy
  rw [hkeeps text hfirst, hkeeps text.reverse fun c hc => hlast c (List.head?_reverse ▸ hc),
    List.reverse_reverse]

/-- Nothing is trimmed off where there is nothing to trim. -/
theorem trimBy_eq_self {p : Char → Bool} {text : List Char} (h : ∀ c ∈ text, p c = false) :
    trimBy p text = text :=
  trimBy_of_ends (fun c hc => h c (List.mem_of_head? hc)) fun c hc => h c (List.mem_of_getLast? hc)

/-- The integer atoms without blanks are the numerals. -/
theorem isIntegerAtom_iff {text : List Char} (h : ∀ c ∈ text, isBlank c = false) :
    isIntegerAtom text = true ↔ ∃ negative digits, Numeral text negative digits := by
  -- without blanks there is nothing to trim before the sign is split off
  have hbody : isIntegerAtom text = true ↔ ∃ digits, Spells (splitSign text).2 digits := by
    rw [exists_spells_iff, isIntegerAtom, trim, trimBy_eq_self h]
    simp
  rw [hbody]
  constructor
  · intro h
    obtain ⟨digits, h⟩ := h
    exact ⟨_, digits, numeral_iff.mpr ⟨_, rfl, h⟩⟩
  · intro h
    obtain ⟨negative, digits, h⟩ := h
    obtain ⟨body, hsplit, h⟩ := numeral_iff.mp h
    rw [hsplit]
    exact ⟨digits, h⟩

/-- A numeral that is not too long is read as what its digits spell. -/
theorem int?_numeral {text : List Char} {negative : Bool} {digits : List Nat}
    (h : Numeral text negative digits) :
    int? text = if digits.length ≤ maxDigits then some (signed negative (ofDigits digits)) else none := by
  -- a numeral has no blanks of either kind
  have htrim : trimBy isNumeralBlank text = text := by
    apply trimBy_eq_self
    intro c hc
    rw [isNumeralBlank, h.isBlank_of_mem hc]
    rfl
  obtain ⟨body, hsplit, hbody⟩ := numeral_iff.mp h
  unfold int?
  rw [htrim, hsplit]
  simp only [groupedDigits?_spells hbody, bind, Option.bind]
  split <;> simp_all [guard, pure, failure]

/-! ## Writing -/

/-- The ASCII digits have the values that they spell. -/
theorem digit?_of_isDigit {c : Char} (h : c.isDigit = true) : digit? c = some (c.toNat - '0'.toNat) := by
  obtain ⟨hlow, hhigh⟩ := Char.isDigit_iff_toNat.mp h
  -- the ten digits, written as distances from zero
  have hall : ∀ n < 10, digit? (Char.ofNat ('0'.toNat + n)) = some n := by decide
  have hc : Char.ofNat ('0'.toNat + (c.toNat - '0'.toNat)) = c := by
    rw [Nat.add_sub_cancel' hlow, Char.ofNat_toNat]
  have hd := hall (c.toNat - '0'.toNat) (by simp only [Char.reduceToNat] at hhigh ⊢; omega)
  rw [hc] at hd
  exact hd

/-- The decimal digits of a number spell it. -/
theorem spells_toDigits (n : Nat) :
    ∃ digits, Spells (Nat.toDigits 10 n) digits ∧ ofDigits digits = n := by
  have hall : ∀ c ∈ Nat.toDigits 10 n, c.isDigit = true := fun c hc =>
    Nat.isDigit_of_mem_toDigits (by decide) (by decide) hc
  refine ⟨(Nat.toDigits 10 n).map (fun c => c.toNat - '0'.toNat), ⟨Nat.toDigits_ne_nil, ?_⟩, ?_⟩
  -- a row of ASCII digits of any length spells the distances from zero
  · revert hall
    generalize Nat.toDigits 10 n = text
    intro hall
    induction text with
    | nil => exact .nil
    | cons c text ih =>
        obtain ⟨hc, hall⟩ := List.forall_mem_cons.mp hall
        exact .cons (digit?_of_isDigit hc) (ih hall)
  · calc ofDigits ((Nat.toDigits 10 n).map fun c => c.toNat - '0'.toNat)
        = Nat.ofDigitChars 10 (Nat.toDigits 10 n) 0 := by
          rw [ofDigits, List.foldl_map, Nat.ofDigitChars_eq_foldl]
      _ = n := Nat.ofDigitChars_ten_toDigits

/-- The decimal text of an integer is a numeral for it, with the digits of its magnitude. -/
theorem numeral_toString (n : Int) : ∃ negative digits,
    Numeral (toString n).toList negative digits ∧ signed negative (ofDigits digits) = n ∧
      digits.length = (Nat.toDigits 10 n.natAbs).length := by
  cases n with
  -- no sign is written
  | ofNat n =>
      obtain ⟨digits, hspells, hvalue⟩ := spells_toDigits n
      refine ⟨false, digits, .plain ?_, congrArg Int.ofNat hvalue, hspells.length_eq⟩
      have htext : (toString (Int.ofNat n)).toList = Nat.toDigits 10 n := by
        rw [Int.toString_eq_repr, Int.repr, Nat.repr_eq_ofList_toDigits, String.toList_ofList]
      rw [htext]
      exact hspells
  -- `-(n + 1)` is a minus and the digits of `n + 1`
  | negSucc n =>
      obtain ⟨digits, hspells, hvalue⟩ := spells_toDigits (n + 1)
      refine ⟨true, digits, ?_, ?_, hspells.length_eq⟩
      · have htext : (toString (Int.negSucc n)).toList = '-' :: Nat.toDigits 10 (n + 1) := by
          rw [Int.toString_eq_repr, Int.repr, Nat.repr_eq_ofList_toDigits]
          simp
        rw [htext]
        exact .minus hspells
      · rw [signed, hvalue]
        rfl

/-- Twenty digits are far from being too many. -/
theorem length_toDigits_le_maxDigits {n : Nat} (h : n < 10 ^ 20) :
    (Nat.toDigits 10 n).length ≤ maxDigits := by
  have hfew : (Nat.toDigits 10 n).length ≤ 20 := by
    rw [Nat.length_toDigits_le_iff (by decide) (by decide)]
    exact h
  exact Nat.le_trans hfew (by decide)

/-- An integer is read from its decimal text. -/
theorem int?_toString {n : Int} (h : n.natAbs < 10 ^ 20) : int? (toString n).toList = some n := by
  obtain ⟨negative, digits, hnumeral, hvalue, hlength⟩ := numeral_toString n
  rw [int?_numeral hnumeral, hlength, if_pos (length_toDigits_le_maxDigits h), hvalue]

end ContractAlgebra.Text
