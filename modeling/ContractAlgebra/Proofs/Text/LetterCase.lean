import ContractAlgebra.Text.LetterCase
import Mathlib.Data.List.Forall2

/-!
# Texts that differ in letter case

A word of small letters may be written with some of them large (`AnyCase`). The small form of what
is written is the word again, whether only ASCII letters are made small (`anyCase_iff`) or those of
all scripts (`lower_ascii`).
-/

namespace ContractAlgebra.Text

/-- A word that is written with some of its small letters made large. -/
def AnyCase (word written : List Char) : Prop :=
  List.Forall₂ (fun letter c => c = letter ∨ c = letter.toUpper) word written

/-- What holds of the ASCII characters and of those after them holds of all. -/
theorem forall_char {p : Char → Prop} (hascii : ∀ n < 128, p (Char.ofNat n))
    (hafter : ∀ c : Char, 128 ≤ c.toNat → p c) (c : Char) : p c := by
  rcases Nat.lt_or_ge c.toNat 128 with hc | hc
  · have h := hascii c.toNat hc
    rwa [Char.ofNat_toNat] at h
  · exact hafter c hc

/-- Characters after ASCII are not made small. -/
theorem toLower_of_le {c : Char} (h : 128 ≤ c.toNat) : c.toLower = c := by
  have hnot : ¬(c.val ≥ 'A'.val ∧ c.val ≤ 'Z'.val) := by
    intro hupper
    have hle : c.toNat ≤ 'Z'.toNat := UInt32.le_iff_toNat_le.mp hupper.2
    exact absurd (Nat.le_trans h hle) (by decide)
  exact dif_neg hnot

/-- Characters after ASCII are not made large. -/
theorem toUpper_of_le {c : Char} (h : 128 ≤ c.toNat) : c.toUpper = c := by
  have hnot : ¬('a'.val ≤ c.val ∧ c.val ≤ 'z'.val) := by
    intro hlower
    have hle : c.toNat ≤ 'z'.toNat := UInt32.le_iff_toNat_le.mp hlower.2
    exact absurd (Nat.le_trans h hle) (by decide)
  exact dif_neg hnot

/-- A small letter is written small or large. -/
theorem toLower_eq_iff {letter c : Char} (h : letter.toLower = letter) :
    c.toLower = letter ↔ c = letter ∨ c = letter.toUpper := by
  constructor
  · intro hc
    -- the ASCII characters are tried, and the others have no letter case here
    have hback : ∀ c : Char, c = c.toLower ∨ c = c.toLower.toUpper := by
      apply forall_char
      · decide
      · exact fun c hc => Or.inl (toLower_of_le hc).symm
    exact hc ▸ hback c
  · intro hc
    have hback : ∀ c : Char, c.toUpper.toLower = c.toLower := by
      apply forall_char
      · decide
      · exact fun c hc => congrArg Char.toLower (toUpper_of_le hc)
    rcases hc with rfl | rfl
    · exact h
    · exact (hback letter).trans h

/-- What is written is the word if its letters are made small. -/
theorem anyCase_iff {word written : List Char} (h : ∀ letter ∈ word, letter.toLower = letter) :
    AnyCase word written ↔ written.map Char.toLower = word := by
  unfold AnyCase
  induction word generalizing written with
  | nil => simp
  | cons letter word ih =>
      obtain ⟨hletter, hword⟩ := List.forall_mem_cons.mp h
      cases written with
      | nil => simp
      | cons c written =>
          rw [List.forall₂_cons, ih hword, List.map_cons, List.cons.injEq, toLower_eq_iff hletter]

/-- What holds of the letters of a word in either case holds of what is written. -/
theorem AnyCase.forall_mem {word written : List Char} (h : AnyCase word written) {p : Char → Prop}
    (hword : ∀ letter ∈ word, p letter ∧ p letter.toUpper) : ∀ c ∈ written, p c := by
  unfold AnyCase at h
  induction h with
  | nil => exact List.forall_mem_nil _
  | cons hc _ ih =>
      obtain ⟨hletter, hword⟩ := List.forall_mem_cons.mp hword
      refine List.forall_mem_cons.mpr ⟨?_, ih hword⟩
      rcases hc with rfl | rfl
      · exact hletter.1
      · exact hletter.2

/-- Among ASCII characters, the small letter of a capital is the one that all scripts give it. -/
theorem lower_ascii {text : List Char} (h : ∀ c ∈ text, c.toNat < 128) :
    lower text = text.map Char.toLower := by
  -- the letters' table is looked up for each ASCII character
  have hsmall : ∀ n < 128, small (Char.ofNat n) = [(Char.ofNat n).toLower] := by decide +kernel
  -- whether a word has begun only matters for a final sigma, which is not ASCII
  have hfrom : ∀ inWord, lowerFrom inWord text = text.map Char.toLower := by
    induction text with
    | nil => exact fun _ => rfl
    | cons c text ih =>
        obtain ⟨hc, hall⟩ := List.forall_mem_cons.mp h
        intro inWord
        have hsigma : c ≠ 'Σ' := by
          intro heq
          rw [heq] at hc
          exact absurd hc (by decide)
        have hlower := hsmall c.toNat hc
        rw [Char.ofNat_toNat] at hlower
        simp only [lowerFrom, hsigma, false_and, if_false, hlower, ih hall, List.map_cons]
        rfl
  exact hfrom false

end ContractAlgebra.Text
