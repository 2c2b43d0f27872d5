import ContractAlgebra.Ledger.Entry
import ContractAlgebra.Proofs.Address.Packing

/-!
# Chosen branches

In the ledger's format a number stands for a choice (`Decides`): 1 for the first branch, 0 for the
second, and any other number for none, as the ledger has -1 in a row of numbers and 2 or more in a row
of bytes for a choice that is not made. Bytes come as numbers or in hexadecimal (`HexOf`), and either
way each one is read as the choice that it stands for. In a row of numbers this fails for those below 0,
which are read as the second branch (`Branches.decided_unless_negative`).
-/

namespace ContractAlgebra

/-! ## The format -/

/-- The choice that a number stands for. -/
inductive Decides : Int → Option Bool → Prop where
  | first : Decides 1 (some true)
  | second : Decides 0 (some false)
  | unset {n : Int} : n ≠ 0 → n ≠ 1 → Decides n none

/-- A text spells bytes with two hexadecimal digits each, of either letter case. Blanks may stand in
front of a byte and at the end. -/
inductive SpellsBytes : List Char → List UInt8 → Prop where
  | nil : SpellsBytes [] []
  | blank {c text bytes} : isHexBlank c = true → SpellsBytes text bytes →
      SpellsBytes (c :: text) bytes
  | byte {high low text byte bytes} : Address.hexValue? high = some (byte.toNat / 16) →
      Address.hexValue? low = some (byte.toNat % 16) → SpellsBytes text bytes →
      SpellsBytes (high :: low :: text) (byte :: bytes)

/-- A text spells bytes, with the mark of a hexadecimal number in front or without it. -/
def HexOf (text : String) (bytes : List UInt8) : Prop :=
  ∃ digits, SpellsBytes digits bytes ∧
    (text.toList = digits ∨ text.toList = '0' :: 'x' :: digits)

/-! ## Numbers -/

/-- A number that is not negative is read as the choice that it stands for. -/
theorem decides_branchOf {n : Int} : Decides n (branchOf n) ↔ 0 ≤ n := by
  unfold branchOf
  constructor
  · intro h
    -- numbers of 2 or more are read as no choice, which they stand for; the others are compared
    -- with 1
    split at h
    · omega
    · by_cases hone : n = 1
      · omega
      · rw [beq_eq_false_iff_ne.mpr hone] at h
        cases h
        exact Int.le_refl 0
  · intro h
    split
    · exact .unset (by omega) (by omega)
    -- below 2 there are just two numbers that are not negative
    · obtain rfl | rfl : n = 0 ∨ n = 1 := by omega
      · exact .second
      · exact .first

/-- A negative number is read as the second branch. -/
theorem branchOf_of_neg {n : Int} (h : n < 0) : branchOf n = some false := by
  have hone : n ≠ 1 := by omega
  rw [branchOf, if_neg (by omega), beq_eq_false_iff_ne.mpr hone]

/-! ## Hexadecimal digits -/

/-- No blank is a digit. -/
theorem isHexBlank_of_hexValue? {c : Char} {value : Nat} (h : Address.hexValue? c = some value) :
    isHexBlank c = false := by
  have hall : ∀ value < 16, isHexBlank (Address.hexDigit value) = false ∧
      isHexBlank (Address.hexDigit value).toUpper = false := by decide
  obtain ⟨hvalue, rfl | rfl⟩ := Address.hexValue?_eq_some h
  · exact (hall value hvalue).1
  · exact (hall value hvalue).2

/-- What is read in hexadecimal are the bytes that the text spells. -/
theorem hexBytes?_eq_some {text : List Char} {ns : List Nat} :
    hexBytes? text = some ns ↔ ∃ bytes, SpellsBytes text bytes ∧ ns = bytes.map UInt8.toNat := by
  constructor
  · intro h
    fun_induction hexBytes? text generalizing ns with
    | case1 =>
        cases h
        exact ⟨[], .nil, rfl⟩
    | case2 c rest hblank ih =>
        obtain ⟨bytes, hbytes, rfl⟩ := ih h
        exact ⟨bytes, .blank hblank hbytes, rfl⟩
    | case3 => cases h
    | case4 c hblank d rest ih =>
        obtain ⟨high, hhigh, h⟩ := Option.bind_eq_some_iff.mp h
        obtain ⟨low, hlow, h⟩ := Option.bind_eq_some_iff.mp h
        obtain ⟨rest', hrest, h⟩ := Option.bind_eq_some_iff.mp h
        cases h
        obtain ⟨bytes, hbytes, rfl⟩ := ih hrest
        have hhigh16 := (Address.hexValue?_eq_some hhigh).1
        have hlow16 := (Address.hexValue?_eq_some hlow).1
        -- the two digits are the halves of a byte
        have hbyte : (UInt8.ofNat (16 * high + low)).toNat = 16 * high + low :=
          UInt8.toNat_ofNat_of_lt' (by simp only [UInt8.size]; omega)
        refine ⟨UInt8.ofNat (16 * high + low) :: bytes, .byte ?_ ?_ hbytes, ?_⟩
        · rw [hbyte, hhigh]
          congr 1
          omega
        · rw [hbyte, hlow]
          congr 1
          omega
        · rw [List.map_cons, hbyte]
  · intro h
    obtain ⟨bytes, hbytes, rfl⟩ := h
    induction hbytes with
    | nil => rfl
    | blank hblank _ ih =>
        unfold hexBytes?
        rw [if_pos hblank, ih]
    | @byte high low text byte bytes hhigh hlow _ ih =>
        have hhalves : 16 * (byte.toNat / 16) + byte.toNat % 16 = byte.toNat := Nat.div_add_mod _ _
        have hblank : ¬isHexBlank high = true := by
          rw [isHexBlank_of_hexValue? hhigh]
          exact Bool.false_ne_true
        rw [hexBytes?, if_neg hblank]
        simp [hhigh, hlow, ih, hhalves]

/-- The mark of a hexadecimal number spells no bytes. -/
theorem SpellsBytes.ne_marked {text digits : List Char} {bytes : List UInt8}
    (h : SpellsBytes text bytes) : text ≠ '0' :: 'x' :: digits := by
  rintro rfl
  cases h with
  | blank hblank _ => cases hblank
  | byte _ hlow _ => cases hlow

/-- A text without the mark of a hexadecimal number. -/
def unmarked : List Char → List Char
  | '0' :: 'x' :: digits => digits
  | digits => digits

/-- A text spells bytes just if it does without the mark. -/
theorem hexOf_iff {text : String} {bytes : List UInt8} :
    HexOf text bytes ↔ SpellsBytes (unmarked text.toList) bytes := by
  constructor
  · intro h
    obtain ⟨digits, hspells, htext | htext⟩ := h
    · rw [htext]
      -- digits that are not marked cannot look as if they were
      unfold unmarked
      split
      · exact absurd rfl hspells.ne_marked
      · exact hspells
    · rw [htext]
      exact hspells
  · intro h
    refine ⟨_, h, ?_⟩
    unfold unmarked
    split
    · exact Or.inr (by assumption)
    · exact Or.inl rfl

namespace Branches

/-- What is read in hexadecimal depends on the text without the mark. -/
theorem choices_hex_eq (text : String) : (hex text).choices =
    match hexBytes? (unmarked text.toList) with
    | some ns => .ok (ns.map fun (n : Nat) => branchOf n)
    | none => .error .notHexadecimal :=
  rfl

/-- A text that spells bytes is read as the choices of these bytes. -/
theorem choices_hex {text : String} {bytes : List UInt8} (h : HexOf text bytes) :
    (hex text).choices = .ok (bytes.map fun byte => branchOf byte.toNat) := by
  rw [choices_hex_eq, hexBytes?_eq_some.mpr ⟨bytes, hexOf_iff.mp h, rfl⟩]
  exact congrArg Except.ok List.map_map

/-- A text that spells no bytes is not read. -/
theorem choices_not_hex {text : String} (h : ∀ bytes, ¬HexOf text bytes) :
    (hex text).choices = .error .notHexadecimal := by
  rw [choices_hex_eq]
  cases hread : hexBytes? (unmarked text.toList) with
  | none => rfl
  | some ns =>
      obtain ⟨bytes, hspells, _⟩ := hexBytes?_eq_some.mp hread
      exact absurd (hexOf_iff.mpr hspells) (h bytes)

/-- A row is read as the choices that its numbers stand for just if none of them is negative. Those
that are negative are read as the second branch. A row of bytes has no negative numbers, and is read
alike as numbers and in hexadecimal, where nothing but bytes is read. -/
theorem decided_unless_negative (ns : List Int) (text : String) :
    (∃ choices, (numbers ns).choices = .ok choices ∧
      List.Forall₂ (fun n choice => if n < 0 then choice = some false else Decides n choice) ns choices ∧
        (List.Forall₂ Decides ns choices ↔ ∀ n ∈ ns, 0 ≤ n)) ∧
    (∀ bytes, HexOf text bytes → ∃ choices, (hex text).choices = .ok choices ∧
      (numbers (bytes.map fun byte => (byte.toNat : Int))).choices = .ok choices ∧
        List.Forall₂ (fun byte choice => Decides byte.toNat choice) bytes choices) ∧
    ((∀ bytes, ¬HexOf text bytes) → (hex text).choices = .error .notHexadecimal) := by
  -- each number is read by itself
  refine ⟨⟨ns.map branchOf, rfl, ?_, ?_⟩, fun bytes h => ?_, choices_not_hex⟩
  · rw [List.forall₂_map_right_iff, List.forall₂_same]
    intro n _
    split
    next hneg => exact branchOf_of_neg hneg
    next hneg => exact decides_branchOf.mpr (Int.not_lt.mp hneg)
  · rw [List.forall₂_map_right_iff, List.forall₂_same]
    exact forall₂_congr fun n _ => decides_branchOf
  · refine ⟨bytes.map fun byte => branchOf byte.toNat, choices_hex h, ?_, ?_⟩
    · exact congrArg Except.ok List.map_map
    · rw [List.forall₂_map_right_iff, List.forall₂_same]
      exact fun byte _ => decides_branchOf.mpr (Int.natCast_nonneg _)

/-- Blanks and capitals between digits, and the mark in front. -/
theorem decided_unless_negative_of_bytes :
    HexOf "0x01 00\nFf" [1, 0, 255] ∧
      (hex "0x01 00\nFf").choices = .ok [some true, some false, none] ∧
        (numbers [1, 0, 255]).choices = .ok [some true, some false, none] := by
  have hspells : SpellsBytes "01 00\nFf".toList [1, 0, 255] :=
    .byte rfl rfl (.blank rfl (.byte rfl rfl (.blank rfl (.byte rfl rfl .nil))))
  have hhex : HexOf "0x01 00\nFf" [1, 0, 255] := ⟨_, hspells, Or.inr rfl⟩
  obtain ⟨choices, hchoices, hnumbers, _⟩ := (decided_unless_negative [] "0x01 00\nFf").2.1 _ hhex
  have hread : (numbers [1, 0, 255]).choices = .ok [some true, some false, none] := rfl
  obtain rfl : [some true, some false, none] = choices := Except.ok.inj (hread.symm.trans hnumbers)
  exact ⟨hhex, hchoices, hread⟩

/-- The mark of a choice that is not made is read as the second branch. -/
theorem unmade_choice_read_as_second :
    (numbers [-1]).choices = .ok [some false] ∧ Decides (-1) none ∧
      ¬Decides (-1) (some false) := by
  refine ⟨rfl, .unset (by decide) (by decide), ?_⟩
  intro h
  cases h

end Branches

end ContractAlgebra
