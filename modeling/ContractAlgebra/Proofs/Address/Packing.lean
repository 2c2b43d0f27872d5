import ContractAlgebra.Proofs.Address.Checksum
import ContractAlgebra.Proofs.Bytecode.Word
import ContractAlgebra.Proofs.Contract.Grammar
import ContractAlgebra.Proofs.Time.Timestamp

/-!
# Addresses as words

An address is written in several ways (`Address.Denotes`): its digits in any letter case, behind a
mark or none, in brackets or not. Only some of these are accepted, but a text that is accepted denotes
the address that is read from it and no other (`Address.denotes_iff`). So the words of an accepted
text tell which address it denotes, and give back its checksummed form; and four words with nothing in
the bytes that do not count are those of one address (`Address.packs_one_to_one`).
-/

namespace ContractAlgebra

open Text

namespace Address

/-- The checksummed form of the address that a text denotes. -/
def normalized (text : String) : Except Failure String :=
  (readAddress none text).map Address.text

/-- The words of the address that a text denotes. -/
def packed (text : String) : Except Failure (List Int) :=
  (readAddress none text).map toWords

/-- The checksummed form of the address that some words stand for. -/
def unpacked (words : List Int) : Except Failure String :=
  (ofWords (words.map .integer)).map Address.text

/-- What may stand in front of the digits of an address. -/
def marks : List (List Char) :=
  [[], ['0', 'x'], ['0', 'X']]

/-- A text denotes an address if it consists of the forty digits of its bytes in any letter case,
behind a mark or none, and in brackets or not. -/
def Denotes (text : String) (address : Address) : Prop :=
  ∃ mark ∈ marks, ∃ digits, AnyCase address.hex digits ∧
    (text.toList = mark ++ digits ∨ text.toList = '<' :: (mark ++ digits) ++ ['>'])

/-! ## Digits -/

/-- A character with a value is the digit of that value, small or large. -/
theorem hexValue?_eq_some {c : Char} {value : Nat} (h : hexValue? c = some value) :
    value < 16 ∧ (c = hexDigit value ∨ c = (hexDigit value).toUpper) := by
  have hall : ∀ c : Char, (hexValue? c).all fun value =>
      value < 16 ∧ (c = hexDigit value ∨ c = (hexDigit value).toUpper) := by
    -- all ASCII characters are tried, and later ones lie after the bounds of every range
    apply forall_char
    · decide
    · intro c hc
      have hlarge : ∀ bound : Char, bound.toNat < 128 → ¬ c ≤ bound := by
        intro bound hbound hle
        have hval : c.toNat ≤ bound.toNat := Char.le_def.mp hle
        omega
      simp [hexValue?, hlarge]
  have hc := hall c
  rw [h] at hc
  exact of_decide_eq_true hc

/-- Characters with values are the digits of these values, in some letter case. -/
theorem anyCase_of_mapM {digits : List Char} {values : List Nat}
    (h : digits.mapM hexValue? = some values) :
    (∀ value ∈ values, value < 16) ∧ AnyCase (values.map hexDigit) digits := by
  -- on the characters, as they are read
  induction digits generalizing values with
  | nil =>
      cases h
      exact ⟨List.forall_mem_nil _, .nil⟩
  | cons c digits ih =>
      rw [List.mapM_cons, Option.bind_eq_bind, Option.bind_eq_some_iff] at h
      obtain ⟨value, hvalue, h⟩ := h
      obtain ⟨rest, hrest, h⟩ := Option.bind_eq_some_iff.mp h
      cases h
      obtain ⟨hlt, hwritten⟩ := hexValue?_eq_some hvalue
      obtain ⟨hall, hcase⟩ := ih hrest
      exact ⟨List.forall_mem_cons.mpr ⟨hlt, hall⟩, .cons hwritten hcase⟩

/-- Half-bytes are put together and taken apart again. -/
theorem nibbles_ofNibbles {values : List Nat} (h : ∀ value ∈ values, value < 16)
    (heven : values.length % 2 = 0) : nibbles (ofNibbles values) = values := by
  fun_induction ofNibbles values with
  | case1 high low rest ih =>
      simp only [List.forall_mem_cons] at h
      obtain ⟨hhigh, hlow, hrest⟩ := h
      have hbyte : (UInt8.ofNat (16 * high + low)).toNat = 16 * high + low := by
        rw [UInt8.toNat_ofNat']
        omega
      have hhalves : nibbles (UInt8.ofNat (16 * high + low) :: ofNibbles rest) =
          (16 * high + low) / 16 :: (16 * high + low) % 16 :: nibbles (ofNibbles rest) := by
        rw [nibbles, List.flatMap_cons, hbyte]
        rfl
      simp only [List.length_cons] at heven
      rw [hhalves, ih hrest (by omega)]
      congr 2 <;> omega
  -- a row of even length that does not start with two values is empty
  | case2 values hpair =>
      cases values with
      | nil => rfl
      | cons high values =>
          cases values with
          | nil => cases heven
          | cons low rest => exact absurd rfl (hpair high low rest)

/-- Forty characters that are read as an address are its digits, in some letter case. -/
theorem anyCase_of_ofHex? {digits : List Char} {address : Address}
    (h : ofHex? digits = some address) : AnyCase address.hex digits := by
  unfold ofHex? at h
  obtain ⟨_, hlength, h⟩ := Option.bind_eq_some_iff.mp h
  obtain ⟨values, hvalues, h⟩ := Option.bind_eq_some_iff.mp h
  obtain ⟨_, h⟩ := Option.dite_none_right_eq_some.mp h
  cases h
  obtain ⟨hall, hcase⟩ := anyCase_of_mapM hvalues
  -- forty is even, so no half-byte is left over
  have heven : values.length % 2 = 0 := by
    have hforty : digits.length = 40 := by
      unfold guard at hlength
      split at hlength
      · assumption
      · cases hlength
    have hsame := hcase.length_eq
    rw [List.length_map] at hsame
    omega
  rw [hex, nibbles_ofNibbles hall heven]
  exact hcase

/-! ## Texts -/

variable {address : Address} {text : String}

/-- The digits of an address, in any letter case, hold nothing of a mark or a bracket. -/
theorem clear_of_anyCase {digits : List Char} (h : AnyCase address.hex digits) :
    ∀ c ∈ digits, c ≠ 'x' ∧ c ≠ 'X' ∧ c ≠ '<' := by
  refine h.forall_mem ?_
  have hall : ∀ value < 16, (hexDigit value ≠ 'x' ∧ hexDigit value ≠ 'X' ∧ hexDigit value ≠ '<') ∧
      (hexDigit value).toUpper ≠ 'x' ∧ (hexDigit value).toUpper ≠ 'X' ∧
        (hexDigit value).toUpper ≠ '<' := by decide
  unfold hex
  rw [List.forall_mem_map]
  intro value hvalue
  exact hall value (lt_of_mem_nibbles hvalue)

/-- A mark is taken off digits, and nothing else. -/
theorem withoutMark_append {mark digits : List Char} (hmark : mark ∈ marks)
    (h : AnyCase address.hex digits) : withoutMark (mark ++ digits) = digits := by
  simp only [marks, List.mem_cons, List.not_mem_nil, or_false] at hmark
  rcases hmark with rfl | rfl | rfl
  · have hclear := clear_of_anyCase h
    rw [List.nil_append]
    -- without a mark, the digits must not look like one
    fun_cases withoutMark digits with
    | case1 rest => exact absurd rfl (hclear 'x' (by simp)).1
    | case2 rest => exact absurd rfl (hclear 'X' (by simp)).2.1
    | case3 => rfl
  · rfl
  · rfl

/-- A text is what is left without a mark, behind a mark or none. -/
theorem exists_mark (text : List Char) : ∃ mark ∈ marks, text = mark ++ withoutMark text := by
  fun_cases withoutMark text with
  | case1 digits => exact ⟨['0', 'x'], by decide, rfl⟩
  | case2 digits => exact ⟨['0', 'X'], by decide, rfl⟩
  | case3 => exact ⟨[], by decide, rfl⟩

/-- Brackets are taken off a text that has them, and nothing is taken off any other. -/
theorem eq_or_eq_bracketed (text : List Char) :
    text = unbracket text ∨ text = '<' :: unbracket text ++ ['>'] := by
  fun_cases unbracket text with
  | case1 rest hlast =>
      right
      rw [List.cons_append, List.dropLast_append_getLast? '>' hlast]
  | case2 rest hlast => exact Or.inl rfl
  | case3 => exact Or.inl rfl

/-- Digits behind a mark are in no brackets. -/
theorem unbracket_append {mark digits : List Char} (hmark : mark ∈ marks)
    (h : AnyCase address.hex digits) : unbracket (mark ++ digits) = mark ++ digits := by
  have hclear : ∀ c ∈ mark ++ digits, c ≠ '<' := by
    rw [List.forall_mem_append]
    constructor
    · have hall : ∀ mark ∈ marks, ∀ c ∈ mark, c ≠ '<' := by simp [marks]
      exact hall mark hmark
    · exact fun c hc => (clear_of_anyCase h c hc).2.2
  -- only the absence of an opening bracket counts now
  generalize mark ++ digits = text at hclear ⊢
  fun_cases unbracket text with
  | case1 rest hlast => exact absurd rfl (hclear '<' (by simp))
  | case2 rest hlast => rfl
  | case3 => rfl

/-- A text denotes an address just if, brackets and mark aside, it consists of its digits. -/
theorem denotes_iff_digits :
    Denotes text address ↔ AnyCase address.hex (withoutMark (unbracket text.toList)) := by
  constructor
  · intro h
    obtain ⟨mark, hmark, digits, hdigits, htext⟩ := h
    have hinside : unbracket text.toList = mark ++ digits := by
      rcases htext with htext | htext
      · rw [htext, unbracket_append hmark hdigits]
      · rw [htext, unbracket_bracketed]
    rw [hinside, withoutMark_append hmark hdigits]
    exact hdigits
  · intro h
    obtain ⟨mark, hmark, hinside⟩ := exists_mark (unbracket text.toList)
    refine ⟨mark, hmark, _, h, ?_⟩
    rw [← hinside]
    exact eq_or_eq_bracketed text.toList

/-- An accepted text denotes the address that is read from it, and no other. -/
theorem denotes_iff {index : Option Int} (h : readAddress index text = .ok address)
    {address' : Address} : Denotes text address' ↔ address' = address := by
  -- acceptance also checks the letter case, which the digits alone do not tell
  have hread : ofHex? (withoutMark (unbracket text.toList)) = some address := by
    have hread := readAddress_eq_ok.mp h
    unfold read? at hread
    obtain ⟨address', hdigits, hread⟩ := Option.bind_eq_some_iff.mp hread
    obtain ⟨_, _, hread⟩ := Option.bind_eq_some_iff.mp hread
    cases hread
    exact hdigits
  rw [denotes_iff_digits]
  constructor
  · intro hdigits
    rw [ofHex?_of_anyCase address' hdigits] at hread
    exact Option.some.inj hread
  · rintro rfl
    exact anyCase_of_ofHex? hread

/-- The checksummed form of an address is accepted. -/
theorem readAddress_text (index : Option Int) : readAddress index address.text = .ok address := by
  have hopen : unbracket address.chars = address.chars := rfl
  rw [readAddress_eq_ok, Address.text, String.toList_ofList, hopen, read?_chars]

/-! ## Words -/

/-- Addresses with the same words are the same. -/
theorem toWords_injective : Function.Injective toWords := by
  intro address address' h
  have hread := ofWords_toWords address
  rw [h, ofWords_toWords] at hread
  exact (Except.ok.inj hread).symm

/-- The words of an address are a tag of zero and three words of the range. -/
theorem exists_toWords_eq (address : Address) : ∃ a b c, address.toWords = [0, a, b, c] ∧
    fitsWord a ∧ fitsWord b ∧ fitsWord c := by
  refine ⟨_, _, _, rfl, ?_, ?_, ?_⟩
  · exact fitsWord_wordOfBytes _
  · exact fitsWord_wordOfBytes _
  · exact fitsWord_wordOfBytes _

/-- A text has a checksummed form just if it is accepted. -/
theorem normalized_eq_ok {written : String} : normalized text = .ok written ↔
    ∃ address, readAddress none text = .ok address ∧ written = address.text := by
  unfold normalized
  cases readAddress none text with
  | error failure => simp [Except.map]
  | ok address => simp [Except.map, eq_comm]

/-- The words of an accepted text are those of its address. -/
theorem packed_eq (h : readAddress none text = .ok address) : packed text = .ok address.toWords := by
  rw [packed, h]
  rfl

/-- The words of an address give its checksummed form. -/
theorem unpacked_toWords (address : Address) : unpacked address.toWords = .ok address.text := by
  rw [unpacked, ofWords_toWords]
  rfl

/-- Accepted texts give words of the range, which tell what the texts denote and give back its
checksummed form, a text that gives the same words again; and four words come back from the text that
they give if the first is zero and the bytes that do not count are. -/
theorem packs_one_to_one :
    (∀ text written, normalized text = .ok written →
      (∃ a b c, packed text = .ok [0, a, b, c] ∧ (fitsWord a ∧ fitsWord b ∧ fitsWord c) ∧
        unpacked [0, a, b, c] = .ok written) ∧
      normalized written = .ok written ∧
      ∀ text' written', normalized text' = .ok written' →
        (packed text = packed text' ↔ ∃ address, Denotes text address ∧ Denotes text' address)) ∧
    ∀ a b c, fitsWord a → fitsWord b → fitsWord c →
      (bytesOfWord a).take 4 = List.replicate 4 0 →
        ∃ written, unpacked [0, a, b, c] = .ok written ∧ packed written = .ok [0, a, b, c] := by
  constructor
  · intro text written hwritten
    obtain ⟨address, hread, rfl⟩ := normalized_eq_ok.mp hwritten
    refine ⟨?_, ?_, ?_⟩
    · obtain ⟨a, b, c, hwords, hfits⟩ := exists_toWords_eq address
      refine ⟨a, b, c, ?_, hfits, ?_⟩
      · rw [packed_eq hread, hwords]
      · rw [← hwords, unpacked_toWords]
    · exact normalized_eq_ok.mpr ⟨address, readAddress_text none, rfl⟩
    -- both texts denote the address they are read as, so the words agree if these do
    · intro text' written' hwritten'
      obtain ⟨address', hread', rfl⟩ := normalized_eq_ok.mp hwritten'
      rw [packed_eq hread, packed_eq hread', Except.ok.injEq, toWords_injective.eq_iff]
      simp only [denotes_iff hread, denotes_iff hread']
      constructor
      · intro h
        exact ⟨address, rfl, h⟩
      · intro h
        obtain ⟨_, rfl, h⟩ := h
        exact h
  -- four words with clear padding are those of the address made of their bytes
  · intro a b c ha hb hc hpadding
    have hwords := toWords_ofParts ha hb hc hpadding
    refine ⟨(ofParts a b c).text, ?_, ?_⟩
    · rw [← hwords, unpacked_toWords]
    · rw [packed_eq (readAddress_text none), hwords]

/-- Capital digits in brackets and small digits alone, and words with signs. -/
theorem packs_one_to_one_of_spellings :
    let shown := "<0X00000000000000000000000000000000000000AB>"
    let plain := "00000000000000000000000000000000000000ab"
    let address : Address := ⟨List.replicate 19 0 ++ [0xAB], rfl⟩
    (normalized shown = .ok address.text ∧ normalized address.text = .ok address.text ∧
      ∃ address, Denotes shown address ∧ Denotes plain address) ∧
    ∃ written, unpacked [0, -4294967296, -1, 5] = .ok written ∧
      packed written = .ok [0, -4294967296, -1, 5] := by
  intro shown plain address
  -- the checksummed form is not computed, as that would take a hash
  have hshown : normalized shown = .ok address.text :=
    normalized_eq_ok.mpr ⟨address, by decide +kernel, rfl⟩
  have hplain : normalized plain = .ok address.text :=
    normalized_eq_ok.mpr ⟨address, by decide +kernel, rfl⟩
  have hwords : packed shown = packed plain := by decide +kernel
  obtain ⟨haccepted, hback⟩ := packs_one_to_one
  obtain ⟨_, hagain, hsame⟩ := haccepted shown address.text hshown
  constructor
  · exact ⟨hshown, hagain, (hsame plain address.text hplain).mp hwords⟩
  · exact hback (-4294967296) (-1) 5 (by decide) (by decide) (by decide) (by decide)

end Address

end ContractAlgebra
