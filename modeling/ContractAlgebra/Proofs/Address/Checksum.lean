import ContractAlgebra.Address.Basic
import ContractAlgebra.Proofs.Text.LetterCase

/-!
# Addresses in writing

The checksummed text of an address is its forty small digits with some letters made large
(`anyCase_checksum`), so it tells the address in any letter case (`eq_of_lower_chars`) and is read as
that address (`read?_chars`).
-/

namespace ContractAlgebra

open Text

/-! ## Hashes -/

namespace Keccak

theorem length_bytesOfLane (lane : UInt64) : (bytesOfLane lane).length = 8 := by
  simp [bytesOfLane]

theorem length_hash (message : List UInt8) : (hash message).length = 32 := by
  simp [hash, List.length_flatMap, length_bytesOfLane]

end Keccak

namespace Address

/-! ## Digits -/

/-- Each byte has two halves. -/
theorem length_nibbles (bytes : List UInt8) : (nibbles bytes).length = 2 * bytes.length := by
  induction bytes with
  | nil => rfl
  | cons byte bytes ih =>
      rw [nibbles, List.flatMap_cons, List.length_append, ← nibbles, ih]
      show 2 + 2 * bytes.length = 2 * (bytes.length + 1)
      omega

/-- A half-byte is below 16. -/
theorem lt_of_mem_nibbles {bytes : List UInt8} {value : Nat} (h : value ∈ nibbles bytes) :
    value < 16 := by
  unfold nibbles at h
  obtain ⟨byte, _, hvalue⟩ := List.mem_flatMap.mp h
  have hbyte := byte.toNat_lt
  simp only [List.mem_cons, List.not_mem_nil, or_false] at hvalue
  omega

/-- Bytes are put together again from their halves. -/
theorem ofNibbles_nibbles (bytes : List UInt8) : ofNibbles (nibbles bytes) = bytes := by
  induction bytes with
  | nil => rfl
  | cons byte bytes ih =>
      have hsum : 16 * (byte.toNat / 16) + byte.toNat % 16 = byte.toNat := Nat.div_add_mod _ _
      show ofNibbles (byte.toNat / 16 :: byte.toNat % 16 :: nibbles bytes) = byte :: bytes
      rw [ofNibbles, hsum, UInt8.ofNat_toNat, ih]

/-- Digits are not capitals, and have their values in either case. -/
theorem hexDigit_spec {value : Nat} (h : value < 16) :
    (hexDigit value).toLower = hexDigit value ∧
      hexValue? (hexDigit value) = some value ∧ hexValue? (hexDigit value).toUpper = some value := by
  -- sixteen cases
  have hall : ∀ value < 16, (hexDigit value).toLower = hexDigit value ∧
      hexValue? (hexDigit value) = some value ∧
        hexValue? (hexDigit value).toUpper = some value := by decide
  exact hall value h

/-- Digits are read in any letter case. -/
theorem mapM_hexValue? {values : List Nat} {written : List Char} (h : ∀ value ∈ values, value < 16)
    (hwritten : AnyCase (values.map hexDigit) written) : written.mapM hexValue? = some values := by
  unfold AnyCase at hwritten
  -- on the digits; `written` varies, since each digit is written in its own case
  induction values generalizing written with
  | nil =>
      cases hwritten
      rfl
  | cons value values ih =>
      obtain ⟨hvalue, hvalues⟩ := List.forall_mem_cons.mp h
      cases hwritten with
      | @cons _ c _ written hc hwritten =>
          obtain ⟨_, hsmall, hlarge⟩ := hexDigit_spec hvalue
          have hread : hexValue? c = some value := by
            rcases hc with rfl | rfl
            · exact hsmall
            · exact hlarge
          simp [List.mapM_cons, hread, ih hvalues hwritten]

/-! ## The checksummed text -/

variable (address : Address)

/-- An address has forty digits. -/
theorem length_hex : address.hex.length = 40 := by
  rw [hex, List.length_map, length_nibbles, address.length_bytes]

/-- The checksum makes some letters of the digits large and changes nothing else. -/
theorem anyCase_checksum : AnyCase address.hex (checksum address.hex) := by
  -- a hash has 64 half-bytes, so none of the forty digits is without a mark
  have hmarks : address.hex.length ≤ (hashNibbles address.hex).length := by
    rw [length_hex, hashNibbles, length_nibbles, Keccak.length_hash]
    decide
  unfold checksum AnyCase
  -- what the hash is does not matter from here on, only that it is long enough
  revert hmarks
  generalize hashNibbles address.hex = marks
  generalize address.hex = digits
  intro hmarks
  induction digits generalizing marks with
  | nil => simp
  | cons c digits ih =>
      cases marks with
      | nil => cases hmarks
      | cons mark marks =>
          refine .cons ?_ (ih marks (Nat.le_of_succ_le_succ hmarks))
          by_cases hmark : 8 ≤ mark
          · exact Or.inr (if_pos hmark)
          · exact Or.inl (if_neg hmark)

/-- The digits of an address are written small. -/
theorem toLower_of_mem_hex {c : Char} (h : c ∈ address.hex) : c.toLower = c := by
  unfold hex at h
  obtain ⟨value, hvalue, rfl⟩ := List.mem_map.mp h
  exact (hexDigit_spec (lt_of_mem_nibbles hvalue)).1

/-- The small digits are the written ones, made small. -/
theorem map_toLower_checksum : (checksum address.hex).map Char.toLower = address.hex :=
  (anyCase_iff fun _ h => address.toLower_of_mem_hex h).mp address.anyCase_checksum

/-- What holds of the digits in either case, and of the mark, holds of the whole text. -/
theorem forall_mem_chars {p : Char → Prop}
    (hdigit : ∀ value < 16, p (hexDigit value) ∧ p (hexDigit value).toUpper) (hmark : p 'x') :
    ∀ c ∈ address.chars, p c := by
  have hhex : ∀ letter ∈ address.hex, p letter ∧ p letter.toUpper := by
    unfold hex
    simp only [List.forall_mem_map]
    intro value hvalue
    exact hdigit value (lt_of_mem_nibbles hvalue)
  unfold chars
  simp only [List.forall_mem_cons]
  exact ⟨(hdigit 0 (by decide)).1, hmark, address.anyCase_checksum.forall_mem hhex⟩

/-- Made small, the checksummed text is the mark and the small digits. -/
theorem lower_chars : lower address.chars = '0' :: 'x' :: address.hex := by
  have hascii : ∀ c ∈ address.chars, c.toNat < 128 :=
    address.forall_mem_chars (by decide) (by decide)
  rw [lower_ascii hascii, chars, List.map_cons, List.map_cons, map_toLower_checksum]
  rfl

/-! ## Reading -/

/-- The forty digits are read as the address, in any letter case. -/
theorem ofHex?_of_anyCase {written : List Char} (h : AnyCase address.hex written) :
    ofHex? written = some address := by
  have hlength : written.length = 40 := by
    rw [← h.length_eq, length_hex]
  have hdigits := mapM_hexValue? (fun _ h => lt_of_mem_nibbles h) h
  unfold ofHex?
  simp only [hlength, hdigits, ofNibbles_nibbles, guard, if_true, bind, Option.bind, pure]
  exact dif_pos address.length_bytes

/-- The written form of an address is read as that address. -/
theorem read?_chars : read? address.chars = some address := by
  have hdigits := address.ofHex?_of_anyCase address.anyCase_checksum
  have hmark : withoutMark address.chars = checksum address.hex := rfl
  unfold read?
  simp [hmark, hdigits, guard]

/-- Addresses whose texts differ in letter case alone are the same. -/
theorem eq_of_lower_chars {a b : Address} (h : lower a.chars = lower b.chars) : a = b := by
  rw [lower_chars, lower_chars, List.cons.injEq, List.cons.injEq] at h
  -- the small digits are one of the ways to write the address, and both addresses have them
  have hself : ∀ address : Address, AnyCase address.hex address.hex := fun address =>
    List.forall₂_same.mpr fun _ _ => Or.inl rfl
  have ha := a.ofHex?_of_anyCase (hself a)
  have hb := b.ofHex?_of_anyCase (hself b)
  rw [h.2.2] at ha
  exact Option.some.inj (ha.symm.trans hb)

end Address

end ContractAlgebra
