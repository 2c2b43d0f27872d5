import ContractAlgebra.Bytecode.Decode
import ContractAlgebra.Proofs.Contract.Reading
import ContractAlgebra.Proofs.Explanation
import Mathlib.Algebra.Group.Int.Defs
import Mathlib.Algebra.Group.Nat.Defs
import Mathlib.Data.List.Basic

/-!
# Words and what they stand for

Bytes, addresses and names come back from the words that they are written as, and all of these words
lie in the range of words. Words of the range come back as well: each from its bytes, those of a name
from its characters, and those of an address if the bytes that do not count are zero
(`Address.toWords_ofParts`). A tape hands words of the range out as they are
(`Tape.take_ofIntegers`).
-/

namespace ContractAlgebra

/-- The range of words. -/
theorem fitsWord_iff {n : Int} : fitsWord n = true ↔ -wordLimit ≤ n ∧ n < wordLimit := by
  simp [fitsWord]

/-- The range of dates. -/
theorem fitsDate_iff {t : Int} : fitsDate t = true ↔ 0 ≤ t ∧ t < dateLimit := by
  simp [fitsDate]

/-- A date is in its range. -/
theorem fitsDate_toNat (date : UInt32) : fitsDate date.toNat := by
  have hlt := date.toNat_lt
  rw [fitsDate_iff, dateLimit]
  omega

/-- A time that fits is that of its date. -/
theorem toNat_of_fitsDate {t : Int} (h : fitsDate t) : ((UInt32.ofNat t.toNat).toNat : Int) = t := by
  obtain ⟨hlow, hhigh⟩ := fitsDate_iff.mp h
  rw [dateLimit] at hhigh
  have hsize : t.toNat < 2 ^ 32 := by omega
  rw [UInt32.toNat_ofNat_of_lt' hsize, Int.toNat_of_nonneg hlow]

/-- A word of the range keeps its value. -/
theorem Word.signed_integer {n : Int} (h : fitsWord n) : (Word.integer n).signed = .ok n := by
  rcases fitsWord_iff.mp h with ⟨hlow, hhigh⟩
  unfold signed
  simp only [toInt, bind, Except.bind]
  rw [if_neg (Int.not_le.mpr hhigh), if_neg (Int.not_lt.mpr hlow)]
  rfl

/-- A word of the range is short enough to be written. -/
theorem isShort_of_fitsWord {n : Int} (h : fitsWord n) : Text.isShort n = true := by
  obtain ⟨hlow, hhigh⟩ := fitsWord_iff.mp h
  rw [wordLimit] at hlow hhigh
  exact Text.isShort_of_lt (by omega)

/-- So it is written. -/
theorem writeInt_fitsWord {n : Int} (h : fitsWord n) : writeInt n = .ok (toString n) :=
  writeInt_of_short (isShort_of_fitsWord h)

/-! ## Bytes -/

/-- The first byte is the lowest. -/
theorem ofLittleEndian_cons (byte : UInt8) (bytes : List UInt8) :
    ofLittleEndian (byte :: bytes) = byte.toNat + 256 * ofLittleEndian bytes := rfl

/-- Bytes are those of a number that they reach. -/
theorem ofLittleEndian_lt (bytes : List UInt8) : ofLittleEndian bytes < 256 ^ bytes.length := by
  induction bytes with
  | nil => exact Nat.one_pos
  | cons byte bytes ih =>
      have hbyte := byte.toNat_lt
      rw [ofLittleEndian_cons, List.length_cons, Nat.pow_succ]
      omega

/-- Bytes come back from their number. -/
theorem littleEndian_ofLittleEndian (bytes : List UInt8) :
    littleEndian bytes.length (ofLittleEndian bytes) = bytes := by
  induction bytes with
  | nil => rfl
  | cons byte bytes ih =>
      have hbyte := byte.toNat_lt
      -- the lowest byte is the remainder, and the others are the quotient
      have hlow : UInt8.ofNat (byte.toNat + 256 * ofLittleEndian bytes) = byte := by
        rw [← UInt8.toNat_inj, UInt8.toNat_ofNat']
        omega
      have hhigh : (byte.toNat + 256 * ofLittleEndian bytes) / 256 = ofLittleEndian bytes := by
        omega
      rw [ofLittleEndian_cons, List.length_cons, littleEndian, hlow, hhigh, ih]

/-- A number comes back from its bytes, as far as they reach. -/
theorem ofLittleEndian_littleEndian (count value : Nat) :
    ofLittleEndian (littleEndian count value) = value % 256 ^ count := by
  induction count generalizing value with
  | zero => rw [Nat.pow_zero, Nat.mod_one]; rfl
  | succ count ih =>
      have hsplit : value % 256 ^ (count + 1) = value % 256 + 256 * (value / 256 % 256 ^ count) := by
        rw [Nat.pow_succ', Nat.mod_mul]
      rw [littleEndian, ofLittleEndian_cons, ih, UInt8.toNat_ofNat', hsplit]

/-- The lowest bytes of a number are zero if they do not count. -/
theorem take_littleEndian {low value : Nat} (high : Nat) (h : 256 ^ low ∣ value) :
    (littleEndian (low + high) value).take low = List.replicate low 0 := by
  induction low generalizing value with
  | zero => rfl
  | succ low ih =>
      obtain ⟨rest, rfl⟩ := h
      -- the lowest byte of a multiple is zero, and the rest is a multiple of the smaller power
      have hbyte : UInt8.ofNat (256 ^ (low + 1) * rest) = 0 := by
        rw [← UInt8.toNat_inj, UInt8.toNat_ofNat', Nat.pow_succ', Nat.mul_assoc]
        exact Nat.mul_mod_right ..
      have hrest : 256 ^ low ∣ 256 ^ (low + 1) * rest / 256 := by
        rw [Nat.pow_succ', Nat.mul_assoc, Nat.mul_div_cancel_left _ (by decide)]
        exact Nat.dvd_mul_right ..
      rw [Nat.succ_add, littleEndian, List.take_succ_cons, hbyte, ih hrest, List.replicate_succ]

/-- Bytes are read as a word of the range, as the number wraps around. -/
theorem fitsWord_wordOfBytes (bytes : List UInt8) : fitsWord (wordOfBytes bytes) := by
  have hlow := Int.le_bmod (x := ofLittleEndian bytes) (m := wordSpan) (by decide)
  have hhigh := Int.bmod_lt (x := ofLittleEndian bytes) (m := wordSpan) (by decide)
  rw [fitsWord_iff, wordOfBytes]
  simp only [wordSpan, wordLimit] at hlow hhigh ⊢
  omega

/-- Eight bytes come back from their word. -/
theorem bytesOfWord_wordOfBytes {bytes : List UInt8} (h : bytes.length = 8) :
    bytesOfWord (wordOfBytes bytes) = bytes := by
  have hlt : ofLittleEndian bytes < 256 ^ 8 := by
    rw [← h]
    exact ofLittleEndian_lt bytes
  have hvalue : (wordOfBytes bytes % wordSpan).toNat = ofLittleEndian bytes := by
    rw [wordOfBytes, Int.bmod_emod, wordSpan]
    omega
  rw [bytesOfWord, hvalue, ← h, littleEndian_ofLittleEndian]

/-- A word comes back from its bytes. -/
theorem wordOfBytes_bytesOfWord {n : Int} (h : fitsWord n) : wordOfBytes (bytesOfWord n) = n := by
  obtain ⟨hlow, hhigh⟩ := fitsWord_iff.mp h
  -- the bytes are those of the remainder, which wraps around to the word itself
  have hvalue : ((ofLittleEndian (bytesOfWord n) : Nat) : Int) = n % wordSpan := by
    rw [bytesOfWord, ofLittleEndian_littleEndian, wordSpan]
    omega
  rw [wordOfBytes, hvalue, Int.emod_bmod]
  apply Int.bmod_eq_of_le
  · rw [wordLimit] at hlow
    rw [wordSpan]
    omega
  · rw [wordLimit] at hhigh
    rw [wordSpan]
    omega

/-! ## Addresses -/

namespace Address

/-- A part of an address that fits is kept. -/
theorem part_integer {n : Int} (h : fitsWord n) : part (.integer n) = .ok n := by
  unfold part
  rw [Word.signed_integer h]
  exact if_pos (fitsWord_iff.mp h).2

/-- Twenty bytes, and four zeros in front of them. -/
theorem length_padded (address : Address) : address.padded.length = 24 := by
  simp [padded, address.length_bytes]

/-- They are three words, after a tag. -/
theorem length_toWords (address : Address) : address.toWords.length = addressWords := by
  simp only [toWords, List.length_cons, List.length_nil, addressWords]

/-- All four fit. -/
theorem fitsWord_toWords (address : Address) : ∀ n ∈ address.toWords, fitsWord n := by
  simp only [toWords, List.forall_mem_cons]
  exact ⟨rfl, fitsWord_wordOfBytes _, fitsWord_wordOfBytes _, fitsWord_wordOfBytes _,
    List.forall_mem_nil _⟩

/-- The bytes of an address come back from its three words. -/
theorem bytes_of_parts (address : Address) :
    let bytes := address.padded
    (bytesOfWord (wordOfBytes (bytes.take 8)) ++ bytesOfWord (wordOfBytes ((bytes.drop 8).take 8)) ++
      bytesOfWord (wordOfBytes (bytes.drop 16))).drop 4 = address.bytes := by
  intro bytes
  have hlength : bytes.length = 24 := address.length_padded
  rw [bytesOfWord_wordOfBytes (by simp [hlength]), bytesOfWord_wordOfBytes (by simp [hlength]),
    bytesOfWord_wordOfBytes (by simp [hlength]), List.append_assoc,
    show bytes.drop 16 = (bytes.drop 8).drop 8 by rw [List.drop_drop], List.take_append_drop,
    List.take_append_drop]
  rfl

/-- An address comes back from its words. -/
theorem ofWords_toWords (address : Address) :
    ofWords (address.toWords.map .integer) = .ok address := by
  simp only [toWords, List.map_cons, List.map_nil, ofWords, part_integer (fitsWord_wordOfBytes _)]
  exact congrArg Except.ok (Address.mk.injEq .. ▸ address.bytes_of_parts)

/-- The bytes that do not count are zero in a multiple of 2 ^ 32. -/
theorem padding_of_dvd {a : Int} (h : (2 : Int) ^ 32 ∣ a) :
    (bytesOfWord a).take 4 = List.replicate 4 0 := by
  have hlow : 256 ^ 4 ∣ (a % wordSpan).toNat := by
    rw [wordSpan]
    omega
  exact take_littleEndian 4 hlow

/-- Three words come back from their address if nothing is in the bytes that do not count. -/
theorem toWords_ofParts {a b c : Int} (ha : fitsWord a) (hb : fitsWord b) (hc : fitsWord c)
    (hpadding : (bytesOfWord a).take 4 = List.replicate 4 0) :
    (ofParts a b c).toWords = [0, a, b, c] := by
  have hlength : ∀ n, (bytesOfWord n).length = 8 := fun n => length_littleEndian 8 _
  -- the four bytes that are put in front are those that were left out
  have hpadded : (ofParts a b c).padded = bytesOfWord a ++ (bytesOfWord b ++ bytesOfWord c) := by
    show List.replicate 4 0 ++ (bytesOfWord a ++ bytesOfWord b ++ bytesOfWord c).drop 4 = _
    rw [← hpadding, List.append_assoc, List.drop_append_of_le_length (by rw [hlength]; decide),
      ← List.append_assoc, List.take_append_drop]
  have hmiddle : (bytesOfWord a ++ (bytesOfWord b ++ bytesOfWord c)).drop 8 =
      bytesOfWord b ++ bytesOfWord c := List.drop_left' (hlength a)
  have hlast : (bytesOfWord a ++ (bytesOfWord b ++ bytesOfWord c)).drop 16 = bytesOfWord c := by
    rw [show 16 = 8 + 8 from rfl, ← List.drop_drop, hmiddle, List.drop_left' (hlength b)]
  simp only [toWords]
  rw [hpadded, hmiddle, hlast, List.take_left' (hlength a), List.take_left' (hlength b),
    wordOfBytes_bytesOfWord ha, wordOfBytes_bytesOfWord hb, wordOfBytes_bytesOfWord hc]

end Address

/-! ## Names -/

/-- A character comes back from its code. -/
theorem charOfCode_toNat (c : Char) : charOfCode? c.toNat = some c := by
  have hvalid : (0 : Int) ≤ c.toNat ∧ (c.toNat : Int).toNat.isValidChar := ⟨by omega, c.valid⟩
  rw [charOfCode?, dif_pos hvalid]
  exact congrArg some (Char.ext rfl)

/-- The code of a character is small. -/
theorem fitsWord_toNat (c : Char) : fitsWord c.toNat := by
  have hvalid : c.toNat < 0xD800 ∨ 0xDFFF < c.toNat ∧ c.toNat < 0x110000 := c.valid
  rw [fitsWord_iff, wordLimit]
  omega

/-- The characters of a name come back from their codes. -/
theorem nameOfWords_codes (position : Int) (name : List Char) :
    nameOfWords position ((name.map fun c => (c.toNat : Int)).map .integer) = .ok name := by
  induction name generalizing position with
  | nil => rfl
  | cons c name ih =>
      simp only [List.map_cons, nameOfWords, Word.toInt, charOfCode_toNat, ih, bind, Except.bind,
        pure, Except.pure]

/-- A character has one code. -/
theorem eq_toNat_of_charOfCode {code : Int} {c : Char} (h : charOfCode? code = some c) :
    code = c.toNat := by
  rw [charOfCode?, Option.dite_none_right_eq_some] at h
  obtain ⟨hvalid, hc⟩ := h
  cases hc
  show code = (code.toNat : Int)
  rw [Int.toNat_of_nonneg hvalid.1]

/-- The codes of a name come back from its characters. -/
theorem codes_of_nameOfWords {position : Int} {codes : List Int} {name : List Char}
    (h : nameOfWords position (codes.map .integer) = .ok name) :
    codes = name.map fun c => (c.toNat : Int) := by
  induction codes generalizing position name with
  | nil =>
      cases h
      rfl
  | cons code codes ih =>
      rw [List.map_cons, nameOfWords, bind_of_eq_ok (rfl : (Word.integer code).toInt = .ok code)] at h
      -- every code is that of a character, as none was refused
      cases hcode : charOfCode? code with
      | none =>
          rw [hcode] at h
          cases h
      | some c =>
          rw [hcode] at h
          obtain ⟨name', hname, h⟩ := bind_eq_ok.mp h
          cases h
          rw [eq_toNat_of_charOfCode hcode, ih hname]
          rfl

/-! ## Tapes -/

namespace Tape

/-- The tape of some numbers, of which the first has the given position. -/
def ofIntegers (position : Int) (words : List Int) : Tape :=
  ⟨position, words.map .integer⟩

/-- A word of the range is handed out as it is. -/
theorem next_ofIntegers (position : Int) (words : List Int) {n : Int} (h : fitsWord n) :
    (ofIntegers position (n :: words)).next = .ok (n, ofIntegers (position + 1) words) := by
  simp only [ofIntegers, List.map_cons, next, Word.signed_integer h]
  rfl

/-- Words of the range are taken as they are. The count is a hypothesis, as it may itself be a word. -/
theorem take_ofIntegers (position : Int) (words : List Int) {taken : List Int} {count : Nat}
    (hcount : taken.length = count) (h : ∀ n ∈ taken, fitsWord n) :
    (ofIntegers position (taken ++ words)).take count =
      .ok (taken, ofIntegers (position + count) words) := by
  subst hcount
  unfold take
  -- on the words that are taken
  induction taken generalizing position with
  | nil => simp [ofIntegers, takeFrom]
  | cons n taken ih =>
      have hfits := List.forall_mem_cons.mp h
      have hposition : position + (taken.length + 1 : Nat) = position + 1 + taken.length := by omega
      simp only [ofIntegers, List.cons_append, List.map_cons, List.length_cons, takeFrom,
        Word.signed_integer hfits.1, hposition] at ih ⊢
      rw [ih (position + 1) hfits.2]
      rfl

end Tape

end ContractAlgebra
