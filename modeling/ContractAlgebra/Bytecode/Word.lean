import ContractAlgebra.Address.Basic
import ContractAlgebra.Bytecode.Range
import ContractAlgebra.Rejection

/-!
# Words

Bytecode is a row of signed 64-bit words. Words arrive as integers or as numerals, and unsigned words
are taken for the signed ones with the same bits: from a word of 2 ^ 63 or more, 2 ^ 64 is taken
away, once. A word that is still too large is passed on; one that is too low is refused.
-/

namespace ContractAlgebra

/-- A word as it arrives. -/
inductive Word where
  | integer (n : Int)
  | numeral (text : String)
  deriving DecidableEq, Repr

namespace Word

/-- The number that a word stands for. -/
def toInt : Word → Except Failure Int
  | integer n => .ok n
  | numeral text => readInt text.toList

/-- A word as it was given. -/
def text : Word → Except Failure String
  | integer n => writeInt n
  | numeral text => .ok text

/-- The signed value of a word. -/
def signed (word : Word) : Except Failure Int := do
  let n ← word.toInt
  let wrapped := if wordLimit ≤ n then n - wordSpan else n
  if wrapped < -wordLimit then Failure.reject (.wordTooLow (← word.text))
  else return wrapped

end Word

/-! ## Bytes -/

/-- A number in the given count of bytes, lowest byte first. -/
def littleEndian : (count value : Nat) → List UInt8
  | 0, _ => []
  | count + 1, value => UInt8.ofNat value :: littleEndian count (value / 256)

@[simp] theorem length_littleEndian (count value : Nat) :
    (littleEndian count value).length = count := by
  induction count generalizing value with
  | zero => rfl
  | succ count ih => simp [littleEndian, ih]

/-- The number of some bytes, lowest byte first. -/
def ofLittleEndian (bytes : List UInt8) : Nat :=
  bytes.foldr (fun byte value => byte.toNat + 256 * value) 0

/-- The signed word of eight bytes, lowest byte first. -/
def wordOfBytes (bytes : List UInt8) : Int :=
  Int.bmod (ofLittleEndian bytes) wordSpan

/-- The eight bytes of a signed word, lowest byte first. -/
def bytesOfWord (n : Int) : List UInt8 :=
  littleEndian 8 (n % wordSpan).toNat

/-! ## Addresses -/

namespace Address

/-- The bytes of an address after the four zero bytes that fill up the first of its words. -/
def padded (address : Address) : List UInt8 :=
  List.replicate 4 0 ++ address.bytes

/-- The words of an address: a tag of 0 and three words. -/
def toWords (address : Address) : List Int :=
  let bytes := address.padded
  [0, wordOfBytes (bytes.take 8), wordOfBytes ((bytes.drop 8).take 8), wordOfBytes (bytes.drop 16)]

/-- The address whose three words have the given values. The first four bytes do not count. -/
def ofParts (a b c : Int) : Address :=
  ⟨(bytesOfWord a ++ bytesOfWord b ++ bytesOfWord c).drop 4, by simp [bytesOfWord]⟩

/-- The signed value of a word that has to fit 64 bits. -/
def part (word : Word) : Except Failure Int := do
  let n ← word.signed
  if n < wordLimit then return n else throw .wordTooWide

/-- The address in four words. The tag and further words are not looked at. -/
def ofWords : List Word → Except Failure Address
  | _ :: a :: b :: c :: _ => return ofParts (← part a) (← part b) (← part c)
  | words => Failure.reject (.addressTooShort words.length)

end Address

/-! ## Names -/

/-- The words of a name that is given by its codes: how many they are, and the codes. Among them may be
those of surrogates, to which no character belongs. -/
def codesToWords (codes : List Nat) : List Int :=
  codes.length :: codes.map fun (code : Nat) => (code : Int)

/-- The words of a name: its length and the codes of its characters. -/
def nameToWords (name : String) : List Int :=
  codesToWords (name.toList.map Char.toNat)

theorem nameToWords_eq (name : String) :
    nameToWords name = (name.toList.length : Int) :: name.toList.map fun c => (c.toNat : Int) := by
  rw [nameToWords, codesToWords, List.length_map, List.map_map]
  rfl

/-- The character with a given code. -/
def charOfCode? (code : Int) : Option Char :=
  if h : 0 ≤ code ∧ code.toNat.isValidChar then some (Char.ofNatAux code.toNat h.2) else none

/-- The characters with the given codes, of which the first is at the given position. -/
def nameOfWords (position : Int) : List Word → Except Failure (List Char)
  | [] => .ok []
  | word :: words => do
    let code ← word.toInt
    match charOfCode? code with
    | none => Failure.refuseAt position (.notACodePoint code)
    | some c => return c :: (← nameOfWords (position + 1) words)

end ContractAlgebra
