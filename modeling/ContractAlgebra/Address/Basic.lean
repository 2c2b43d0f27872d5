import ContractAlgebra.Address.Keccak

/-!
# Arbiter addresses

An address is 20 bytes. It is written as `0x` and forty hexadecimal digits whose letters are large
where the hash of the small digits has a half-byte of 8 or more, so that a mistyped digit is likely
to show.

An address is read from forty digits in one case, with or without the mark in front. Digits in mixed
case are a claim to be the checksummed form, and are refused unless they are exactly that.
-/

namespace ContractAlgebra

/-- The address of an arbiter: 20 bytes. -/
structure Address where
  bytes : List UInt8
  length_bytes : bytes.length = 20
  deriving DecidableEq, Repr

namespace Address

/-! ## Hexadecimal digits -/

/-- The value of an ASCII hexadecimal digit of either case. -/
def hexValue? (c : Char) : Option Nat :=
  if '0' ≤ c ∧ c ≤ '9' then some (c.toNat - '0'.toNat)
  else if 'a' ≤ c ∧ c ≤ 'f' then some (c.toNat - 'a'.toNat + 10)
  else if 'A' ≤ c ∧ c ≤ 'F' then some (c.toNat - 'A'.toNat + 10)
  else none

/-- The small digit of a value below 16. -/
def hexDigit (value : Nat) : Char :=
  Nat.digitChar value

/-- The half-bytes of some bytes, high half first. -/
def nibbles (bytes : List UInt8) : List Nat :=
  bytes.flatMap fun byte => [byte.toNat / 16, byte.toNat % 16]

/-- The bytes of some half-bytes, high half first. -/
def ofNibbles : List Nat → List UInt8
  | high :: low :: rest => UInt8.ofNat (16 * high + low) :: ofNibbles rest
  | _ => []

/-- The forty small digits of an address. -/
def hex (address : Address) : List Char :=
  (nibbles address.bytes).map hexDigit

/-- The address of forty digits. -/
def ofHex? (digits : List Char) : Option Address := do
  guard (digits.length = 40)
  let bytes := ofNibbles (← digits.mapM hexValue?)
  if h : bytes.length = 20 then some ⟨bytes, h⟩ else none

/-! ## The checksummed form -/

/-- The half-bytes of the hash of a text of ASCII characters. -/
def hashNibbles (text : List Char) : List Nat :=
  nibbles (Keccak.hash (text.map fun c => c.toNat.toUInt8))

/-- Makes the letters large that the hash of all digits marks. -/
def checksum (digits : List Char) : List Char :=
  List.zipWith (fun mark c => if 8 ≤ mark then c.toUpper else c) (hashNibbles digits) digits

/-- The written form of an address. -/
def chars (address : Address) : List Char :=
  '0' :: 'x' :: checksum address.hex

/-- The written form of an address, as a string. -/
def text (address : Address) : String :=
  String.ofList address.chars

/-! ## Reading -/

/-- Takes off the mark of a hexadecimal number. -/
def withoutMark : List Char → List Char
  | '0' :: 'x' :: digits => digits
  | '0' :: 'X' :: digits => digits
  | digits => digits

/-- Whether small and large letters occur together. -/
def isMixedCase (digits : List Char) : Bool :=
  digits.any Char.isLower && digits.any Char.isUpper

/-- The address that a text denotes. -/
def read? (text : List Char) : Option Address := do
  let digits := withoutMark text
  let address ← ofHex? digits
  guard (!isMixedCase digits || text = address.chars)
  return address

end Address

end ContractAlgebra
