import ContractAlgebra.Bytecode.Decode
import ContractAlgebra.Text.LetterCase

/-!
# What the ledger keeps beside a contract

The ledger returns three rows of numbers: an entry for every observable, the branches chosen at every
`or`, and the times of acquisition. The entries are words that follow one another without any mark
between them.
-/

namespace ContractAlgebra

/-- An observable on the ledger, with its place among the observables of the contract and the value
that its arbiter has set, if any. -/
structure Entry where
  address : String
  value : Option Int
  name : String
  ordinal : Nat
  deriving DecidableEq, Repr

namespace Entry

/-- The entry of an observable that is not set. -/
def ofObservable (o : Observable) (ordinal : Nat) : Entry :=
  ⟨o.arbiter.text, none, o.name, ordinal⟩

/-- Whether two entries are of one observable: the same name, and the same address in any letter
case. -/
def isDuplicateOf (a b : Entry) : Bool :=
  a.name == b.name && Text.lower a.address.toList == Text.lower b.address.toList

/-- The word in place of a value that is not set. -/
def undefined : Int := -1

/-- The words of an entry. -/
def toWords (o : Observable) (value : Option Int) : List Int :=
  o.arbiter.toWords ++ (match value with | none => [undefined] | some v => [0, v]) ++
    nameToWords o.name

/-- Reads a value: -1 for none, or any other word and then the value. -/
def decodeValue (tape : Tape) : Except Failure (Option Int × Tape) := do
  let (flag, rest) ← tape.next
  if flag = undefined then return (none, rest)
  else
    let (value, rest) ← rest.next
    return (some value, rest)

/-- Reads a name that must end where the words end or before. -/
def decodeName (tape : Tape) : Except Failure (String × Tape) := do
  let (length, rest) ← tape.next
  if length < 0 ∨ rest.words.length < length then Failure.rejectAt tape.position .nameEnds
  else
    let codes := rest.words.take length.toNat
    let name ← nameOfWords rest.position codes
    return (String.ofList name, ⟨rest.position + length, rest.words.drop length.toNat⟩)

/-- Reads an entry. -/
def decode (ordinal : Nat) (tape : Tape) : Except Failure (Entry × Tape) := do
  let address ← Address.ofWords (tape.words.take addressWords)
  let (value, rest) ← decodeValue ⟨tape.position + addressWords, tape.words.drop addressWords⟩
  let (name, rest) ← decodeName rest
  return (⟨address.text, value, name, ordinal⟩, rest)

/-- Reads entries to the end of the words. An entry takes at least one word, so as many entries as
there are words are enough. -/
def decodeUpTo : (count : Nat) → (ordinal : Nat) → Tape → Except Failure (List Entry)
  | _, _, ⟨_, []⟩ => .ok []
  | 0, _, _ => .ok []
  | count + 1, ordinal, tape => do
    let (entry, rest) ← decode ordinal tape
    return entry :: (← decodeUpTo count (ordinal + 1) rest)

/-- Reads all entries in some words. -/
def decodeAll (words : List Word) : Except Failure (List Entry) := do
  let words := (← words.mapM Word.signed).map Word.integer
  decodeUpTo words.length 0 ⟨0, words⟩

end Entry

/-! ## Acquisition times -/

/-- The times of acquisition that some words stand for; -1 stands for none. -/
def acquisitionTimes (words : List Word) : Except Failure (List (Option Int)) :=
  words.mapM fun word => return (match ← word.toInt with | -1 => none | t => some t)

/-! ## Chosen branches -/

/-- The choice that a number stands for: none from 2 on, else the first branch for just 1. -/
def branchOf (n : Int) : Option Bool :=
  if 2 ≤ n then none else some (n == 1)

/-- The ASCII characters that may stand between two bytes in hexadecimal. -/
def isHexBlank (c : Char) : Bool :=
  c == ' ' || ('\t' ≤ c && c ≤ '\r')

/-- The bytes that a text spells with two hexadecimal digits each, blanks allowed between bytes. -/
def hexBytes? : List Char → Option (List Nat)
  | [] => some []
  | c :: rest =>
    if isHexBlank c then hexBytes? rest
    else match rest with
      | [] => none
      | d :: rest => do
        let byte := 16 * (← Address.hexValue? c) + (← Address.hexValue? d)
        return byte :: (← hexBytes? rest)

/-- The chosen branches as the ledger gives them. -/
inductive Branches where
  | numbers (ns : List Int)
  | hex (text : String)

/-- The choices that a row of branches stands for. -/
def Branches.choices : Branches → Except Failure (List (Option Bool))
  | numbers ns => .ok (ns.map branchOf)
  | hex text =>
    let digits := match text.toList with
      | '0' :: 'x' :: digits => digits
      | digits => digits
    match hexBytes? digits with
    | some bytes => .ok (bytes.map fun (n : Nat) => branchOf n)
    | none => .error .notHexadecimal

end ContractAlgebra
