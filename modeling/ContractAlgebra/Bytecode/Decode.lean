import ContractAlgebra.Bytecode.Word
import ContractAlgebra.Contract.Tree

/-!
# Reading bytecode

Words are read one after the other from a tape, which knows the position of its first word. A start
below zero counts back from the end; the tape then holds the last words first and after them all
words from the front, at their own positions.
-/

namespace ContractAlgebra

/-- The words still to be read, and the position of the first of them. -/
structure Tape where
  position : Int
  words : List Word

namespace Tape

/-- The tape that starts at a position of some words. A position past their end is shown when a word
is missed there, so it has to be one that can be written. -/
def ofStart (start : Int) (words : List Word) : Except Failure Tape :=
  if 0 ≤ start then
    if start ≤ words.length ∨ Text.isShort start then .ok ⟨start, words.drop start.toNat⟩
    else .error .numberTooLong
  else if -start ≤ words.length then
    .ok ⟨start, words.drop (words.length - start.natAbs) ++ words⟩
  else .error .beforeFirstWord

/-- Reads one word. -/
def next : Tape → Except Failure (Int × Tape)
  | ⟨position, []⟩ => Failure.rejectAt position (.bytecodeEnds position)
  | ⟨position, word :: words⟩ => return (← word.signed, ⟨position + 1, words⟩)

/-- Reads a number of words. -/
def takeFrom (position : Int) : Nat → List Word → Except Failure (List Int × Tape)
  | 0, words => .ok ([], ⟨position, words⟩)
  | _ + 1, [] => Failure.rejectAt position (.bytecodeEnds position)
  | count + 1, word :: words => do
    let n ← word.signed
    let (rest, tape) ← takeFrom (position + 1) count words
    return (n :: rest, tape)

/-- Reads a number of words. -/
def take (tape : Tape) (count : Nat) : Except Failure (List Int × Tape) :=
  takeFrom tape.position count tape.words

end Tape

/-- Reads a date. -/
def decodeDate (tape : Tape) : Except Failure (UInt32 × Tape) := do
  let (t, rest) ← tape.next
  if fitsDate t then return (UInt32.ofNat t.toNat, rest)
  else Failure.refuseAt tape.position (.truncationTooWide t)

/-- Reads an observable: four words of an address, the length of a name, and the name. -/
def decodeObservable (tape : Tape) : Except Failure (Observable × Tape) := do
  let (arbiter, tape) ← tape.take addressWords
  let (length, rest) ← tape.next
  if length < 0 then Failure.rejectAt tape.position (.negativeNameLength length)
  else
    let start := rest.position
    let (codes, rest) ← rest.take length.toNat
    -- the words of the address were taken first, but are looked at last
    let name ← nameOfWords start (codes.map .integer)
    let arbiter ← Address.ofWords (arbiter.map .integer)
    return (⟨String.ofList name, arbiter⟩, rest)

/-- Reads a factor: 1 and a constant, or 0 and an observable. -/
def decodeFactor (tape : Tape) : Except Failure (Factor × Tape) := do
  let (discriminator, rest) ← tape.next
  if discriminator = 1 then
    let (n, rest) ← rest.next
    -- the constant stands in the text that is read
    let _ ← writeInt n
    return (.constant n, rest)
  else if discriminator = 0 then
    let (o, rest) ← decodeObservable rest
    return (.observable o, rest)
  else Failure.refuseAt tape.position (.unknownDiscriminator discriminator)

/-- Reads a code and the parameters that it wants. -/
def Head.decode (tape : Tape) : Except Failure (Head × Tape) := do
  let (code, rest) ← tape.next
  match Combinator.ofCode? code with
  | none => Failure.refuseAt tape.position (.unknownCode code)
  | some .zero => return (.leaf .zero, rest)
  | some .one => return (.leaf .one, rest)
  | some .and => return (.binary .and, rest)
  | some .or => return (.binary .or, rest)
  | some .andThen => return (.binary .andThen, rest)
  | some .give => return (.unary .give, rest)
  | some .get => return (.unary .get, rest)
  | some .anytime => return (.unary .anytime, rest)
  | some .truncate =>
    let (date, rest) ← decodeDate rest
    return (.unary (.truncate date), rest)
  | some .scale =>
    let (factor, rest) ← decodeFactor rest
    return (.unary (.scale factor), rest)

/-- Reads a contract. Its nodes are labelled with the positions of their codes; `room` is how many
combinators may still nest in one another. -/
def Tree.decodeFrom : (room : Nat) → Tape → Except Failure (Tree Int × Tape)
  | 0, tape => Failure.rejectAt tape.position .bytecodeTooDeep
  | room + 1, tape => do
    let (head, rest) ← Head.decode tape
    match head with
    | .leaf op => return (.leaf tape.position op, rest)
    | .unary op =>
      let (body, rest) ← decodeFrom room rest
      return (.unary tape.position op body, rest)
    | .binary op =>
      let (first, rest) ← decodeFrom room rest
      let (second, rest) ← decodeFrom room rest
      return (.binary tape.position op first second, rest)

/-- A contract text that was read from bytecode, and the position of its last word. -/
structure Decoded where
  text : String
  stop : Int
  deriving DecidableEq, Repr

/-- Reads the contract that starts at a position of some words. -/
def decode (start : Int) (words : List Word) : Except Failure Decoded := do
  if words.isEmpty then Failure.reject .noBytecode
  else
    let (tree, rest) ← Tree.decodeFrom (maxDepth + 1) (← Tape.ofStart start words)
    return ⟨tree.render, rest.position - 1⟩

end ContractAlgebra
