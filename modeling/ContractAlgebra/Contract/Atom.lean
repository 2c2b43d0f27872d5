import ContractAlgebra.Bytecode.Range
import ContractAlgebra.Contract.Head
import ContractAlgebra.Rejection

/-!
# Atoms

Contract text is cut into atoms at blanks, parentheses and commas, which have no other meaning. The
parameters of a combinator are read from the atoms after it: `readDate` and `readFactor` say how
many atoms they used.
-/

namespace ContractAlgebra

/-- The characters between atoms. -/
def isDelimiter (c : Char) : Bool :=
  Text.isBlank c || c == '(' || c == ')' || c == ','

/-- The atoms of a contract text. -/
def atoms (text : String) : List String :=
  (Text.runs isDelimiter text.toList).map String.ofList

/-- How many atoms there are up to the first that ends in a closing bracket. -/
def closingCount? (atoms : List String) : Option Nat :=
  (atoms.findIdx? (·.toList.getLast? = some '>')).map (· + 1)

/-- Atoms with one space between each two. -/
def joinAtoms (atoms : List String) : String :=
  String.intercalate " " atoms

/-- Refuses a time that is no date of 32 bits. -/
def checkDate (index : Int) (text : String) (t : Int) : Except Failure UInt32 :=
  if fitsDate t then .ok (UInt32.ofNat t.toNat)
  else Failure.rejectAt index (.timestampTooWide text)

/-- The time that a written date denotes. -/
def readTimestamp (index : Option Int) (text : String) : Except Failure Int :=
  match Timestamp.read? text.toList with
  | some t => .ok t
  | none => .error (.rejected ⟨.notADate text, index, []⟩)

/-- Reads a date from the atoms that start at an index: an integer, or a timestamp in brackets, which
ends with the first atom that ends in one. -/
def readDate (index : Int) : List String → Except Failure (UInt32 × Nat)
  | [] => Failure.rejectAt index (.contractEnds .timestamp)
  | atom :: rest =>
    if atom.toList.head? = some '<' then
      match closingCount? (atom :: rest) with
      | none => Failure.rejectAt index (.unclosedDate atom)
      | some count => do
        -- blanks inside the brackets have cut the date into several atoms
        let text := joinAtoms ((atom :: rest).take count)
        return (← checkDate index text (← readTimestamp (some index) text), count)
    else if Text.isIntegerAtom atom.toList then do
      return (← checkDate index atom (← readInt atom.toList), 1)
    else Failure.rejectAt index (.notATimestamp atom)

/-- The address that a text denotes, brackets around it allowed. -/
def readAddress (index : Option Int) (text : String) : Except Failure Address :=
  match Address.read? (unbracket text.toList) with
  | some address => .ok address
  | none => .error (.rejected ⟨.notAnAddress text, index, []⟩)

/-- Reads a factor from the atoms that start at an index: an integer, or the name of an observable
and the address of its arbiter. -/
def readFactor (index : Int) : List String → Except Failure (Factor × Nat)
  | [] => Failure.rejectAt index (.contractEnds .scale)
  | atom :: rest =>
    if Text.isIntegerAtom atom.toList then do
      let n ← readInt atom.toList
      if fitsWord n then return (.constant n, 1)
      else Failure.rejectAt index (.scaleTooWide atom)
    -- any atom that is no integer is a name, the word of a combinator too
    else match rest with
      | [] => Failure.rejectAt (index + 1) (.contractEnds .arbiter)
      | arbiter :: _ => do
        return (.observable ⟨atom, ← readAddress (some (index + 1)) arbiter⟩, 2)

/-- Reads the parameters of a combinator from the atoms that start at an index. -/
def Head.read (index : Int) (atoms : List String) : Combinator → Except Failure (Head × Nat)
  | .zero => .ok (.leaf .zero, 0)
  | .one => .ok (.leaf .one, 0)
  | .and => .ok (.binary .and, 0)
  | .or => .ok (.binary .or, 0)
  | .andThen => .ok (.binary .andThen, 0)
  | .give => .ok (.unary .give, 0)
  | .get => .ok (.unary .get, 0)
  | .anytime => .ok (.unary .anytime, 0)
  | .truncate => do
    let (date, count) ← readDate index atoms
    return (.unary (.truncate date), count)
  | .scale => do
    let (factor, count) ← readFactor index atoms
    return (.unary (.scale factor), count)

end ContractAlgebra
