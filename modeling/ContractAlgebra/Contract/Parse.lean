import ContractAlgebra.Contract.Atom
import ContractAlgebra.Contract.Tree

/-!
# Reading contracts

A contract is read by descent: a combinator, its parameters, then its sub-contracts one after the
other. The descent is structural in the depth that is still allowed. A rejection collects, on its
way out, a frame for every combinator that was being read.
-/

namespace ContractAlgebra

namespace Tree

/-- The combinator at an index, as a step of the path to a failure. -/
def frame (index : Nat) (atoms : List String) : Frame :=
  ⟨index, atoms.head?⟩

/-- A sub-contract that was read, the observables declared up to its end, and the atoms after it. -/
structure Reading where
  tree : Tree Nat
  declared : List Observable
  rest : List String

/-- Refuses a second declaration of an observable. -/
def declare (declared : List Observable) (index : Int) (head : Head) :
    Except Failure (List Observable) :=
  match head.observable? with
  | none => .ok declared
  | some o =>
    if o ∈ declared then Failure.rejectAt index (.declaredTwice o.name o.arbiter.text)
    else .ok (o :: declared)

/-- Reads a contract from atoms of which the first has the given index. `room` is how many
combinators may still nest in one another. -/
def readFrom : (room : Nat) → List Observable → Nat → List String → Except Failure Reading
  | 0, _, index, atoms =>
    (Failure.rejectAt index .contractTooDeep).mapError (.inside (frame index atoms))
  | _ + 1, _, index, [] =>
    (Failure.rejectAt index (.contractEnds .combinator)).mapError (.inside (frame index []))
  | room + 1, declared, index, atom :: rest => .mapError (.inside (frame index (atom :: rest))) do
    let some combinator := Combinator.ofAtom? atom
      | Failure.rejectAt index (.notACombinator atom)
    let (head, count) ← Head.read (index + 1) rest combinator
    let declared ← declare declared (index + 1) head
    let rest := rest.drop count
    match head with
    | .leaf op => return ⟨.leaf index op, declared, rest⟩
    | .unary op =>
      let body ← readFrom room declared (index + 1 + count) rest
      return { body with tree := .unary index op body.tree }
    | .binary op =>
      let first ← readFrom room declared (index + 1 + count) rest
      -- a sub-contract ends with a leaf, and a leaf takes a single atom
      let second ← readFrom room first.declared (first.tree.lastLabel + 1) first.rest
      return { second with tree := .binary index op first.tree second.tree }

end Tree

/-- A contract with the atoms it was read from and those that follow it. -/
structure Parsed where
  atoms : List String
  tree : Tree Nat

namespace Parsed

/-- The index of the contract's last atom. -/
def stop (parsed : Parsed) : Nat :=
  parsed.tree.lastLabel

/-- The atoms after the contract. -/
def extraneous (parsed : Parsed) : List String :=
  parsed.atoms.drop (parsed.stop + 1)

end Parsed

/-- Reads the contract at the start of some atoms. -/
def parseAtoms (atoms : List String) : Except Failure Parsed := do
  if atoms.isEmpty then Failure.reject .noContract
  else
    let reading ← Tree.readFrom (maxDepth + 1) [] 0 atoms
    return ⟨atoms, reading.tree⟩

/-- Reads the contract at the start of a text. -/
def parse (text : String) : Except Failure Parsed :=
  parseAtoms (atoms text)

/-- The canonical text of the contract at the start of a text. -/
def normalize (text : String) : Except Failure String :=
  return (← parse text).tree.render

/-! ## Verdicts -/

/-- Whether a text is a contract: where its last atom is and whether atoms follow it, or why not. -/
inductive Verdict where
  | valid (stop : Nat) (extraneous : Bool)
  | invalid (rejection : Rejection)
  deriving DecidableEq, Repr

namespace Verdict

/-- Whether the text was accepted. -/
def isValid : Verdict → Bool
  | valid .. => true
  | invalid _ => false

/-- The index of the contract's last atom. -/
def stop? : Verdict → Option Nat
  | valid stop _ => some stop
  | invalid _ => none

/-- The warning about atoms that follow the contract. -/
def warning? : Verdict → Option String
  | valid stop true =>
    some ("This contract contains extraneous combinators after atom " ++ toString stop ++
      ". These will have no effect.")
  | _ => none

/-- Why the text was refused. -/
def rejection? : Verdict → Option Rejection
  | valid .. => none
  | invalid rejection => some rejection

end Verdict

/-- Verifies contract text. Only a numeral with too many digits leaves it without a verdict. -/
def verify (text : String) : Except Failure Verdict :=
  match parse text with
  | .ok parsed => .ok (.valid parsed.stop (!parsed.extraneous.isEmpty))
  | .error (.rejected rejection) => .ok (.invalid rejection)
  | .error failure => .error failure

end ContractAlgebra
