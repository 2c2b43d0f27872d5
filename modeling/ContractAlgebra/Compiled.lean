import ContractAlgebra.Contract.Arena
import ContractAlgebra.Ledger.Entry
import ContractAlgebra.SuccessorMap

/-!
# Compiled contracts

Acquired after its horizon, a contract is worth nothing. Up to the horizon, time falls into slices
in each of which the contract behaves in one way. `Tree.outlook` computes both for a contract and
for all its parts in one pass; `Compiled` keeps what the valuation of the contract needs.
-/

namespace ContractAlgebra

/-- What one pass over a contract finds out. -/
structure Outlook where
  /-- The last time at which the contract can be acquired with effect. -/
  horizon : Time
  /-- The slices of equal behaviour up to the horizon. -/
  slices : Slices
  /-- The slices at which each `anytime` can acquire its sub-contract, in reading order. -/
  anytimes : List (Nat × Slices)
  /-- The horizons of the combinators that set one of their own. -/
  horizons : List (Nat × Time)
  /-- The observables that the contract is scaled by, in reading order. -/
  observables : List (Nat × Observable)

namespace Outlook

/-- The outlook of a leaf. -/
def ofLeaf (index : Nat) : Outlook :=
  ⟨.unbounded, .whole, [], [(index, .unbounded)], []⟩

/-- The outlook of a unary combinator, from that of its sub-contract. -/
def around (index : Nat) (op : Unary) (sub : Outlook) : Except Slices.Fault Outlook := do
  match op with
  | .give | .scale (.constant _) => return sub
  | .scale (.observable o) => return { sub with observables := (index, o) :: sub.observables }
  | .truncate date =>
    let final := min (.instant date.toNat) sub.horizon
    let slices ← sub.slices.cutTail final
    return { sub with
      horizon := final, slices := slices, horizons := sub.horizons ++ [(index, final)] }
  | .get =>
    -- acquired at any time up to the horizon, `get` acquires its sub-contract at the horizon
    return { sub with slices := ← sub.slices.concatHead sub.horizon }
  | .anytime =>
    let slices ← Slices.ofRanges sub.slices.ranges
    return { sub with anytimes := (index, slices) :: sub.anytimes }

/-- The outlook of a binary combinator, from those of its sub-contracts. -/
def join (index : Nat) (op : Binary) (first second : Outlook) : Except Slices.Fault Outlook := do
  let final := max first.horizon second.horizon
  let slices ← match op with
    | .andThen => first.slices.mergeAfter second.slices
    | .and | .or => first.slices.merge second.slices
  return {
    horizon := final
    slices := slices
    anytimes := first.anytimes ++ second.anytimes
    horizons := first.horizons ++ second.horizons ++ [(index, final)]
    observables := first.observables ++ second.observables }

end Outlook

/-- The outlook of a contract. -/
def Tree.outlook : Tree Nat → Except Slices.Fault Outlook
  | leaf index _ => .ok (.ofLeaf index)
  | unary index op body => do Outlook.around index op (← body.outlook)
  | binary index op first second => do
    Outlook.join index op (← first.outlook) (← second.outlook)

/-- The outlook of a node, from those of its sub-contracts. -/
def Node.outlook (node : Node) (subs : List (Except Slices.Fault Outlook)) :
    Option (Except Slices.Fault Outlook) :=
  match node.head, subs with
  | .leaf _, [] => some (.ok (.ofLeaf node.index))
  | .unary op, [sub] => some do Outlook.around node.index op (← sub)
  | .binary op, [first, second] => some do Outlook.join node.index op (← first) (← second)
  | _, _ => none

/-- A contract with the data that its valuation needs. -/
structure Compiled where
  text : String
  parsed : Parsed
  horizon : Time
  slices : Slices
  anytimes : List (Nat × Slices)
  horizons : SuccessorMap Time
  ors : List Nat
  observables : List (Nat × Observable)

namespace Compiled

/-- Computes the data of a contract that was read from a text. -/
def ofParsed (text : String) (parsed : Parsed) : Except Failure Compiled := do
  let outlook ← ofSlices parsed.tree.outlook
  return {
    text := text
    parsed := parsed
    horizon := outlook.horizon
    slices := outlook.slices
    anytimes := outlook.anytimes
    horizons := .ofList (outlook.horizons.map fun (index, time) => (index, time))
    ors := parsed.tree.labelsOf .or
    observables := outlook.observables }

/-- The contract's tree. -/
def tree (compiled : Compiled) : Tree Nat :=
  compiled.parsed.tree

/-- The horizon of the combinator at an index. Combinators without a horizon of their own take that
of the next combinator that has one, which is the first inside them. -/
def horizonAt (compiled : Compiled) (index : Nat) : Time :=
  (compiled.horizons.next? index).getD .unbounded

/-- The slices at which the `anytime` at an index can acquire its sub-contract. -/
def anytimeSlices? (compiled : Compiled) (index : Nat) : Option Slices :=
  compiled.anytimes.lookup index

/-- The place of the `anytime` at an index among all of them. -/
def anytimeOrdinal? (compiled : Compiled) (index : Nat) : Option Nat :=
  compiled.anytimes.findIdx? (·.1 == index)

/-- The place of the `or` at an index among all of them. -/
def orOrdinal? (compiled : Compiled) (index : Nat) : Option Nat :=
  compiled.ors.findIdx? (· == index)

/-- The place of the observable that the `scale` at an index takes among all of them. -/
def observableOrdinal? (compiled : Compiled) (index : Nat) : Option Nat :=
  compiled.observables.findIdx? (·.1 == index)

/-- The observables as unset entries of the ledger. -/
def entries (compiled : Compiled) : List Entry :=
  compiled.observables.zipIdx.map fun ((_, o), ordinal) => .ofObservable o ordinal

end Compiled

/-- Reads a contract text and computes its data. -/
def compile (text : String) : Except Failure Compiled := do
  Compiled.ofParsed text (← parse text)

end ContractAlgebra
