import ContractAlgebra.Ledger.Entry

/-!
# The ledger seen from a contract

A snapshot is all that the ledger keeps of a contract, read at one time.
-/

namespace ContractAlgebra

/-- The rows of numbers that the ledger returns for a contract. -/
structure LedgerState where
  definition : List Word
  entries : List Word
  branches : Branches
  times : List Word

/-- A contract on the ledger. -/
structure Snapshot where
  contract : String
  observables : List Entry
  branches : List (Option Bool)
  times : List (Option Int)
  deriving DecidableEq, Repr

namespace Snapshot

/-- Reads the state of a contract on the ledger. -/
def read (ledger : LedgerState) : Except Failure Snapshot := do
  let definition ← decode 0 ledger.definition
  let observables ← Entry.decodeAll ledger.entries
  let branches ← ledger.branches.choices
  let times ← acquisitionTimes ledger.times
  return ⟨definition.text, observables, branches, times⟩

/-- Whether the contract as a whole has been acquired. -/
def isAcquired (snapshot : Snapshot) : Bool :=
  match snapshot.times with
  | some _ :: _ => true
  | _ => false

/-- The values that arbiters have set, by the place of the observable. -/
def observableValues (snapshot : Snapshot) : List (Nat × Int) :=
  snapshot.observables.filterMap fun entry => entry.value.map (entry.ordinal, ·)

end Snapshot

end ContractAlgebra
