import ContractAlgebra.Text.Numeral

/-!
# Successor maps

A map keyed by integers whose look-up takes the nearest key that is not smaller. Entries are kept
in ascending order of their keys.
-/

namespace ContractAlgebra

/-- A map that answers with the value at the smallest key that is not below the one asked for. -/
structure SuccessorMap (α : Type) where
  entries : List (Int × α)

namespace SuccessorMap

variable {α : Type}

/-- The map without entries. -/
def empty : SuccessorMap α := ⟨[]⟩

/-- Puts an entry where the order of keys wants it, in place of one with the same key. -/
def insertEntry (key : Int) (value : α) : List (Int × α) → List (Int × α)
  | [] => [(key, value)]
  | (k, v) :: rest =>
    if key < k then (key, value) :: (k, v) :: rest
    else if key = k then (key, value) :: rest
    else (k, v) :: insertEntry key value rest

/-- The map with a value stored at a key, over any earlier one. -/
def insert (map : SuccessorMap α) (key : Int) (value : α) : SuccessorMap α :=
  ⟨insertEntry key value map.entries⟩

/-- The map of the given entries; of two with one key the later counts. -/
def ofList (entries : List (Int × α)) : SuccessorMap α :=
  entries.foldl (fun map entry => map.insert entry.1 entry.2) empty

/-- All keys, ascending. -/
def keys (map : SuccessorMap α) : List Int :=
  map.entries.map (·.1)

/-- How many keys the map has. -/
def size (map : SuccessorMap α) : Nat :=
  map.entries.length

/-- Whether a value is stored at just this key. -/
def contains (map : SuccessorMap α) (key : Int) : Bool :=
  map.entries.any (·.1 == key)

/-- The value at the smallest key that is not below the given one. -/
def next? (map : SuccessorMap α) (key : Int) : Option α :=
  (map.entries.find? fun entry => key ≤ entry.1).map (·.2)

/-- A key that all keys of a map lie below. -/
structure Missing where
  key : Int
  keys : List Int
  deriving DecidableEq, Repr

/-- The explanation of a failed look-up, if all keys in it are short enough to be written. -/
def Missing.message? (missing : Missing) : Option String :=
  return "Could not find key for '" ++ (← Text.decimal? missing.key) ++ "'. Keys: [" ++
    String.intercalate ", " (← missing.keys.mapM Text.decimal?) ++ "]."

/-- Why a look-up fails. -/
inductive Unfound where
  | missing (missing : Missing)
  /-- A key is missing, and it or one of the others has too many digits to be written. -/
  | numberTooLong
  deriving DecidableEq, Repr

/-- The value at the smallest key that is not below the given one, which must exist. That it does not
is explained at once. -/
def next (map : SuccessorMap α) (key : Int) : Except Unfound α :=
  match map.next? key with
  | some value => .ok value
  | none =>
    let missing : Missing := ⟨key, map.keys⟩
    .error (if missing.message?.isSome then .missing missing else .numberTooLong)

end SuccessorMap

end ContractAlgebra
