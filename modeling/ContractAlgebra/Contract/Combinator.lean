/-!
# Combinators

The ten words of the contract language. Each has a code in bytecode, takes a fixed number of
sub-contracts, and may take a parameter before them. A word is written in any letter case; all of
their letters are ASCII, and no other character has one of them as its small letter.
-/

namespace ContractAlgebra

/-- A word of the contract language. -/
inductive Combinator where
  | zero
  | one
  | and
  | or
  | truncate
  | scale
  | give
  | andThen
  | get
  | anytime
  deriving DecidableEq, Repr

/-- What a combinator takes before its sub-contracts. -/
inductive Parameter where
  | none
  | date
  | scale
  deriving DecidableEq, Repr

/-- The name of a kind of parameter. -/
def Parameter.name : Parameter → String
  | none => "none"
  | date => "date"
  | scale => "scale"

namespace Combinator

/-- The word of a combinator. -/
def name : Combinator → String
  | zero => "zero"
  | one => "one"
  | and => "and"
  | or => "or"
  | truncate => "truncate"
  | scale => "scale"
  | give => "give"
  | andThen => "then"
  | get => "get"
  | anytime => "anytime"

/-- The word that stands for a combinator in bytecode. -/
def code : Combinator → Int
  | zero => 0
  | one => 1
  | and => 2
  | or => 3
  | truncate => 4
  | scale => 5
  | give => 6
  | andThen => 7
  | get => 8
  | anytime => 9

/-- How many sub-contracts a combinator takes. -/
def arity : Combinator → Nat
  | zero | one => 0
  | give | get | anytime | truncate | scale => 1
  | and | or | andThen => 2

/-- What a combinator takes before its sub-contracts. -/
def parameter : Combinator → Parameter
  | truncate => .date
  | scale => .scale
  | _ => .none

/-- Whether a decision of the holder may be needed to value a combinator. -/
def needsInput : Combinator → Bool
  | or | anytime => true
  | _ => false

/-- All combinators, by ascending code. -/
def all : List Combinator :=
  [zero, one, and, or, truncate, scale, give, andThen, get, anytime]

/-- The combinator that an atom names, in any letter case. -/
def ofAtom? (atom : String) : Option Combinator :=
  all.find? fun c => c.name.toList == atom.toList.map Char.toLower

/-- The combinator with a given code. -/
def ofCode? (code : Int) : Option Combinator :=
  all.find? (·.code == code)

end Combinator

end ContractAlgebra
